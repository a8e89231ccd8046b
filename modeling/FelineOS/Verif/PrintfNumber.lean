import FelineOS.Verif.PrintfDigits

/-!
# Which integers are printed

A conversion of an integer prints its argument exactly when the digits of its width are understood
and the length modifier in force reads the argument back. Both are facts about the text that the
conversion puts in the buffer, and about the argument that it takes.
-/

namespace FelineOS.Printf

open Library

/-! ## The argument of a conversion -/

namespace IntegerConversion

variable {c : IntegerConversion} {v : Int}

/-- The modifier gives the size of an argument that is no pointer. -/
theorem bits_modifier (number : c.spec ≠ .pointer) : c.bits = c.modifier.bits := by
  unfold bits
  rw [if_neg number]

/-- A modifier of a shorter type has a word for an argument. -/
theorem argument_word (number : c.spec ≠ .pointer) (narrow : c.modifier.wide = false) :
    c.argument v = .word (UInt32.ofNat (v % 2 ^ 32).toNat) := by
  have size : c.bits ≠ 64 := by
    rw [bits_modifier number]
    cases modifier : c.modifier with
    | none | h | hh | l | z | t => decide
    | ll | j =>
      rw [modifier] at narrow
      cases narrow
  unfold argument
  rw [if_neg size]

/-- A modifier of the longest type has two words for an argument. -/
theorem argument_dword (number : c.spec ≠ .pointer) (wide : c.modifier.wide) :
    c.argument v = .dword (UInt64.ofNat (v % 2 ^ 64).toNat) := by
  have size : c.bits = 64 := by
    rw [bits_modifier number]
    cases modifier : c.modifier with
    | ll | j => rfl
    | none | h | hh | l | z | t =>
      rw [modifier] at wide
      cases wide
  unfold argument
  rw [if_pos size]

/-- A pointer is a word. -/
theorem argument_pointer (pointer : c.spec = .pointer) :
    c.argument v = .word (UInt32.ofNat (v % 2 ^ 32).toNat) := by
  have size : c.bits ≠ 64 := by
    unfold bits
    rw [if_pos pointer]
    decide
  unfold argument
  rw [if_neg size]

/-- The range of a shorter signed type. -/
theorem InType.signed_word (inType : c.InType v) (signed : c.spec = .signed)
    (narrow : c.modifier.wide = false) : -2 ^ 31 ≤ v ∧ v < 2 ^ 31 := by
  have number : c.spec ≠ .pointer := by
    rw [signed]
    decide
  unfold InType at inType
  rw [if_pos signed, bits_modifier number] at inType
  cases modifier : c.modifier with
  | none | h | hh | l | z | t =>
    simp only [modifier, Modifier.bits] at inType
    omega
  | ll | j =>
    rw [modifier] at narrow
    cases narrow

/-- The range of the longest signed type. -/
theorem InType.signed_dword (inType : c.InType v) (signed : c.spec = .signed)
    (wide : c.modifier.wide) : -2 ^ 63 ≤ v ∧ v < 2 ^ 63 := by
  have number : c.spec ≠ .pointer := by
    rw [signed]
    decide
  unfold InType at inType
  rw [if_pos signed, bits_modifier number] at inType
  cases modifier : c.modifier with
  | ll | j =>
    simp only [modifier, Modifier.bits] at inType
    omega
  | none | h | hh | l | z | t =>
    rw [modifier] at wide
    cases wide

/-- The range of a shorter unsigned type, or of a pointer. -/
theorem InType.unsigned_word (inType : c.InType v) (unsigned : c.spec ≠ .signed)
    (narrow : c.spec = .pointer ∨ c.modifier.wide = false) : 0 ≤ v ∧ v < 2 ^ 32 := by
  unfold InType at inType
  rw [if_neg unsigned] at inType
  by_cases pointer : c.spec = .pointer
  · unfold bits at inType
    rw [if_pos pointer] at inType
    exact inType
  · have short := narrow.resolve_left pointer
    rw [bits_modifier pointer] at inType
    cases modifier : c.modifier with
    | none | h | hh | l | z | t =>
      simp only [modifier, Modifier.bits] at inType
      omega
    | ll | j =>
      rw [modifier] at short
      cases short

/-- The range of the longest unsigned type. -/
theorem InType.unsigned_dword (inType : c.InType v) (unsigned : c.spec ≠ .signed)
    (number : c.spec ≠ .pointer) (wide : c.modifier.wide) : 0 ≤ v ∧ v < 2 ^ 64 := by
  unfold InType at inType
  rw [if_neg unsigned, bits_modifier number] at inType
  cases modifier : c.modifier with
  | ll | j =>
    simp only [modifier, Modifier.bits] at inType
    exact inType
  | none | h | hh | l | z | t =>
    rw [modifier] at wide
    cases wide

end IntegerConversion

/-! ## The text of a conversion -/

/-- A sign is over where the digits begin. -/
theorem sign_takeWhile {sign text : List UInt8} (signs : ∀ c ∈ sign, c < 0x30)
    (digits : ∀ c ∈ text, 0x30 ≤ c) : (sign ++ text).takeWhile (· < 0x30) = sign := by
  have none : text.takeWhile (· < 0x30) = [] := by
    cases text with
    | nil => rfl
    | cons c text =>
      have digit := digits c (List.mem_cons_self ..)
      exact List.takeWhile_cons_of_neg (by simpa using digit)
  rw [List.takeWhile_append_of_pos (by simpa using signs), none, List.append_nil]

/-- Texts of numbers are the same when both parts are. -/
theorem sign_split {one other text rest : List UInt8} (signs : ∀ c ∈ one, c < 0x30)
    (others : ∀ c ∈ other, c < 0x30) (digits : ∀ c ∈ text, 0x30 ≤ c)
    (figures : ∀ c ∈ rest, 0x30 ≤ c) : one ++ text = other ++ rest ↔ one = other ∧ text = rest := by
  constructor
  · intro same
    have sign : one = other := by
      rw [← sign_takeWhile signs digits, same, sign_takeWhile others figures]
    rw [sign] at same
    exact ⟨sign, List.append_cancel_left same⟩
  · rintro ⟨sign, rfl⟩
    rw [sign]

/-- The characters of digits are behind those of signs. -/
theorem digitChar_behind : ∀ d < 16, ∀ upper, 0x30 ≤ digitChar upper d := by
  decide

/-- So are all the characters of digits. -/
theorem digitChars_behind {digits : List Nat} (small : ∀ d ∈ digits, d < 16) (upper : Bool) :
    ∀ c ∈ (digits.map (digitChar upper)).reverse, 0x30 ≤ c := by
  intro c listed
  obtain ⟨d, digit, rfl⟩ := List.mem_map.mp (List.mem_reverse.mp listed)
  exact digitChar_behind d (small d digit) upper

/-- And all the characters of a numeral. -/
theorem numeral_behind {base : Nat} (least : 2 ≤ base) (most : base ≤ 16) (zeros n : Nat)
    (upper : Bool) : ∀ c ∈ List.replicate zeros 0x30 ++ numeral base upper n, 0x30 ≤ c := by
  rw [zeros_numeral]
  apply digitChars_behind
  intro d listed
  rcases List.mem_append.mp listed with digit | zero
  · exact Nat.lt_of_lt_of_le (Nat.digits_lt_base least digit) most
  · rw [List.eq_of_mem_replicate zero]
    decide

section Represents

variable (signedChar : Bool) {c : IntegerConversion} {v : Int}

/-- Sixteen digits behind what stands in front represent a value when they show it. -/
theorem Style.represents_iff {style : Style} (valid : style.Valid) {one : Bool}
    (prints : style.Prints one) (base : style.base = c.spec.base) (num : Nat) :
    c.Represents v (c.front v ++ style.text signedChar num) ↔
      num % c.spec.base ^ 16 = v.natAbs ∧
        (one = decide (c.spec = .upperHex) ∨ ∀ d ∈ Nat.digits c.spec.base v.natAbs, d < 10) := by
  unfold IntegerConversion.Represents
  simp only [List.append_cancel_left_eq]
  rw [Style.text_lastDigits signedChar valid prints, base]
  apply places_show_iff
  · exact base ▸ valid.1
  · exact base ▸ valid.2

/-- A signed number represents a value when its sign and its digits do. -/
theorem signed_represents_iff (signed : c.spec = .signed) {sign : List UInt8}
    (signs : ∀ d ∈ sign, d < 0x30) (num : Nat) :
    c.Represents v (sign ++ Style.text signedChar ⟨10, none⟩ num) ↔
      sign = signOf c.kept.alwaysSigned v ∧ num % 10 ^ 16 = v.natAbs := by
  have front : c.front v = signOf c.kept.alwaysSigned v := by
    unfold IntegerConversion.front
    rw [signed]
  have base : c.spec.base = 10 := by
    rw [signed]
    rfl
  have wanted := signOf_below c.kept.alwaysSigned v
  have decimals : Style.Prints ⟨10, none⟩ false := .inr ⟨rfl, Nat.le_refl _⟩
  have printed := Style.text_lastDigits signedChar decimal_valid decimals num
  have digits : ∀ d ∈ Style.text signedChar ⟨10, none⟩ num, 0x30 ≤ d := by
    rw [printed]
    exact digitChars_behind (fun d listed =>
      Nat.lt_trans (lt_of_mem_lastDigits (by decide) listed) (by decide)) false
  have shown : (∃ zeros, ((lastDigits 10 16 num).map (digitChar false)).reverse =
      List.replicate zeros 0x30 ++ numeral 10 (c.spec = .upperHex) v.natAbs) ↔
        num % 10 ^ 16 = v.natAbs ∧ (false = decide (c.spec = .upperHex) ∨
          ∀ d ∈ Nat.digits 10 v.natAbs, d < 10) := places_show_iff (by decide) (by decide)
  have figures (zeros : Nat) :
      ∀ d ∈ List.replicate zeros 0x30 ++ numeral 10 (c.spec = .upperHex) v.natAbs, 0x30 ≤ d :=
    numeral_behind (by decide) (by decide) zeros _ _
  have split (zeros : Nat) := sign_split signs wanted digits (figures zeros)
  unfold IntegerConversion.Represents
  rw [front, base]
  simp only [split]
  rw [exists_and_left, printed, shown]
  have decimal : ∀ d ∈ Nat.digits 10 v.natAbs, d < 10 := fun d listed =>
    Nat.digits_lt_base (by decide) listed
  have looks : false = decide (c.spec = .upperHex) ∨ ∀ d ∈ Nat.digits 10 v.natAbs, d < 10 :=
    .inr decimal
  rw [and_iff_left looks]

end Represents

/-- The parser sees a conversion whose width has only digits that `isdigit` knows. -/
def IntegerConversion.conversion (c : IntegerConversion) (numeric : ∀ d ∈ c.digits, isdigit d) :
    Conversion :=
  ⟨c.flags, c.digits, c.modifier, c.letter, c.spec, numeric, c.known⟩

/-- The bases of the number routines, and the case that they print in. -/
theorem unsignedStyle_shape (length : Length) {spec : Specifier} (digits : spec.isNumber)
    (unsigned : spec ≠ .signed) (number : spec ≠ .pointer) :
    (unsignedStyle length spec).2.base = spec.base ∧ (unsignedStyle length spec).2.Prints
      (if spec = .hex then length = .intmax else spec = .upperHex) := by
  cases spec with
  | signed => exact absurd rfl unsigned
  | pointer => exact absurd rfl number
  | character | string => cases digits
  | unsigned => exact ⟨rfl, .inr ⟨rfl, Nat.le_refl 10⟩⟩
  | octal => exact ⟨rfl, .inr ⟨rfl, show 8 ≤ 10 by decide⟩⟩
  | binary => exact ⟨rfl, .inr ⟨rfl, show 2 ≤ 10 by decide⟩⟩
  | hex | upperHex => exact ⟨rfl, .inl rfl⟩

section Number

variable (signedChar : Bool) {c : IntegerConversion} (numeric : ∀ d ∈ c.digits, isdigit d)
  {v : Int} {length : Length} (later : List Arg)

/-- The text of a signed number, and when it represents the value. -/
theorem number_signed (signed : c.spec = .signed) (inType : c.InType v)
    (integer : length ≠ .longDouble) (size : length.wide = c.modifier.wide) :
    ∃ text, (c.conversion numeric).number signedChar length (c.argument v :: later) =
        .ok (text, later) ∧ (c.Represents v text ↔ length.ReadsSigned v) ∧
      (c.Represents v text → text.length = (c.front v).length + 16) := by
  have number : c.spec ≠ .pointer := by
    rw [signed]
    decide
  obtain ⟨sign, num, taken, signs, exact_⟩ : ∃ sign num,
      signedNumber length c.kept.alwaysSigned (c.argument v :: later) =
        .ok (some (sign, num), later) ∧ (∀ d ∈ sign, d < 0x30) ∧
      (sign = signOf c.kept.alwaysSigned v ∧ num % 10 ^ 16 = v.natAbs ↔ length.ReadsSigned v) := by
    cases wide : c.modifier.wide with
    | false =>
      rw [c.argument_word number wide]
      exact signedNumber_word (size.trans wide) integer _ (inType.signed_word signed wide) later
    | true =>
      rw [c.argument_dword number wide]
      exact signedNumber_dword (size.trans wide) _ (inType.signed_dword signed wide) later
  have spec : (c.conversion numeric).spec = .signed := signed
  refine ⟨sign ++ Style.text signedChar ⟨10, none⟩ num, ?_, ?_, ?_⟩
  · unfold Conversion.number
    simp only [spec]
    show (signedNumber length c.kept.alwaysSigned (c.argument v :: later) >>= _) = _
    rw [taken]
    rfl
  · rw [signed_represents_iff signedChar signed signs]
    exact exact_
  · rw [signed_represents_iff signedChar signed signs]
    intro shown
    rw [List.length_append, Style.text_length, shown.1]
    unfold IntegerConversion.front
    rw [signed]

/-- The text of a number without a sign. -/
theorem number_text (unsigned : c.spec ≠ .signed) (number : c.spec ≠ .pointer) {num : Nat}
    (taken : unsignedNumber length (c.argument v :: later) = .ok (some num, later)) :
    (c.conversion numeric).number signedChar length (c.argument v :: later) =
      .ok (c.front v ++ (unsignedStyle length c.spec).2.text signedChar num, later) := by
  have same : (c.conversion numeric).spec = c.spec := rfl
  unfold Conversion.number IntegerConversion.front
  simp only [same]
  cases spec : c.spec with
  | signed => exact absurd spec unsigned
  | pointer => exact absurd spec number
  | character | string =>
    have digits := c.number
    rw [spec] at digits
    cases digits
  | unsigned | octal | hex | upperHex | binary =>
    show (unsignedNumber length (c.argument v :: later) >>= _) = _
    rw [taken]
    rfl

/-- The text of a number without a sign, and when it represents the value. -/
theorem number_unsigned (unsigned : c.spec ≠ .signed) (number : c.spec ≠ .pointer)
    (inType : c.InType v) (integer : length ≠ .longDouble) (size : length.wide = c.modifier.wide) :
    ∃ text, (c.conversion numeric).number signedChar length (c.argument v :: later) =
        .ok (text, later) ∧ (c.Represents v text ↔ length.ReadsUnsigned c.spec v) ∧
      text.length = (c.front v).length + 16 := by
  obtain ⟨num, taken, exact_⟩ : ∃ num,
      unsignedNumber length (c.argument v :: later) = .ok (some num, later) ∧
      (num % c.spec.base ^ 16 = v.natAbs ∧
        (length = .intmax → c.spec = .hex → ∀ d ∈ Nat.digits 16 v.natAbs, d < 10) ↔
        length.ReadsUnsigned c.spec v) := by
    cases wide : c.modifier.wide with
    | false =>
      rw [c.argument_word number wide]
      exact unsignedNumber_word (size.trans wide) integer _
        (inType.unsigned_word unsigned (.inr wide)) later
    | true =>
      rw [c.argument_dword number wide]
      exact unsignedNumber_dword (size.trans wide) _
        (inType.unsigned_dword unsigned number wide) later
  obtain ⟨base, prints⟩ := unsignedStyle_shape length c.number unsigned number
  have valid := (unsignedStyle_valid length c.spec).2
  -- the letters of `x` are in the wrong case for an `intmax_t`
  have looks : ((if c.spec = .hex then decide (length = .intmax) else decide (c.spec = .upperHex)) =
      decide (c.spec = .upperHex) ∨ ∀ d ∈ Nat.digits c.spec.base v.natAbs, d < 10) ↔
      (length = .intmax → c.spec = .hex → ∀ d ∈ Nat.digits 16 v.natAbs, d < 10) := by
    by_cases hex : c.spec = .hex
    · by_cases longest : length = .intmax <;> simp [hex, longest, Specifier.base]
    · simp [hex]
  refine ⟨_, number_text signedChar numeric later unsigned number taken, ?_, ?_⟩
  · rw [Style.represents_iff signedChar valid prints base, looks]
    exact exact_
  · rw [List.length_append, Style.text_length]

/-- A pointer always has the text of its value. -/
theorem number_pointer (length : Length) (later : List Arg) (pointer : c.spec = .pointer) (inType : c.InType v) :
    ∃ text, (c.conversion numeric).number signedChar length (c.argument v :: later) =
        .ok (text, later) ∧ c.Represents v text ∧ text.length = (c.front v).length + 16 := by
  have unsigned : c.spec ≠ .signed := by
    rw [pointer]
    decide
  have range := inType.unsigned_word unsigned (.inl pointer)
  have value : (UInt32.ofNat (v % 2 ^ 32).toNat).toNat = v.natAbs := by
    rw [UInt32.toNat_ofNat']
    omega
  have front : c.front v = if c.kept.altForm then [] else [0x30, 0x78] := by
    unfold IntegerConversion.front
    rw [pointer]
  have base : Style.base ⟨16, some false⟩ = c.spec.base := by
    rw [pointer]
    rfl
  have valid : Style.Valid ⟨16, some false⟩ := ⟨by decide, by decide⟩
  have spec : (c.conversion numeric).spec = .pointer := pointer
  rw [c.argument_pointer pointer]
  refine ⟨c.front v ++ Style.text signedChar ⟨16, some false⟩ v.natAbs, ?_, ?_, ?_⟩
  · unfold Conversion.number
    simp only [spec]
    show Except.ok (_ ++ Style.text signedChar ⟨16, some false⟩ _, later) = _
    rw [value, front]
    rfl
  · rw [Style.represents_iff signedChar valid (.inl rfl) base]
    refine ⟨?_, .inl (by rw [pointer]; rfl)⟩
    rw [pointer]
    apply Nat.mod_eq_of_lt
    have room : 2 ^ 32 < Specifier.pointer.base ^ 16 := by decide
    omega
  · rw [List.length_append, Style.text_length]

end Number

/-! ## Arguments of another size -/

/-- A word is no argument for a modifier of the longest type. -/
theorem number_word (signedChar : Bool) (c : Conversion) (digits : c.spec.isNumber)
    (number : c.spec ≠ .pointer) {length : Length} (wide : length.wide) (bits : UInt32)
    (later : List Arg) : c.number signedChar length (.word bits :: later) = .error .argument := by
  have missing : signedNumber length c.kept.alwaysSigned (.word bits :: later) =
      .error .argument ∧ unsignedNumber length (.word bits :: later) = .error .argument := by
    cases length with
    | longLong | intmax => exact ⟨rfl, rfl⟩
    | char | short | int | long | size | ptrdiff | longDouble => cases wide
  unfold Conversion.number
  cases spec : c.spec with
  | pointer => exact absurd spec number
  | character | string =>
    rw [spec] at digits
    cases digits
  | signed =>
    show (signedNumber length c.kept.alwaysSigned (.word bits :: later) >>= _) = _
    rw [missing.1]
    rfl
  | unsigned | octal | hex | upperHex | binary =>
    show (unsignedNumber length (.word bits :: later) >>= _) = _
    rw [missing.2]
    rfl

/-- Two words are no argument for another modifier. -/
theorem number_dword (signedChar : Bool) (c : Conversion) (digits : c.spec.isNumber)
    (number : c.spec ≠ .pointer) {length : Length} (narrow : length.wide = false)
    (integer : length ≠ .longDouble) (bits : UInt64) (later : List Arg) :
    c.number signedChar length (.dword bits :: later) = .error .argument := by
  have missing : signedNumber length c.kept.alwaysSigned (.dword bits :: later) =
      .error .argument ∧ unsignedNumber length (.dword bits :: later) = .error .argument := by
    cases length with
    | longLong | intmax => cases narrow
    | longDouble => exact absurd rfl integer
    | char | short | int | long | size | ptrdiff => exact ⟨rfl, rfl⟩
  unfold Conversion.number
  cases spec : c.spec with
  | pointer => exact absurd spec number
  | character | string =>
    rw [spec] at digits
    cases digits
  | signed =>
    show (signedNumber length c.kept.alwaysSigned (.dword bits :: later) >>= _) = _
    rw [missing.1]
    rfl
  | unsigned | octal | hex | upperHex | binary =>
    show (unsignedNumber length (.dword bits :: later) >>= _) = _
    rw [missing.2]
    rfl

/-- A conversion of a `long double` takes no argument. -/
theorem convert_longDouble (signedChar : Bool) (c : Conversion) (digits : c.spec.isNumber)
    (number : c.spec ≠ .pointer) {s : State} (ready : Ready s.intStrBuf)
    (longest : s.length = .longDouble) : ∃ after,
      convert signedChar c.kept c.spec s = .ok after ∧ Ready after.intStrBuf ∧
      after.parameters = s.parameters := by
  have front (alt : List UInt8) (short : alt.length ≤ 2) (style : Style) :=
    putNumber_ready signedChar style none (s := s) ready short
  cases spec : c.spec with
  | pointer => exact absurd spec number
  | character | string =>
    rw [spec] at digits
    cases digits
  | signed =>
    have missing : signedNumber s.length c.kept.alwaysSigned s.parameters =
        .ok (none, s.parameters) := by
      rw [longest]
      rfl
    rw [convert]
    simp only [missing, ok_bind]
    exact front [] (by decide) ⟨10, none⟩
  | unsigned =>
    have missing : unsignedNumber s.length s.parameters = .ok (none, s.parameters) := by
      rw [longest]
      rfl
    rw [convert]
    simp only [missing, ok_bind]
    exact front [] (by decide) ⟨10, none⟩
  | octal | hex | upperHex | binary =>
    have missing : unsignedNumber s.length s.parameters = .ok (none, s.parameters) := by
      rw [longest]
      rfl
    have styles := (unsignedStyle_valid s.length c.spec).1
    rw [spec] at styles
    rw [convert]
    simp only [missing, ok_bind]
    exact front _ (alt_front c.kept.altForm styles).1 _

/-! ## A pass over a conversion -/

section Pass

variable {format : CString} {front rest : List UInt8} {s : State} {later : List Arg}

/-- A pass over the conversion of a number emits its text, or there is no room for it. -/
theorem pass_number (signedChar : Bool) (c : Conversion) (digits : c.spec.isNumber)
    (spelled : format.chars = front ++ (c.chars ++ rest)) (ready : Ready s.intStrBuf)
    (integer : c.spec = .pointer ∨ c.modifier.inForce s.length ≠ .longDouble) {text : List UInt8}
    (taken : c.number signedChar (c.modifier.inForce s.length) s.parameters = .ok (text, later)) :
    ∃ after, (s.HasRoom text.length ∧
        pass signedChar format front.length s = .ok (.next (front.length + c.chars.length) after) ∧
        after.emitted = s.emitted ++ (List.replicate (if 16 < c.digits.foldl widen s.minWidth then
          c.digits.foldl widen s.minWidth - 16 else 0) 0x20 ++ text) ∧ after.parameters = later) ∨
      (¬s.HasRoom text.length ∧ pass signedChar format front.length s = .ok (.failed after)) := by
  have settled : Ready (c.settle s).intStrBuf := ready
  have numbered := convert_number signedChar c digits (s := c.settle s) settled integer
  have same : c.number signedChar (c.settle s).length (c.settle s).parameters =
    .ok (text, later) := taken
  rw [same] at numbered
  obtain ⟨dark, visible, behind, converted⟩ := numbered
  have noNul : 0 ∉ text := fun listed => (dark 0 listed).1 rfl
  have shown : textAt (text ++ 0 :: behind) 0 = text := textAt_front noNul
  have amount : strlen (text ++ 0 :: behind) 0 = .ok text.length := by
    have again := strlen_ready (convert_ready settled converted) (Nat.zero_le 255)
    rw [shown] at again
    exact again
  rw [pass_spelled c spelled, passConversion_spelled c spelled]
  change ∃ after, (_ ∧ (convert signedChar c.kept c.spec (c.settle s) >>= _) = _ ∧ _) ∨
    (_ ∧ (convert signedChar c.kept c.spec (c.settle s) >>= _) = _)
  rw [converted]
  simp only [ok_bind, finish, amount, shown]
  by_cases room : s.HasRoom text.length
  · have enough : ¬((intMax : Int) - s.written) % (wordLimit : Int) < (text.length : Int) :=
      Int.not_lt.mpr room
    simp only [if_neg enough]
    refine ⟨_, .inl ⟨room, rfl, ?_, rfl⟩⟩
    rw [List.append_assoc]
    rfl
  · have short : ((intMax : Int) - s.written) % (wordLimit : Int) < (text.length : Int) :=
      Int.not_le.mp room
    simp only [if_pos short]
    exact ⟨_, .inr ⟨room, rfl⟩⟩

/-- A pass does not get over a conversion of a number that finds another argument. -/
theorem pass_mismatch (signedChar : Bool) (c : Conversion) (digits : c.spec.isNumber)
    (spelled : format.chars = front ++ (c.chars ++ rest)) (ready : Ready s.intStrBuf)
    (integer : c.modifier.inForce s.length ≠ .longDouble)
    (missing : c.number signedChar (c.modifier.inForce s.length) s.parameters = .error .argument) :
    pass signedChar format front.length s = .error .argument := by
  have settled : Ready (c.settle s).intStrBuf := ready
  have numbered := convert_number signedChar c digits (s := c.settle s) settled (.inr integer)
  have same : c.number signedChar (c.settle s).length (c.settle s).parameters =
    .error .argument := missing
  rw [same] at numbered
  rw [pass_spelled c spelled, passConversion_spelled c spelled]
  change (convert signedChar c.kept c.spec (c.settle s) >>= _) = _
  rw [show convert signedChar c.kept c.spec (c.settle s) = .error .argument from numbered]
  rfl

/-- A pass over a conversion of a `long double` leaves the arguments. -/
theorem pass_longDouble (signedChar : Bool) (c : Conversion) (digits : c.spec.isNumber)
    (number : c.spec ≠ .pointer) (spelled : format.chars = front ++ (c.chars ++ rest))
    (ready : Ready s.intStrBuf) (longest : c.modifier.inForce s.length = .longDouble)
    {behind : Nat} {after : State}
    (passed : pass signedChar format front.length s = .ok (.next behind after)) :
    after.parameters = s.parameters := by
  obtain ⟨middle, converted, stillReady, kept⟩ :=
    convert_longDouble signedChar c digits number (s := c.settle s) ready longest
  obtain ⟨last, fits, finished, -, same⟩ :=
    finish_ready ((intMax : Int) - s.written) stillReady
  rw [pass_spelled c spelled, passConversion_spelled c spelled] at passed
  change (convert signedChar c.kept c.spec (c.settle s) >>= _) = _ at passed
  rw [converted, ok_bind, finished, ok_bind] at passed
  cases fits with
  | true =>
    obtain ⟨-, rfl⟩ := Pass.next.inj (Except.ok.inj passed)
    exact same.trans kept
  | false => exact Pass.noConfusion (Except.ok.inj passed)

end Pass

/-! ## A width that is not understood -/

/-- The width of a conversion ends at the first digit that `isdigit` does not know. -/
theorem digits_broken {digits : List UInt8} (broken : ¬∀ d ∈ digits, isdigit d) :
    ∃ known d others, digits = known ++ d :: others ∧ (∀ d ∈ known, isdigit d) ∧
      isdigit d = false := by
  cases found : digits.find? fun d => !isdigit d with
  | none =>
    have all : ∀ d ∈ digits, isdigit d := fun d listed => by
      simpa using List.find?_eq_none.mp found d listed
    exact absurd all broken
  | some d =>
    obtain ⟨unknown, known, others, shape, numeric⟩ := List.find?_eq_some_iff_append.mp found
    refine ⟨known, d, others, shape, fun e among => ?_, ?_⟩
    · simpa using numeric e among
    · simpa using unknown

/-- A digit that `isdigit` does not know is the first or the last. -/
theorem digit_unknown {d : UInt8} (decimal : 0x30 ≤ d ∧ d ≤ 0x39) (unknown : isdigit d = false) :
    d = 0x30 ∨ d = 0x39 := by
  unfold isdigit at unknown
  simp only [Bool.and_eq_false_iff, decide_eq_false_iff_not, UInt8.lt_iff_toNat_lt,
    UInt8.le_iff_toNat_le, ← UInt8.toNat_inj] at decimal unknown ⊢
  change 0x30 ≤ d.toNat ∧ d.toNat ≤ 0x39 at decimal
  change ¬0x30 < d.toNat ∨ ¬d.toNat < 0x39 at unknown
  show d.toNat = 0x30 ∨ d.toNat = 0x39
  omega

/-- Such a digit is no length modifier and no specifier. -/
theorem unknown_letter {d : UInt8} (extreme : d = 0x30 ∨ d = 0x39) :
    NoModifier d ∧ specifier d = none := by
  unfold NoModifier
  rcases extreme with rfl | rfl <;> decide

/-- A decimal digit that is not zero is no flag. -/
theorem decimal_noFlag {d : UInt8} (decimal : 0x30 ≤ d ∧ d ≤ 0x39) (leading : d ≠ 0x30) :
    NoFlag d := by
  refine ⟨?_, leading, ?_, ?_, ?_⟩ <;>
    · rintro rfl
      exact absurd decimal (by decide)

/-- Behind the `%` of a conversion there is no other one, in the flags or where they end. -/
theorem second_different {format : CString} {front rest : List UInt8} {flags : List Flag} {e : UInt8}
    (spelled : format.chars = (front ++ [0x25]) ++ flags.map Flag.char ++ e :: rest)
    (noFlag : NoFlag e) : ∃ f, charAt format (front.length + 1) = .ok f ∧ f ≠ 0x25 := by
  have place : front.length + 1 = (front ++ [0x25]).length := by
    rw [List.length_append, List.length_singleton]
  cases flags with
  | nil =>
    rw [List.map_nil, List.append_nil] at spelled
    exact ⟨e, charAt_append spelled place, noFlag.2.2.2.2⟩
  | cons flag flags =>
    rw [List.map_cons, List.append_assoc, List.cons_append] at spelled
    refine ⟨flag.char, charAt_append spelled place, ?_⟩
    cases flag <;> decide

/-- A pass whose width stops at a character that is no specifier goes on no further than there. -/
theorem pass_stops (signedChar : Bool) {format : CString} {front known tail : List UInt8}
    {flags : List Flag} {d : UInt8} {s after : State} {behind : Nat}
    (whole : format.chars = front ++ 0x25 :: (flags.map Flag.char ++ (known ++ d :: tail)))
    (numeric : ∀ e ∈ known, isdigit e) (unknown : isdigit d = false)
    (starts : ∃ e rest, known ++ d :: tail = e :: rest ∧ NoFlag e)
    (noModifier : NoModifier d) (noSpecifier : specifier d = none)
    (passed : pass signedChar format front.length s = .ok (.next behind after)) :
    behind ≤ front.length + flags.length + known.length + 2 := by
  obtain ⟨e, rest, widthShape, noFlag⟩ := starts
  have long := congrArg List.length whole
  simp only [List.length_append, List.length_cons, List.length_map] at long
  have atFlags : format.chars = (front ++ [0x25]) ++ flags.map Flag.char ++ e :: rest := by
    rw [whole, widthShape]
    simp
  have atWidth : format.chars =
      (front ++ [0x25] ++ flags.map Flag.char) ++ known ++ d :: tail := by
    rw [whole]
    simp
  have atLength : format.chars = (front ++ [0x25] ++ flags.map Flag.char ++ known) ++
      Modifier.none.chars ++ d :: tail := by
    rw [atWidth]
    simp [Modifier.chars]
  have percent : charAt format front.length = .ok 0x25 := charAt_append whole rfl
  obtain ⟨f, readSecond, different⟩ := second_different atFlags noFlag
  have flagsRead : getFlags format (format.chars.length + 1) front.length ⟨false, false⟩ =
      .ok (front.length + flags.length, flags.foldl Flags.set ⟨false, false⟩) :=
    getFlags_flags flags atFlags (by simp) noFlag (by omega)
  have widthRead : getWidth format (format.chars.length + 1) (front.length + flags.length)
      s.minWidth = .ok (front.length + flags.length + known.length, known.foldl widen s.minWidth) :=
    getWidth_digits known numeric atWidth (by simp; omega) unknown (by omega)
  have modifier : getLength format (front.length + flags.length + known.length) s.length =
      .ok (front.length + flags.length + known.length, .int) :=
    getLength_modifier .none atLength (by simp; omega) noModifier
  have letter : charAt format (front.length + flags.length + known.length + 1) = .ok d :=
    charAt_append atWidth (by simp; omega)
  obtain ⟨back, returned, -, -, most⟩ := rewind_spec percent
    (show front.length ≤ front.length + flags.length + known.length + 1 by omega) (by omega)
  unfold pass passConversion at passed
  simp only [percent, ok_bind, ne_eq, not_true, if_false, readSecond, if_neg different, flagsRead,
    widthRead, modifier, letter, noSpecifier, returned] at passed
  obtain ⟨rfl, -⟩ := Pass.next.inj (Except.ok.inj passed)
  exact Nat.succ_le_succ most

/-- A pass over a conversion with such a width only goes on behind a `%` in it. -/
theorem pass_unknown (signedChar : Bool) {format : CString} (c : IntegerConversion)
    {front rest : List UInt8} {s after : State} {behind : Nat}
    (spelled : format.chars = front ++ (c.chars ++ rest)) (broken : ¬∀ d ∈ c.digits, isdigit d)
    (passed : pass signedChar format front.length s = .ok (.next behind after)) :
    behind < front.length + c.chars.length := by
  obtain ⟨known, d, others, shape, numeric, unknown⟩ := digits_broken broken
  have decimal : 0x30 ≤ d ∧ d ≤ 0x39 := by
    apply c.decimal
    rw [shape]
    exact List.mem_append_right _ (List.mem_cons_self ..)
  obtain ⟨noModifier, noSpecifier⟩ := unknown_letter (digit_unknown decimal unknown)
  have size : c.chars.length = 1 + (c.flags.length + (known.length + (1 + (others.length +
      (c.modifier.chars.length + 1))))) := by
    unfold IntegerConversion.chars
    rw [shape]
    simp only [List.length_append, List.length_cons, List.length_nil, List.length_map]
    omega
  -- what the parser stops at behind the flags
  have starts : ∃ e tail,
      known ++ d :: (others ++ (c.modifier.chars ++ c.letter :: rest)) = e :: tail ∧ NoFlag e := by
    cases known with
    | nil =>
      have leading : d ≠ 0x30 := by
        rintro rfl
        exact c.leading (by rw [shape]; rfl)
      exact ⟨d, _, rfl, decimal_noFlag decimal leading⟩
    | cons e known => exact ⟨e, _, rfl, isdigit_noFlag (numeric e (List.mem_cons_self ..))⟩
  have whole : format.chars = front ++ 0x25 :: (c.flags.map Flag.char ++
      (known ++ d :: (others ++ (c.modifier.chars ++ c.letter :: rest)))) := by
    rw [spelled]
    unfold IntegerConversion.chars
    rw [shape]
    simp
  have most := pass_stops signedChar whole numeric unknown starts noModifier noSpecifier passed
  omega

/-! ## The integers that are printed -/

section Printed

variable (signedChar : Bool) {format : CString} {c : IntegerConversion} {front rest : List UInt8}
  {s : State} {v : Int} {later : List Arg}

/-- A conversion that finds its argument prints the value when its text represents it and there is
room. -/
theorem prints_of_number (numeric : ∀ d ∈ c.digits, isdigit d)
    (spelled : format.chars = front ++ (c.chars ++ rest)) (ready : Ready s.intStrBuf)
    (integer : c.spec = .pointer ∨ c.modifier.inForce s.length ≠ .longDouble) {text : List UInt8}
    (taken : (c.conversion numeric).number signedChar (c.modifier.inForce s.length) s.parameters =
      .ok (text, later)) (size : c.Represents v text → text.length = (c.front v).length + 16) :
    c.Prints signedChar format front.length s v later ↔
      c.Represents v text ∧ s.HasRoom ((c.front v).length + 16) := by
  obtain ⟨after, ⟨room, passed, emitted, parameters⟩ | ⟨full, failed⟩⟩ :=
    pass_number signedChar (c.conversion numeric) c.number spelled ready integer taken
  · constructor
    · rintro ⟨shown, last, represents, again, same, -⟩
      have one : last = after :=
        (Pass.next.inj (Except.ok.inj (again.symm.trans passed))).2
      rw [one, emitted] at same
      have equal : text = shown :=
        List.append_cancel_left (List.append_cancel_left same)
      rw [← equal] at represents
      exact ⟨represents, size represents ▸ room⟩
    · rintro ⟨represents, -⟩
      exact ⟨text, after, represents, passed, emitted, parameters⟩
  · constructor
    · rintro ⟨shown, last, -, again, -⟩
      exact Pass.noConfusion (Except.ok.inj (again.symm.trans failed))
    · rintro ⟨represents, room⟩
      exact absurd (size represents ▸ room) full

/-- A conversion does not print a value that is not of the size that the modifier in force takes. -/
theorem not_prints_of_size (numeric : ∀ d ∈ c.digits, isdigit d)
    (spelled : format.chars = front ++ (c.chars ++ rest)) (ready : Ready s.intStrBuf)
    (number : c.spec ≠ .pointer) (integer : c.modifier.inForce s.length ≠ .longDouble)
    (size : (c.modifier.inForce s.length).wide ≠ c.modifier.wide)
    (given : s.parameters = c.argument v :: later) :
    ¬c.Prints signedChar format front.length s v later := by
  have missing : (c.conversion numeric).number signedChar (c.modifier.inForce s.length)
      s.parameters = .error .argument := by
    rw [given]
    cases wide : c.modifier.wide with
    | false =>
      rw [wide] at size
      rw [c.argument_word number wide]
      exact number_word signedChar _ c.number number (Bool.eq_true_of_not_eq_false size) _ _
    | true =>
      rw [wide] at size
      rw [c.argument_dword number wide]
      exact number_dword signedChar _ c.number number (Bool.eq_false_iff.mpr size) integer _ _
  have failed :=
    pass_mismatch signedChar (c.conversion numeric) c.number spelled ready integer missing
  rintro ⟨-, after, -, passed, -⟩
  rw [failed] at passed
  cases passed

/-- A conversion does not print an integer as a `long double`. -/
theorem not_prints_of_longDouble (numeric : ∀ d ∈ c.digits, isdigit d)
    (spelled : format.chars = front ++ (c.chars ++ rest)) (ready : Ready s.intStrBuf)
    (number : c.spec ≠ .pointer) (longest : c.modifier.inForce s.length = .longDouble)
    (given : s.parameters = c.argument v :: later) :
    ¬c.Prints signedChar format front.length s v later := by
  rintro ⟨-, after, -, passed, -, taken⟩
  have kept := pass_longDouble signedChar (c.conversion numeric) c.number number spelled ready
    longest passed
  rw [taken, given] at kept
  exact List.cons_ne_self _ _ kept.symm

end Printed

/-- A pass over a conversion of an integer prints the value exactly when `isdigit` knows the digits
of the width, the length modifier in force takes an argument of the size of the value and reads it
back, and there is room. -/
theorem pass_prints_iff (signedChar : Bool) {format : CString} (c : IntegerConversion)
    {front rest : List UInt8} {s : State} {v : Int} {later : List Arg}
    (spelled : format.chars = front ++ (c.chars ++ rest)) (ready : Ready s.intStrBuf)
    (inType : c.InType v) (given : s.parameters = c.argument v :: later) :
    c.Prints signedChar format front.length s v later ↔
      c.Exact s.length v ∧ s.HasRoom ((c.front v).length + 16) := by
  by_cases numeric : ∀ d ∈ c.digits, isdigit d
  · unfold IntegerConversion.Exact
    rw [and_iff_right numeric]
    by_cases pointer : c.spec = .pointer
    · obtain ⟨text, taken, represents, size⟩ :=
        number_pointer signedChar numeric (c.modifier.inForce s.length) later pointer inType
      rw [prints_of_number signedChar numeric spelled ready (.inl pointer) (given ▸ taken)
        fun _ => size, and_iff_right represents, and_iff_right (.inl pointer)]
    · rw [or_iff_right pointer]
      by_cases longest : c.modifier.inForce s.length = .longDouble
      · have misread : ¬if c.spec = .signed then (c.modifier.inForce s.length).ReadsSigned v
            else (c.modifier.inForce s.length).ReadsUnsigned c.spec v := by
          rw [longest]
          split
          · exact id
          · exact fun read => read.2
        have lost := not_prints_of_longDouble signedChar numeric spelled ready pointer longest given
        exact ⟨fun prints => absurd prints lost, fun read => absurd read.1.2 misread⟩
      · by_cases size : (c.modifier.inForce s.length).wide = c.modifier.wide
        · rw [and_iff_right size]
          by_cases signed : c.spec = .signed
          · obtain ⟨text, taken, represents, long⟩ :=
              number_signed signedChar numeric later signed inType longest size
            rw [prints_of_number signedChar numeric spelled ready (.inr longest) (given ▸ taken) long,
              represents, if_pos signed]
          · obtain ⟨text, taken, represents, long⟩ :=
              number_unsigned signedChar numeric later signed pointer inType longest size
            rw [prints_of_number signedChar numeric spelled ready (.inr longest) (given ▸ taken)
              fun _ => long, represents, if_neg signed]
        · have lost :=
            not_prints_of_size signedChar numeric spelled ready pointer longest size given
          exact ⟨fun prints => absurd prints lost, fun read => absurd read.1.1 size⟩
  · constructor
    · rintro ⟨-, after, -, passed, -⟩
      exact absurd (pass_unknown signedChar c spelled numeric passed) (Nat.lt_irrefl _)
    · rintro ⟨exact_, -⟩
      exact absurd exact_.1 numeric

/-- `%d`. -/
def plainDecimal : IntegerConversion :=
  ⟨[], [], .none, 0x64, .signed, List.forall_mem_nil _, by decide, specifier_decimal, rfl⟩

/-- `%jd`. -/
def maximalDecimal : IntegerConversion :=
  ⟨[], [], .j, 0x64, .signed, List.forall_mem_nil _, by decide, specifier_decimal, rfl⟩

/-- A format with nothing but `%d`. -/
def plainFormat : CString := ⟨plainDecimal.chars, by decide, by decide⟩

/-- A format with nothing but `%jd`. -/
def maximalFormat : CString := ⟨maximalDecimal.chars, by decide, by decide⟩

/-- A negative number behind `%d` is printed. -/
theorem pass_prints_decimal :
    plainDecimal.Prints true plainFormat 0 (start [plainDecimal.argument (-5)]) (-5) [] := by
  have inType : plainDecimal.InType (-5) := ⟨by decide, by decide⟩
  have exact_ : plainDecimal.Exact .int (-5) :=
    ⟨List.forall_mem_nil _, .inr ⟨rfl, show (-5 : Int) ≠ -2 ^ 31 by decide⟩⟩
  have room : (start [plainDecimal.argument (-5)]).HasRoom 17 :=
    show (17 : Int) ≤ _ by decide
  have spelled : plainFormat.chars = [] ++ (plainDecimal.chars ++ []) := rfl
  exact (pass_prints_iff true plainDecimal spelled (start_ready _) inType rfl).mpr ⟨exact_, room⟩

/-- What has been emitted after a pass. -/
def Pass.emitted : Pass → List UInt8
  | .next _ after => after.emitted
  | .failed after => after.emitted

/-- `%jd` prints the last sixteen digits of the complement of a negative number. -/
theorem pass_loses_maximal : maximalDecimal.InType (-1) ∧
    ¬maximalDecimal.Prints true maximalFormat 0 (start [maximalDecimal.argument (-1)]) (-1) [] := by
  have passed : (pass true maximalFormat 0 (start [maximalDecimal.argument (-1)])).map
      Pass.emitted =
      -- `-6744073709551615`
      .ok [0x2D, 0x36, 0x37, 0x34, 0x34, 0x30, 0x37, 0x33, 0x37, 0x30, 0x39, 0x35, 0x35, 0x31,
        0x36, 0x31, 0x35] := by
    decide +kernel
  refine ⟨⟨by decide, by decide⟩, ?_⟩
  rintro ⟨text, after, ⟨zeros, represents⟩, again, emitted, -⟩
  rw [again] at passed
  have shown : after.emitted = _ := Except.ok.inj passed
  have last := congrArg List.getLast? (shown.symm.trans emitted)
  have one : numeral 10 false 1 = [0x31] := by decide
  have value : numeral maximalDecimal.spec.base (maximalDecimal.spec = .upperHex)
      (-1 : Int).natAbs = [0x31] := one
  -- the five at the end is not the one of the value
  rw [represents, value, ← List.append_assoc, ← List.append_assoc, ← List.append_assoc,
    List.getLast?_concat] at last
  exact absurd last (by decide)

end FelineOS.Printf
