import FelineOS.Spec.Printf
import FelineOS.Verif.Printf

/-!
# Conversions of a format in the code

The parser of `vprintf` finds a conversion as it is spelled, and the large `switch` leaves in the
buffer and in the variables what the closed form of the conversion says.
-/

namespace FelineOS.Printf

variable {format : CString} {signedChar : Bool}

/-! ## Parsing a conversion -/

/-- A character behind others. -/
theorem charAt_append {front rest : List UInt8} {c : UInt8} {i : Nat}
    (spelled : format.chars = front ++ c :: rest) (place : i = front.length) :
    charAt format i = .ok c := by
  unfold charAt
  rw [spelled, place, List.getElem?_append_right (Nat.le_refl _), Nat.sub_self,
    List.getElem?_cons_zero]

/-- Neither a flag, as the `switch` over the flags sees it, nor a `%`. -/
def NoFlag (c : UInt8) : Prop := c ≠ 0x23 ∧ c ≠ 0x30 ∧ c ≠ 0x2D ∧ c ≠ 0x2B ∧ c ≠ 0x25

/-- A flag is taken, and the next character looked at. -/
theorem getFlags_flag {pos fuel : Nat} {flags : Flags} (flag : Flag)
    (read : charAt format (pos + 1) = .ok flag.char) :
    getFlags format (fuel + 1) pos flags = getFlags format fuel (pos + 1) (flags.set flag) := by
  rw [getFlags, read, ok_bind]
  cases flag <;> rfl

/-- The flags end at a character that is none. -/
theorem getFlags_none {pos fuel : Nat} {flags : Flags} {c : UInt8}
    (read : charAt format (pos + 1) = .ok c) (none : NoFlag c) :
    getFlags format (fuel + 1) pos flags = .ok (pos, flags) := by
  obtain ⟨hash, zero, minus, plus, -⟩ := none
  rw [getFlags, read, ok_bind]
  split
  · exact absurd rfl hash
  · exact absurd rfl zero
  · exact absurd rfl minus
  · exact absurd rfl plus
  · rfl

/-- All the flags of a conversion are taken. -/
theorem getFlags_flags (kept : List Flag) {front rest : List UInt8} {c : UInt8} {pos fuel : Nat}
    {flags : Flags} (spelled : format.chars = front ++ kept.map Flag.char ++ c :: rest)
    (place : pos + 1 = front.length) (none : NoFlag c) (enough : kept.length < fuel) :
    getFlags format fuel pos flags = .ok (pos + kept.length, kept.foldl Flags.set flags) := by
  induction kept generalizing front pos fuel flags with
  | nil =>
    obtain ⟨fuel, rfl⟩ : ∃ more, fuel = more + 1 := ⟨fuel - 1, by simp at enough; omega⟩
    rw [List.map_nil, List.append_nil] at spelled
    exact getFlags_none (charAt_append spelled place) none
  | cons flag kept ih =>
    obtain ⟨fuel, rfl⟩ : ∃ more, fuel = more + 1 := ⟨fuel - 1, by simp at enough; omega⟩
    have here : format.chars = front ++ flag.char :: (kept.map Flag.char ++ c :: rest) := by
      rw [spelled]
      simp
    have later : format.chars = (front ++ [flag.char]) ++ kept.map Flag.char ++ c :: rest := by
      rw [spelled]
      simp
    rw [getFlags_flag flag (charAt_append here place),
      ih later (by simp [place]) (by simpa using enough), List.foldl_cons, List.length_cons,
      Nat.add_right_comm, Nat.add_assoc]

/-- All the digits of an explicit width are taken. -/
theorem getWidth_digits (digits : List UInt8) {front rest : List UInt8} {c : UInt8}
    {pos fuel minWidth : Nat} (numeric : ∀ d ∈ digits, isdigit d)
    (spelled : format.chars = front ++ digits ++ c :: rest) (place : pos + 1 = front.length)
    (none : isdigit c = false) (enough : digits.length < fuel) :
    getWidth format fuel pos minWidth = .ok (pos + digits.length, digits.foldl widen minWidth) := by
  induction digits generalizing front pos fuel minWidth with
  | nil =>
    obtain ⟨fuel, rfl⟩ : ∃ more, fuel = more + 1 := ⟨fuel - 1, by simp at enough; omega⟩
    rw [List.append_nil] at spelled
    rw [getWidth, charAt_append spelled place, ok_bind, if_neg (by simp [none])]
    rfl
  | cons d digits ih =>
    obtain ⟨fuel, rfl⟩ : ∃ more, fuel = more + 1 := ⟨fuel - 1, by simp at enough; omega⟩
    have here : format.chars = front ++ d :: (digits ++ c :: rest) := by
      rw [spelled]
      simp
    have later : format.chars = (front ++ [d]) ++ digits ++ c :: rest := by
      rw [spelled]
      simp
    rw [getWidth, charAt_append here place, ok_bind, if_pos (numeric d (List.mem_cons_self ..)),
      ih (fun d listed => numeric d (List.mem_cons_of_mem _ listed)) later (by simp [place])
        (by simpa using enough), List.foldl_cons, List.length_cons, Nat.add_right_comm,
      Nat.add_assoc]
    rfl

/-- A letter that is no length modifier. -/
def NoModifier (c : UInt8) : Prop :=
  c ≠ 0x68 ∧ c ≠ 0x6C ∧ c ≠ 0x4C ∧ c ≠ 0x6A ∧ c ≠ 0x7A ∧ c ≠ 0x74

/-- The specifier of `%d`. -/
theorem specifier_decimal : specifier 0x64 = some .signed := rfl

/-- A specifier is none of the characters in front of it. -/
theorem specifier_letter {letter : UInt8} {spec : Specifier} (known : specifier letter = some spec) :
    NoFlag letter ∧ isdigit letter = false ∧ NoModifier letter := by
  unfold specifier at known
  unfold NoFlag NoModifier
  split at known <;> first | decide | cases known

/-- The length modifier of a conversion is taken. -/
theorem getLength_modifier (modifier : Modifier) {front rest : List UInt8} {letter : UInt8}
    {pos : Nat} {length : Length}
    (spelled : format.chars = front ++ modifier.chars ++ letter :: rest)
    (place : pos + 1 = front.length) (none : NoModifier letter) :
    getLength format pos length =
      .ok (pos + modifier.chars.length, modifier.inForce length) := by
  obtain ⟨h, l, L, j, z, t⟩ := none
  have first (one : UInt8) (later : List UInt8) (shape : modifier.chars = one :: later) :
      charAt format (pos + 1) = .ok one := by
    rw [shape] at spelled
    have here : format.chars = front ++ one :: (later ++ letter :: rest) := by
      rw [spelled]
      simp
    exact charAt_append here place
  have second (one two : UInt8) (later : List UInt8)
      (shape : modifier.chars ++ [letter] = one :: two :: later) :
      charAt format (pos + 2) = .ok two := by
    have here : format.chars = (front ++ [one]) ++ two :: (later ++ rest) := by
      have joined : format.chars = front ++ (modifier.chars ++ [letter]) ++ rest := by
        rw [spelled]
        simp
      rw [joined, shape]
      simp
    exact charAt_append here (by simp; omega)
  unfold getLength
  cases modifier with
  | none =>
    rw [charAt_append (by simpa [Modifier.chars] using spelled) place, ok_bind]
    split
    · exact absurd rfl h
    · exact absurd rfl l
    · exact absurd rfl L
    · exact absurd rfl j
    · exact absurd rfl z
    · exact absurd rfl t
    · rfl
  | h =>
    rw [first _ _ rfl, ok_bind, second _ _ _ rfl, ok_bind, if_neg h]
    rfl
  | hh =>
    rw [first _ _ rfl, ok_bind, second _ _ _ rfl, ok_bind, if_pos rfl]
    rfl
  | l =>
    rw [first _ _ rfl, ok_bind]
    change (do if (← charAt format (pos + 2)) = 0x6C then return (pos + 2, Length.longLong)
               else return (pos + 1, length)) = _
    rw [second _ _ _ rfl, ok_bind, if_neg l]
    rfl
  | ll =>
    rw [first _ _ rfl, ok_bind]
    change (do if (← charAt format (pos + 2)) = 0x6C then return (pos + 2, Length.longLong)
               else return (pos + 1, length)) = _
    rw [second _ _ _ rfl, ok_bind, if_pos rfl]
    rfl
  | j | z | t =>
    rw [first _ _ rfl, ok_bind]
    rfl

/-- A digit is no flag. -/
theorem isdigit_noFlag {d : UInt8} (digit : isdigit d) : NoFlag d := by
  unfold isdigit at digit
  refine ⟨?_, ?_, ?_, ?_, ?_⟩ <;>
    · rintro rfl
      exact absurd digit (by decide)

/-- A modifier starts with a letter. -/
theorem Modifier.chars_letter {modifier : Modifier} {c : UInt8} {later : List UInt8}
    (shape : modifier.chars = c :: later) : NoFlag c ∧ isdigit c = false := by
  unfold NoFlag
  cases modifier with
  | none => cases shape
  | h | hh | l | ll | j | z | t =>
    obtain ⟨rfl, -⟩ := List.cons.inj shape
    decide

/-- Behind the width of a conversion there is a letter. -/
theorem Conversion.behind_width (c : Conversion) (rest : List UInt8) :
    ∃ d later, c.modifier.chars ++ c.letter :: rest = d :: later ∧ NoFlag d ∧ isdigit d = false := by
  cases shape : c.modifier.chars with
  | nil =>
    obtain ⟨none, digit, -⟩ := specifier_letter c.known
    exact ⟨c.letter, rest, rfl, none, digit⟩
  | cons d later =>
    obtain ⟨none, digit⟩ := Modifier.chars_letter shape
    exact ⟨d, later ++ c.letter :: rest, rfl, none, digit⟩

/-- Behind the flags of a conversion there is something else. -/
theorem Conversion.behind_flags (c : Conversion) (rest : List UInt8) :
    ∃ d later, c.digits ++ (c.modifier.chars ++ c.letter :: rest) = d :: later ∧ NoFlag d := by
  cases shape : c.digits with
  | nil =>
    obtain ⟨d, later, same, none, -⟩ := c.behind_width rest
    exact ⟨d, later, same, none⟩
  | cons d later =>
    have digit : isdigit d := c.numeric d (shape ▸ List.mem_cons_self ..)
    exact ⟨d, later ++ (c.modifier.chars ++ c.letter :: rest), rfl, isdigit_noFlag digit⟩

/-- The characters of a conversion behind its `%`. -/
theorem Conversion.chars_eq (c : Conversion) (rest : List UInt8) : c.chars ++ rest =
    0x25 :: (c.flags.map Flag.char ++ (c.digits ++ (c.modifier.chars ++ c.letter :: rest))) := by
  unfold Conversion.chars
  simp

/-- A conversion is parsed as it is spelled. -/
theorem passConversion_spelled (c : Conversion) {front rest : List UInt8} {s : State}
    (spelled : format.chars = front ++ (c.chars ++ rest)) :
    passConversion signedChar format front.length s = (do
      let s' ← convert signedChar c.kept c.spec
        { s with minWidth := c.digits.foldl widen s.minWidth,
                 length := c.modifier.inForce s.length }
      let (s', fits) ← finish ((intMax : Int) - s.written) s'
      return if fits then .next (front.length + c.chars.length) s' else .failed s') := by
  rw [c.chars_eq] at spelled
  obtain ⟨d, later, flagsShape, noFlag⟩ := c.behind_flags rest
  obtain ⟨e, others, widthShape, -, noDigit⟩ := c.behind_width rest
  obtain ⟨-, -, noModifier⟩ := specifier_letter c.known
  have long : format.chars.length = front.length + (1 + (c.flags.length + (c.digits.length +
      (c.modifier.chars.length + (1 + rest.length))))) := by
    rw [spelled]
    simp only [List.length_append, List.length_cons, List.length_map]
    omega
  -- the same characters, split at each part of the conversion
  have atFlags : format.chars = (front ++ [0x25]) ++ c.flags.map Flag.char ++ d :: later := by
    rw [spelled, flagsShape]
    simp
  have atWidth : format.chars =
      (front ++ [0x25] ++ c.flags.map Flag.char) ++ c.digits ++ e :: others := by
    rw [spelled, widthShape]
    simp
  have atLength : format.chars = (front ++ [0x25] ++ c.flags.map Flag.char ++ c.digits) ++
      c.modifier.chars ++ c.letter :: rest := by
    rw [spelled]
    simp
  have flags : getFlags format (format.chars.length + 1) front.length ⟨false, false⟩ =
      .ok (front.length + c.flags.length, c.kept) :=
    getFlags_flags c.flags atFlags (by simp) noFlag (by omega)
  have width : getWidth format (format.chars.length + 1) (front.length + c.flags.length) s.minWidth =
      .ok (front.length + c.flags.length + c.digits.length, c.digits.foldl widen s.minWidth) :=
    getWidth_digits c.digits c.numeric atWidth (by simp; omega) noDigit (by omega)
  have modifier : getLength format (front.length + c.flags.length + c.digits.length) s.length =
      .ok (front.length + c.flags.length + c.digits.length + c.modifier.chars.length,
        c.modifier.inForce s.length) :=
    getLength_modifier c.modifier atLength (by simp; omega) noModifier
  have letter : charAt format (front.length + c.flags.length + c.digits.length +
      c.modifier.chars.length + 1) = .ok c.letter := charAt_append atLength (by simp; omega)
  have size : front.length + c.flags.length + c.digits.length + c.modifier.chars.length + 2 =
      front.length + c.chars.length := by
    simp only [Conversion.chars, List.length_append, List.length_cons, List.length_nil, List.length_map]
    omega
  unfold passConversion
  simp only [flags, ok_bind, width, modifier, letter, c.known, size]

/-- A pass at a conversion is one over that conversion. -/
theorem pass_spelled (c : Conversion) {front rest : List UInt8} {s : State}
    (spelled : format.chars = front ++ (c.chars ++ rest)) :
    pass signedChar format front.length s = passConversion signedChar format front.length s := by
  rw [c.chars_eq] at spelled
  obtain ⟨d, later, shape, different⟩ : ∃ d later, c.flags.map Flag.char ++
      (c.digits ++ (c.modifier.chars ++ c.letter :: rest)) = d :: later ∧ d ≠ 0x25 := by
    cases shape : c.flags with
    | nil =>
      obtain ⟨d, later, same, -, -, -, -, different⟩ := c.behind_flags rest
      exact ⟨d, later, same, different⟩
    | cons flag flags =>
      refine ⟨flag.char, flags.map Flag.char ++ (c.digits ++ (c.modifier.chars ++ c.letter :: rest)),
        rfl, ?_⟩
      cases flag <;> decide
  rw [shape] at spelled
  have second : format.chars = (front ++ [0x25]) ++ d :: later := by
    rw [spelled]
    simp
  unfold pass
  have next : charAt format (front.length + 1) = .ok d := charAt_append second (by simp)
  rw [charAt_append spelled rfl, ok_bind, if_neg (not_not.mpr rfl), next, ok_bind, if_neg different]

/-! ## Numbers in the buffer -/

/-- A text in front of a NUL. -/
theorem textAt_front {text rest : List UInt8} (noNul : 0 ∉ text) :
    textAt (text ++ 0 :: rest) 0 = text := by
  unfold textAt
  rw [List.drop_zero, List.takeWhile_append_of_pos, List.takeWhile_cons_of_neg (by simp),
    List.append_nil]
  intro c listed
  exact bne_iff_ne.mpr fun zero => noNul (zero ▸ listed)

/-- The text behind the first byte of a text. -/
theorem textAt_tail {text rest : List UInt8} (noNul : 0 ∉ text) (some_ : text ≠ []) :
    textAt (text ++ 0 :: rest) 1 = text.tail := by
  cases text with
  | nil => exact absurd rfl some_
  | cons c text => exact textAt_front fun listed => noNul (List.mem_cons_of_mem _ listed)

/-- Each digit is that of a number below sixteen. -/
theorem digits_range {num base count todivby : Nat} (positive : 0 < base) (small : base ≤ 16)
    {c : UInt8} (listed : c ∈ digits num base count todivby) :
    ∃ d < 16, c = UInt8.ofNat d + 0x30 := by
  induction count generalizing todivby with
  | zero => cases listed
  | succ count ih =>
    rcases List.mem_append.mp listed with earlier | last
    · exact ih earlier
    · refine ⟨num / todivby % base, ?_, List.mem_singleton.mp last⟩
      exact Nat.lt_of_lt_of_le (Nat.mod_lt _ positive) small

/-- What `xtostr` makes of a character. -/
def shifted (signedChar upper : Bool) (c : UInt8) : UInt8 :=
  if behindNine signedChar c then c + (if upper then 7 else 39) else c

/-- A character that can be seen. -/
def Dark (c : UInt8) : Prop := c ≠ 0 ∧ c ≠ 0x20

instance (c : UInt8) : Decidable (Dark c) := inferInstanceAs (Decidable (_ ∧ _))

/-- Every digit can be seen, also when it becomes a letter. -/
theorem digit_dark : ∀ d < 16, Dark (UInt8.ofNat d + 0x30) ∧
    ∀ signedChar upper, Dark (shifted signedChar upper (UInt8.ofNat d + 0x30)) := by
  decide

/-- A number has sixteen digits. -/
theorem Style.text_length (signedChar : Bool) (style : Style) (num : Nat) :
    (style.text signedChar num).length = 16 := by
  unfold Style.text
  cases style.letters with
  | none => exact digits_length ..
  | some upper => exact (List.length_map _).trans (digits_length ..)

/-- Every digit of a number can be seen. -/
theorem Style.text_dark (signedChar : Bool) {style : Style} (valid : style.Valid) (num : Nat) :
    ∀ c ∈ style.text signedChar num, Dark c := by
  have positive : 0 < style.base := Nat.lt_of_lt_of_le (by decide) valid.1
  unfold Style.text
  intro c listed
  cases letters : style.letters with
  | none =>
    simp only [letters] at listed
    obtain ⟨d, small, rfl⟩ := digits_range positive valid.2 listed
    exact (digit_dark d small).1
  | some upper =>
    simp only [letters] at listed
    obtain ⟨digit, among, rfl⟩ := List.mem_map.mp listed
    obtain ⟨d, small, rfl⟩ := digits_range positive valid.2 among
    exact (digit_dark d small).2 signedChar upper

/-- No digit of a number is a NUL. -/
theorem Style.text_noNul (signedChar : Bool) {style : Style} (valid : style.Valid) (num : Nat) :
    0 ∉ style.text signedChar num := fun listed => (text_dark signedChar valid num 0 listed).1 rfl

/-- A number routine puts its sixteen digits and a NUL behind what is in front of it. -/
theorem Style.print_text (signedChar : Bool) {style : Style} (valid : style.Valid) (num : Nat)
    {front old : List UInt8} (ready : Ready (front ++ old)) (short : front.length ≤ 2) :
    ∃ rest, style.print signedChar num (front ++ old) front.length =
      .ok (front ++ (style.text signedChar num ++ 0 :: rest)) := by
  have size := ready.1
  rw [List.length_append] at size
  have written : ntostr num (front ++ old) front.length style.base =
      .ok (front ++ (Printf.digits num style.base 16 1 ++ 0 :: old.drop 17)) := by
    have base : ¬(style.base < 2 ∨ 16 < style.base) := by
      have first := valid.1
      have last := valid.2
      omega
    have seventeen : (Printf.digits num style.base 16 1 ++ [0]).length = 17 := by
      rw [List.length_append, digits_length, List.length_singleton]
    unfold ntostr write
    rw [if_neg base, seventeen, if_pos (by rw [List.length_append]; omega), List.take_left,
      List.drop_append, List.drop_of_length_le (Nat.le_add_right _ _), Nat.add_sub_cancel_left]
    simp
  unfold Style.print Style.text
  rw [written, ok_bind]
  cases style.letters with
  | none => exact ⟨_, rfl⟩
  | some upper =>
    have long := digits_length num style.base 16 1
    generalize Printf.digits num style.base 16 1 = printed at long ⊢
    -- the sixteen digits, the NUL and three bytes behind it
    have twenty : ((front ++ (printed ++ 0 :: old.drop 17)).drop front.length).take 20 =
        printed ++ 0 :: (old.drop 17).take 3 := by
      rw [List.drop_left, List.take_append, List.take_of_length_le (by omega), long]
      rfl
    have shift : (printed ++ 0 :: (old.drop 17).take 3).map (shifted signedChar upper) =
        printed.map (shifted signedChar upper) ++
          0 :: ((old.drop 17).take 3).map (shifted signedChar upper) := by
      rw [List.map_append, List.map_cons]
      rfl
    let shifts := printed.map (shifted signedChar upper) ++
      0 :: ((old.drop 17).take 3).map (shifted signedChar upper)
    let beyond := (front ++ (printed ++ 0 :: old.drop 17)).drop (front.length + shifts.length)
    have fits : front.length + shifts.length ≤ (front ++ (printed ++ 0 :: old.drop 17)).length := by
      simp only [shifts, List.length_append, List.length_cons, List.length_map, List.length_take,
        List.length_drop, long]
      omega
    refine ⟨((old.drop 17).take 3).map (shifted signedChar upper) ++ beyond, ?_⟩
    change write _ _ (List.map (shifted signedChar upper) _) = _
    rw [twenty, shift]
    unfold write
    rw [if_pos fits, List.take_left]
    simp only [List.append_assoc, List.cons_append]
    rfl

/-- A conversion of a number leaves its text in the buffer. -/
theorem putNumber_text (signedChar : Bool) {style : Style} (valid : style.Valid)
    {front : List UInt8} (num : Nat) {s : State} (ready : Ready s.intStrBuf) (short : front.length ≤ 2) :
    ∃ rest, putNumber signedChar style front (some num) s =
      .ok { s with intStrBuf := front ++ (style.text signedChar num ++ 0 :: rest), width := 16 } := by
  have size := ready.1
  obtain ⟨first, written, stillReady⟩ := write_ready ready 0 front (by omega) (by omega)
  obtain ⟨old, rfl⟩ : ∃ old, first = front ++ old := by
    unfold write at written
    rw [if_pos (by omega), List.take_zero, List.nil_append] at written
    exact ⟨_, (Except.ok.inj written).symm⟩
  obtain ⟨rest, printed⟩ := Style.print_text signedChar valid num stillReady short
  have again : Ready (front ++ (style.text signedChar num ++ 0 :: rest)) := by
    obtain ⟨after, same, ready⟩ := Style.print_ready signedChar style num stillReady short
    rw [printed] at same
    exact Except.ok.inj same ▸ ready
  have width : textAt (front ++ (style.text signedChar num ++ 0 :: rest)) front.length =
      style.text signedChar num := by
    have behind : textAt (style.text signedChar num ++ 0 :: rest) 0 = style.text signedChar num :=
      textAt_front (Style.text_noNul signedChar valid num)
    unfold textAt at behind ⊢
    rw [List.drop_left]
    exact behind
  have sixteen := strlen_ready again (Nat.le_trans short (by decide))
  rw [width, Style.text_length] at sixteen
  refine ⟨rest, ?_⟩
  unfold putNumber
  rw [written, ok_bind]
  simp only [printed, ok_bind, sixteen]
  rfl

/-! ## Conversions -/

/-- The variables in which a conversion finds what was left to it. -/
structure Fits (carried : Carried) (s : State) : Prop where
  /-- `min_width`. -/
  minWidth : s.minWidth = carried.minWidth
  /-- `width`. -/
  width : s.width = carried.width
  /-- `length`. -/
  length : s.length = carried.length
  /-- The buffer behind its first byte. -/
  behind : textAt s.intStrBuf 1 = carried.behind
  /-- The buffer ends with a NUL. -/
  ready : Ready s.intStrBuf
  /-- A `long double` is no integer. -/
  integer : carried.length ≠ .longDouble

/-- The variables at the large `switch`. -/
def Conversion.settle (c : Conversion) (s : State) : State :=
  { s with minWidth := c.digits.foldl widen s.minWidth, length := c.modifier.inForce s.length }

/-- What a conversion of a number leaves is its text, and the arguments behind it. -/
def Numbered (s : State) (after : Except Fault State) : Except Fault (List UInt8 × List Arg) → Prop
  | .error fault => after = .error fault
  | .ok (text, rest) => (∀ c ∈ text, Dark c) ∧ text ≠ [] ∧ ∃ behind, after =
      .ok { s with parameters := rest, intStrBuf := text ++ 0 :: behind, width := 16 }

/-- A number is put where its text says. -/
theorem numbered_putNumber {style : Style} (valid : style.Valid) {front : List UInt8}
    (num : Nat) {s : State} {rest : List Arg} (ready : Ready s.intStrBuf) (short : Front front) :
    Numbered s (putNumber signedChar style front (some num) { s with parameters := rest })
      (.ok (front ++ style.text signedChar num, rest)) := by
  have long := Style.text_length signedChar style num
  have same : Ready { s with parameters := rest }.intStrBuf := ready
  obtain ⟨behind, put⟩ := putNumber_text signedChar valid num same short.1
  refine ⟨?_, ?_, behind, ?_⟩
  · intro c listed
    rcases List.mem_append.mp listed with inFront | inText
    · exact ⟨fun nul => short.2.1 (nul ▸ inFront), fun blank => short.2.2 (blank ▸ inFront)⟩
    · exact Style.text_dark signedChar valid num c inText
  · intro none
    rw [(List.append_eq_nil_iff.mp none).2] at long
    cases long
  · rw [put, List.append_assoc]

/-- A conversion of a number does what its text says. A pointer is read without the length
modifier. -/
theorem convert_number (signedChar : Bool) (c : Conversion) (number : c.spec.isNumber) {s : State}
    (ready : Ready s.intStrBuf) (integer : c.spec = .pointer ∨ s.length ≠ .longDouble) :
    Numbered s (convert signedChar c.kept c.spec s)
      (c.number signedChar s.length s.parameters) := by
  unfold Conversion.number
  cases spec : c.spec with
  | character | string =>
    rw [spec] at number
    cases number
  | signed =>
    rw [convert]
    dsimp only
    rcases signedNumber_cases s.length c.kept.alwaysSigned s.parameters with
      missing | ⟨number, rest, taken, front, -⟩
    · rw [missing]
      rfl
    · cases number with
      | none =>
        have integer := integer.resolve_left (by rw [spec]; decide)
        exact absurd taken (signedNumber_some integer _ _ _)
      | some number =>
        obtain ⟨sign, num⟩ := number
        rw [taken]
        exact numbered_putNumber decimal_valid num ready front
  | unsigned =>
    rw [convert]
    dsimp only
    rcases unsignedNumber_cases s.length s.parameters with missing | ⟨number, rest, taken, -⟩
    · rw [missing]
      rfl
    · cases number with
      | none =>
        have integer := integer.resolve_left (by rw [spec]; decide)
        exact absurd taken (unsignedNumber_some integer _ _)
      | some num =>
        rw [taken]
        exact numbered_putNumber decimal_valid num ready (plusOf_front _)
  | pointer =>
    rw [convert]
    dsimp only
    rcases nextWord_cases s.parameters with missing | ⟨bits, rest, -, taken⟩
    · rw [missing]
      rfl
    · have valid : Style.Valid ⟨16, some false⟩ := ⟨by decide, by decide⟩
      simp only [taken, ok_bind]
      exact numbered_putNumber valid bits.toNat ready (pointer_front _)
  | octal | hex | upperHex | binary =>
    rw [convert]
    dsimp only
    rcases unsignedNumber_cases s.length s.parameters with missing | ⟨number, rest, taken, -⟩
    · rw [missing]
      rfl
    · cases number with
      | none =>
        have integer := integer.resolve_left (by rw [spec]; decide)
        exact absurd taken (unsignedNumber_some integer _ _)
      | some num =>
        simp only [taken, ok_bind]
        have styles := unsignedStyle_valid s.length c.spec
        rw [spec] at styles
        exact numbered_putNumber styles.2 num ready (alt_front _ styles.1)

/-- A conversion has been carried out. -/
structure Shows (carried : Carried) (text : List UInt8) (rest : List Arg) (s s' : State) : Prop where
  /-- What is left to the next one. -/
  fits : Fits carried s'
  /-- The text is in the buffer. -/
  text : textAt s'.intStrBuf 0 = text
  /-- The argument is taken. -/
  parameters : s'.parameters = rest
  /-- Nothing is counted yet. -/
  written : s'.written = s.written
  /-- Nothing is emitted yet. -/
  emitted : s'.emitted = s.emitted

/-- A modifier of an integer never leaves a `long double` behind. -/
theorem Modifier.integer (modifier : Modifier) {carried : Length} (integer : carried ≠ .longDouble) :
    modifier.inForce carried ≠ .longDouble := by
  cases modifier with
  | h | l => exact integer
  | none | hh | ll | j | z | t => exact Length.noConfusion

/-- The text of a number is read with the length modifier in force. -/
theorem Conversion.text_number (c : Conversion) (number : c.spec.isNumber) (carried : Carried)
    (parameters : List Arg) :
    c.text signedChar carried parameters = c.number signedChar (c.length carried) parameters := by
  unfold Conversion.text
  cases spec : c.spec with
  | character | string =>
    rw [spec] at number
    cases number
  | signed | octal | unsigned | hex | upperHex | binary | pointer => rfl

/-- A conversion of a number behind others. -/
theorem convert_settled (signedChar : Bool) (c : Conversion) (number : c.spec.isNumber) {carried : Carried} {s : State}
    (fits : Fits carried s) :
    Numbered (c.settle s) (convert signedChar c.kept c.spec (c.settle s))
      (c.text signedChar carried s.parameters) := by
  have settled : (c.settle s).length = c.length carried :=
    congrArg (Modifier.inForce · c.modifier) fits.length
  have integer : (c.settle s).length ≠ .longDouble := by
    rw [settled]
    exact c.modifier.integer fits.integer
  have ready : Ready (c.settle s).intStrBuf := fits.ready
  have numbered := convert_number signedChar c number ready (.inr integer)
  rw [settled] at numbered
  rw [c.text_number number]
  exact numbered

/-- A conversion that does not find its argument. -/
theorem convert_error (signedChar : Bool) (c : Conversion) {carried : Carried} {s : State} {fault : Fault}
    (fits : Fits carried s)
    (failed : c.text signedChar carried s.parameters = .error fault) :
    convert signedChar c.kept c.spec (c.settle s) = .error fault := by
  cases spec : c.spec with
  | character =>
    rw [Conversion.text, spec] at failed
    rw [convert]
    rcases nextWord_cases s.parameters with missing | ⟨bits, rest, -, taken⟩
    · rw [missing] at failed
      have same : nextWord (c.settle s).parameters = .error .argument := missing
      obtain rfl : Fault.argument = fault := Except.error.inj failed
      rw [same]
      rfl
    · rw [taken] at failed
      cases failed
  | string =>
    rw [Conversion.text, spec] at failed
    rw [convert]
    rcases nextString_cases s.parameters with missing | ⟨string, rest, -, taken⟩
    · rw [missing] at failed
      have same : nextString (c.settle s).parameters = .error .argument := missing
      obtain rfl : Fault.argument = fault := Except.error.inj failed
      rw [same]
      rfl
    · have same : nextString (c.settle s).parameters = .ok (string, rest) := taken
      have size : (c.settle s).intStrBuf.length = 256 := fits.ready.1
      simp only [taken, ok_bind] at failed
      by_cases long : 255 < string.chars.length
      · rw [if_pos long] at failed
        have beyond : ¬0 + (string.chars ++ [0]).length ≤ (c.settle s).intStrBuf.length := by
          rw [size, List.length_append, List.length_singleton]
          omega
        obtain rfl : Fault.bufferWrite = fault := Except.error.inj failed
        simp only [same, ok_bind, write, if_neg beyond, error_bind]
      · rw [if_neg long] at failed
        cases failed
  | signed | octal | unsigned | hex | upperHex | binary | pointer =>
    have number : c.spec.isNumber := by
      rw [spec]
      rfl
    have numbered := convert_settled signedChar c number fits
    rw [failed, spec] at numbered
    exact numbered

/-- A conversion leaves the buffer ready. -/
theorem convert_ready {flags : Flags} {spec : Specifier} {s s' : State} (ready : Ready s.intStrBuf)
    (converted : convert signedChar flags spec s = .ok s') : Ready s'.intStrBuf := by
  have steps := convert_steps signedChar flags spec ready
  rw [converted] at steps
  cases steps with
  | done after ready => exact ready

section Settled

variable {c : Conversion} {carried : Carried} {s : State} {text : List UInt8} {rest : List Arg}

/-- The length in force is that of the conversion. -/
theorem Fits.settle_length (fits : Fits carried s) (c : Conversion) :
    (c.settle s).length = c.length carried :=
  congrArg (Modifier.inForce · c.modifier) fits.length

/-- The digits of the width go on from those that were carried over. -/
theorem Fits.settle_minWidth (fits : Fits carried s) (c : Conversion) :
    (c.settle s).minWidth = c.minWidth carried :=
  congrArg (c.digits.foldl widen) fits.minWidth

/-- The buffer is as ready as before. -/
theorem Fits.settle_ready (fits : Fits carried s) (c : Conversion) :
    Ready (c.settle s).intStrBuf := fits.ready

/-- The buffer has a first byte, and behind it the text that is carried over. -/
theorem Fits.buffer (fits : Fits carried s) :
    ∃ first buf, s.intStrBuf = first :: buf ∧ textAt buf 0 = carried.behind := by
  obtain ⟨first, buf, whole⟩ : ∃ first buf, s.intStrBuf = first :: buf := by
    apply List.exists_cons_of_length_pos
    rw [fits.ready.1]
    decide
  refine ⟨first, buf, whole, ?_⟩
  rw [← fits.behind, whole]
  rfl

/-- A conversion of text leaves the width of the last number. -/
theorem Fits.width_kept (fits : Fits carried s) (text : c.spec.isNumber = false) :
    s.width = c.width carried := by
  rw [Conversion.width, text]
  exact fits.width

/-- `%c` writes its character in front of the text that is carried over. -/
theorem convert_character (signedChar : Bool) (spec : c.spec = .character) (fits : Fits carried s)
    (taken : c.text signedChar carried s.parameters = .ok (text, rest)) :
    ∃ s', convert signedChar c.kept .character (c.settle s) = .ok s' ∧
      Shows (c.after carried text) text rest s s' := by
  obtain ⟨first, buf, whole, behind⟩ := fits.buffer
  rw [Conversion.text, spec] at taken
  rcases nextWord_cases s.parameters with missing | ⟨bits, later, -, given⟩
  · rw [missing] at taken
    cases taken
  · rw [given] at taken
    obtain ⟨rfl, rfl⟩ := Prod.mk.inj (Except.ok.inj taken)
    have same : nextWord (c.settle s).parameters = .ok (bits, later) := given
    have put : write (c.settle s).intStrBuf 0 [bits.toUInt8] = .ok (bits.toUInt8 :: buf) := by
      have here : (c.settle s).intStrBuf = first :: buf := whole
      have size : (c.settle s).intStrBuf.length = 256 := fits.ready.1
      unfold write
      rw [if_pos (by rw [size]; exact Nat.le_add_left _ _), here]
      rfl
    have converted : convert signedChar c.kept .character (c.settle s) =
        .ok { c.settle s with parameters := later, intStrBuf := bits.toUInt8 :: buf } := by
      rw [convert, same, ok_bind]
      simp only [put, ok_bind]
      rfl
    have width : s.width = c.width carried := fits.width_kept (by rw [spec]; rfl)
    refine ⟨_, converted, ⟨fits.settle_minWidth c, width, fits.settle_length c, ?_,
      convert_ready (fits.settle_ready c) converted, c.modifier.integer fits.integer⟩,
      ?_, rfl, rfl, rfl⟩
    · rw [Conversion.after, if_pos (.inl spec)]
      exact behind
    · by_cases nul : bits.toUInt8 = 0
      · rw [if_pos nul, nul]
        rfl
      · rw [if_neg nul, ← behind]
        exact List.takeWhile_cons_of_pos (bne_iff_ne.mpr nul)

/-- `%s` writes its string and a NUL. -/
theorem convert_string (signedChar : Bool) (spec : c.spec = .string) (fits : Fits carried s)
    (taken : c.text signedChar carried s.parameters = .ok (text, rest)) :
    ∃ s', convert signedChar c.kept .string (c.settle s) = .ok s' ∧
      Shows (c.after carried text) text rest s s' := by
  obtain ⟨first, buf, whole, behind⟩ := fits.buffer
  rw [Conversion.text, spec] at taken
  rcases nextString_cases s.parameters with missing | ⟨string, later, -, given⟩
  · rw [missing] at taken
    cases taken
  · simp only [given, ok_bind] at taken
    by_cases long : 255 < string.chars.length
    · rw [if_pos long] at taken
      cases taken
    · rw [if_neg long] at taken
      obtain ⟨rfl, rfl⟩ := Prod.mk.inj (Except.ok.inj taken)
      have same : nextString (c.settle s).parameters = .ok (string, later) := given
      have put : write (c.settle s).intStrBuf 0 (string.chars ++ [0]) =
          .ok (string.chars ++ 0 :: buf.drop string.chars.length) := by
        have here : (c.settle s).intStrBuf = first :: buf := whole
        have size : (c.settle s).intStrBuf.length = 256 := fits.ready.1
        have room : 0 + (string.chars ++ [0]).length ≤ (c.settle s).intStrBuf.length := by
          rw [size, List.length_append, List.length_singleton]
          omega
        unfold write
        rw [if_pos room, here]
        simp
      have converted : convert signedChar c.kept .string (c.settle s) =
          .ok { c.settle s with
            parameters := later,
            intStrBuf := string.chars ++ 0 :: buf.drop string.chars.length } := by
        rw [convert, same, ok_bind]
        simp only [put, ok_bind]
        rfl
      have width : s.width = c.width carried := fits.width_kept (by rw [spec]; rfl)
      refine ⟨_, converted, ⟨fits.settle_minWidth c, width, fits.settle_length c, ?_,
        convert_ready (fits.settle_ready c) converted, c.modifier.integer fits.integer⟩,
        textAt_front string.noNul, rfl, rfl, rfl⟩
      rw [Conversion.after]
      by_cases empty : string.chars = []
      · rw [if_pos (.inr empty), empty]
        exact behind
      · rw [if_neg (by rw [spec]; simpa using empty)]
        exact textAt_tail string.noNul empty

/-- A conversion of a number writes its digits and a NUL. -/
theorem convert_numeric (signedChar : Bool) (number : c.spec.isNumber) (fits : Fits carried s)
    (taken : c.text signedChar carried s.parameters = .ok (text, rest)) :
    ∃ s', convert signedChar c.kept c.spec (c.settle s) = .ok s' ∧
      Shows (c.after carried text) text rest s s' := by
  have numbered := convert_settled signedChar c number fits
  rw [taken] at numbered
  obtain ⟨dark, visible, tail, converted⟩ := numbered
  have noNul : 0 ∉ text := fun listed => (dark 0 listed).1 rfl
  have width : 16 = c.width carried := by
    rw [Conversion.width, if_pos number]
  have other : ¬ (c.spec = .character ∨ text = []) := by
    rintro (character | empty)
    · rw [character] at number
      cases number
    · exact visible empty
  refine ⟨_, converted, ⟨fits.settle_minWidth c, width, fits.settle_length c, ?_,
    convert_ready (fits.settle_ready c) converted, c.modifier.integer fits.integer⟩,
    textAt_front noNul, rfl, rfl, rfl⟩
  rw [Conversion.after, if_neg other]
  exact textAt_tail noNul visible

/-- A conversion shows its text. -/
theorem convert_ok (signedChar : Bool) (c : Conversion) (fits : Fits carried s)
    (taken : c.text signedChar carried s.parameters = .ok (text, rest)) :
    ∃ s', convert signedChar c.kept c.spec (c.settle s) = .ok s' ∧
      Shows (c.after carried text) text rest s s' := by
  by_cases number : c.spec.isNumber
  · exact convert_numeric signedChar number fits taken
  · cases spec : c.spec with
    | character => exact convert_character signedChar spec fits taken
    | string => exact convert_string signedChar spec fits taken
    | signed | octal | unsigned | hex | upperHex | binary | pointer =>
      rw [spec] at number
      exact absurd rfl number

end Settled

/-- The text of a conversion comes out behind its blanks. -/
theorem finish_text (c : Conversion) {carried : Carried} {s s' : State} {text : List UInt8}
    {rest : List Arg} (shows : Shows (c.after carried text) text rest s s')
    (room : s.written + text.length ≤ intMax) :
    finish ((intMax : Int) - s.written) s' =
      .ok ({ s' with emitted := s.emitted ++ (List.replicate (c.padding carried) 0x20 ++ text),
                     written := s.written + text.length }, true) := by
  have amount := strlen_ready shows.fits.ready (Nat.zero_le 255)
  have width : s'.width = c.width carried := shows.fits.width
  have minWidth : s'.minWidth = c.minWidth carried := shows.fits.minWidth
  have enough : ¬((intMax : Int) - s.written) % (wordLimit : Int) < (text.length : Int) := by
    rw [Int.emod_eq_of_lt (by omega) (by unfold intMax wordLimit; omega)]
    omega
  unfold finish
  simp only [amount, shows.text, ok_bind, if_neg enough, shows.emitted, shows.written, width, minWidth]
  rw [List.append_assoc]
  rfl

/-- A pass over a conversion. -/
theorem pass_conversion (signedChar : Bool) (c : Conversion) {front rest : List UInt8} {carried : Carried} {s : State}
    {text : List UInt8} {later : List Arg} (spelled : format.chars = front ++ (c.chars ++ rest))
    (fits : Fits carried s) (taken : c.text signedChar carried s.parameters = .ok (text, later))
    (room : s.written + text.length ≤ intMax) :
    ∃ s', pass signedChar format front.length s =
        .ok (.next (front.length + c.chars.length) s') ∧
      Fits (c.after carried text) s' ∧ s'.parameters = later ∧
      s'.written = s.written + text.length ∧
      s'.emitted = s.emitted ++ (List.replicate (c.padding carried) 0x20 ++ text) := by
  obtain ⟨s', converted, shows⟩ := convert_ok signedChar c fits taken
  have finished := finish_text c shows room
  let final : State := { s' with
    emitted := s.emitted ++ (List.replicate (c.padding carried) 0x20 ++ text),
    written := s.written + text.length }
  refine ⟨final, ?_, ?_, shows.parameters, rfl, rfl⟩
  · rw [pass_spelled c spelled, passConversion_spelled c spelled]
    change (convert signedChar c.kept c.spec (c.settle s) >>= _) = _
    rw [converted, ok_bind, finished, ok_bind]
    rfl
  · exact ⟨shows.fits.minWidth, shows.fits.width, shows.fits.length, shows.fits.behind,
      shows.fits.ready, shows.fits.integer⟩

/-- A pass over a conversion that does not find its argument. -/
theorem pass_error (signedChar : Bool) (c : Conversion) {front rest : List UInt8} {carried : Carried} {s : State}
    {fault : Fault} (spelled : format.chars = front ++ (c.chars ++ rest)) (fits : Fits carried s)
    (failed : c.text signedChar carried s.parameters = .error fault) :
    pass signedChar format front.length s = .error fault := by
  have converted := convert_error signedChar c fits failed
  rw [pass_spelled c spelled, passConversion_spelled c spelled]
  change (convert signedChar c.kept c.spec (c.settle s) >>= _) = _
  rw [converted]
  rfl

end FelineOS.Printf
