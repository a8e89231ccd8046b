import FelineOS.Spec.Printf

/-!
# The way through the format

Each part of the parser is met in front of the terminating NUL and stops in front of it or at it:
the flags, the width and the length modifier only go on over characters that are not the NUL. On
an unsupported specifier the way back ends at the latest at the `%` that the pass started at, so
every pass ends behind the place where it began.
-/

namespace FelineOS.Printf

variable {format : CString}

/-! ## Reading the format -/

/-- Up to the NUL a character can be read, and only the last one read is the NUL. -/
theorem charAt_inside {i : Nat} (inside : i ≤ format.chars.length) :
    ∃ c, charAt format i = .ok c ∧ (c ≠ 0 → i < format.chars.length) ∧
      (i < format.chars.length → c ≠ 0) := by
  unfold charAt
  by_cases before : i < format.chars.length
  · rw [List.getElem?_eq_getElem before]
    refine ⟨_, rfl, fun _ => before, fun _ zero => format.noNul ?_⟩
    rw [← zero]
    exact List.getElem_mem before
  · have here : i = format.chars.length := by omega
    rw [List.getElem?_eq_none (Nat.le_of_not_lt before)]
    exact ⟨0, if_pos here, fun nonzero => absurd rfl nonzero, fun less => absurd less before⟩

/-- What is not the NUL is in front of it. -/
theorem charAt_visible {i : Nat} {c : UInt8} (read : charAt format i = .ok c) (visible : c ≠ 0) :
    i < format.chars.length := by
  by_contra beyond
  unfold charAt at read
  rw [List.getElem?_eq_none (Nat.le_of_not_lt beyond)] at read
  by_cases last : i = format.chars.length
  · simp only [if_pos last] at read
    exact visible (Except.ok.inj read).symm
  · simp only [if_neg last] at read
    cases read

/-- The text up to the next `%` ends in the format. -/
theorem countText_spec {pos fuel amount : Nat} (inside : pos + amount ≤ format.chars.length)
    (enough : format.chars.length < fuel + (pos + amount)) :
    ∃ count, countText format pos fuel amount = .ok count ∧ amount ≤ count ∧
      pos + count ≤ format.chars.length := by
  induction fuel generalizing amount with
  | zero => omega
  | succ fuel ih =>
    obtain ⟨c, read, before, -⟩ := charAt_inside inside
    rw [countText, read, ok_bind]
    by_cases text : c ≠ 0 ∧ c ≠ 0x25
    · have more := before text.1
      have next : pos + (amount + 1) ≤ format.chars.length := by omega
      obtain ⟨count, counted, least, most⟩ := ih next (by omega)
      rw [if_pos text]
      exact ⟨count, counted, by omega, most⟩
    · rw [if_neg text]
      exact ⟨amount, rfl, Nat.le_refl _, inside⟩

/-- Text inside the format can be read. -/
theorem readText_spec {pos amount : Nat} (inside : pos + amount ≤ format.chars.length) :
    ∃ text, readText format pos amount = .ok text := by
  induction amount generalizing pos with
  | zero => exact ⟨[], rfl⟩
  | succ amount ih =>
    have here : pos ≤ format.chars.length := by omega
    have next : pos + 1 + amount ≤ format.chars.length := by omega
    obtain ⟨c, read, -⟩ := charAt_inside here
    obtain ⟨rest, more⟩ := ih next
    refine ⟨c :: rest, ?_⟩
    rw [readText, read, ok_bind, more, ok_bind]
    rfl

/-- The flags end in front of a character of the format or of the NUL. -/
theorem getFlags_spec {fuel pos : Nat} (flags : Flags) (inside : pos < format.chars.length)
    (enough : format.chars.length < fuel + pos) :
    ∃ behind kept, getFlags format fuel pos flags = .ok (behind, kept) ∧ pos ≤ behind ∧
      behind < format.chars.length := by
  induction fuel generalizing pos flags with
  | zero => omega
  | succ fuel ih =>
    have following : pos + 1 ≤ format.chars.length := inside
    obtain ⟨c, read, before, -⟩ := charAt_inside following
    have next (flags : Flags) (nonzero : c ≠ 0) : ∃ behind kept,
        getFlags format fuel (pos + 1) flags = .ok (behind, kept) ∧ pos ≤ behind ∧
          behind < format.chars.length := by
      obtain ⟨behind, kept, got, least, most⟩ := ih flags (before nonzero) (by omega)
      exact ⟨behind, kept, got, by omega, most⟩
    rw [getFlags, read, ok_bind]
    split
    · exact next _ (by decide)
    · exact next _ (by decide)
    · exact next _ (by decide)
    · exact next _ (by decide)
    · exact ⟨pos, flags, rfl, Nat.le_refl _, inside⟩

/-- The explicit width ends in front of a character of the format or of the NUL. -/
theorem getWidth_spec {fuel pos : Nat} (minWidth : Nat) (inside : pos < format.chars.length)
    (enough : format.chars.length < fuel + pos) :
    ∃ behind kept, getWidth format fuel pos minWidth = .ok (behind, kept) ∧ pos ≤ behind ∧
      behind < format.chars.length := by
  induction fuel generalizing pos minWidth with
  | zero => omega
  | succ fuel ih =>
    have following : pos + 1 ≤ format.chars.length := inside
    obtain ⟨c, read, before, -⟩ := charAt_inside following
    rw [getWidth, read, ok_bind]
    by_cases digit : isdigit c
    · have nonzero : c ≠ 0 := by
        rintro rfl
        exact absurd digit (by decide)
      obtain ⟨behind, kept, got, least, most⟩ :=
        ih (wrap (wrap (minWidth * 10) + (c.toNat - 0x30))) (before nonzero) (by omega)
      rw [if_pos digit]
      exact ⟨behind, kept, got, by omega, most⟩
    · rw [if_neg digit]
      exact ⟨pos, minWidth, rfl, Nat.le_refl _, inside⟩

/-- The length modifier ends in front of a character of the format or of the NUL. -/
theorem getLength_spec {pos : Nat} (length : Length) (inside : pos < format.chars.length) :
    ∃ behind kept, getLength format pos length = .ok (behind, kept) ∧ pos ≤ behind ∧
      behind < format.chars.length := by
  have following : pos + 1 ≤ format.chars.length := inside
  obtain ⟨c, read, before, -⟩ := charAt_inside following
  have single (kept : Length) (nonzero : c ≠ 0) : ∃ behind kept',
      (.ok (pos + 1, kept) : Except Fault (Nat × Length)) = .ok (behind, kept') ∧ pos ≤ behind ∧
        behind < format.chars.length := ⟨pos + 1, kept, rfl, by omega, before nonzero⟩
  have doubled (letter : UInt8) (both : Length) (nonzero : c ≠ 0) (visible : letter ≠ 0) :
      ∃ behind kept,
      (do if (← charAt format (pos + 2)) = letter then return (pos + 2, both)
          else return (pos + 1, length) : Except Fault (Nat × Length)) = .ok (behind, kept) ∧
        pos ≤ behind ∧ behind < format.chars.length := by
    have one := before nonzero
    have next : pos + 2 ≤ format.chars.length := one
    obtain ⟨d, second, further, -⟩ := charAt_inside next
    rw [second, ok_bind]
    by_cases same : d = letter
    · rw [if_pos same]
      exact ⟨pos + 2, both, rfl, by omega, further (same ▸ visible)⟩
    · rw [if_neg same]
      exact ⟨pos + 1, length, rfl, by omega, one⟩
  rw [getLength, read, ok_bind]
  split
  · exact doubled 0x68 .char (by decide) (by decide)
  · exact doubled 0x6C .longLong (by decide) (by decide)
  · exact single _ (by decide)
  · exact single _ (by decide)
  · exact single _ (by decide)
  · exact single _ (by decide)
  · exact ⟨pos, .int, rfl, Nat.le_refl _, inside⟩

/-- The way back from behind a `%` ends between the two. -/
theorem rewind_spec {percent pos : Nat} (found : charAt format percent = .ok 0x25)
    (behind : percent ≤ pos) (inside : pos ≤ format.chars.length) :
    ∃ back, rewind format pos = .ok back ∧ percent ≤ back ∧ charAt format back = .ok 0x25 ∧
      back ≤ pos := by
  induction pos with
  | zero =>
    obtain rfl : percent = 0 := by omega
    refine ⟨0, ?_, Nat.le_refl _, found, Nat.le_refl _⟩
    rw [rewind, found]
    rfl
  | succ pos ih =>
    obtain ⟨c, read, -⟩ := charAt_inside inside
    rw [rewind, read, ok_bind]
    by_cases here : c = 0x25
    · rw [if_pos here]
      exact ⟨pos + 1, rfl, behind, here ▸ read, Nat.le_refl _⟩
    · have other : percent ≠ pos + 1 := by
        rintro rfl
        exact here (Except.ok.inj (read.symm.trans found))
      obtain ⟨back, returned, least, percent, most⟩ := ih (by omega) (by omega)
      rw [if_neg here]
      exact ⟨back, returned, least, percent, by omega⟩

/-! ## The conversion buffer -/

/-- The buffer has its size, and its last byte is a NUL. -/
def Ready (buf : List UInt8) : Prop := buf.length = 256 ∧ buf[255]? = some 0

/-- A text ends at the latest where a NUL is. -/
theorem takeWhile_length_le {buf : List UInt8} {place : Nat} (nul : buf[place]? = some 0) :
    (buf.takeWhile (· != 0)).length ≤ place := by
  induction buf generalizing place with
  | nil => simp at nul
  | cons c buf ih =>
    by_cases zero : c = 0
    · rw [List.takeWhile_cons_of_neg (by simp [zero])]
      exact Nat.zero_le _
    · cases place with
      | zero => exact absurd (Option.some.inj nul) zero
      | succ place =>
        rw [List.takeWhile_cons_of_pos (by simp [zero]), List.length_cons]
        exact Nat.succ_le_succ (ih nul)

/-- What is written in front of the last byte, or ends with it as a NUL, keeps the buffer ready. -/
theorem write_ready {buf : List UInt8} (ready : Ready buf) (start : Nat) (bytes : List UInt8)
    (fits : start + bytes.length ≤ 256)
    (ends : start + bytes.length = 256 → bytes.getLast? = some 0) :
    ∃ after, write buf start bytes = .ok after ∧ Ready after := by
  obtain ⟨size, last⟩ := ready
  have long : (buf.take start).length = start := by
    rw [List.length_take]
    omega
  unfold write
  rw [if_pos (by omega)]
  refine ⟨_, rfl, ?_, ?_⟩
  · simp only [List.length_append, List.length_drop, long]
    omega
  · by_cases full : start + bytes.length = 256
    · have some_ : bytes ≠ [] := by
        rintro rfl
        simpa using ends full
      have positive := List.length_pos_iff.mpr some_
      rw [List.getElem?_append_left (by rw [List.length_append]; omega),
        List.getElem?_append_right (by omega), long, ← ends full, List.getLast?_eq_getElem?]
      rw [show 255 - start = bytes.length - 1 by omega]
    · rw [List.getElem?_append_right (by rw [List.length_append]; omega), List.length_append, long,
        List.getElem?_drop, ← last]
      congr 1
      omega

/-- `strlen` stays inside the buffer. -/
theorem strlen_ready {buf : List UInt8} {start : Nat} (ready : Ready buf) (inside : start ≤ 255) :
    strlen buf start = .ok (textAt buf start).length := by
  obtain ⟨size, last⟩ := ready
  have nul : (buf.drop start)[255 - start]? = some 0 := by
    rw [List.getElem?_drop, show start + (255 - start) = 255 by omega, last]
  have bound : (textAt buf start).length ≤ 255 - start := takeWhile_length_le nul
  unfold strlen
  rw [if_pos (by omega)]

/-- The digits are as many as the places. -/
theorem digits_length (num base count todivby : Nat) :
    (digits num base count todivby).length = count := by
  induction count generalizing todivby with
  | zero => rfl
  | succ count ih => rw [digits, List.length_append, ih, List.length_singleton]

/-- A number routine stays inside the buffer. -/
theorem Style.print_ready (signedChar : Bool) (style : Style) (num : Nat) {start : Nat}
    {buf : List UInt8} (ready : Ready buf) (front : start ≤ 2) :
    ∃ after, style.print signedChar num buf start = .ok after ∧ Ready after := by
  have printed : ∃ middle, ntostr num buf start style.base = .ok middle ∧ Ready middle := by
    unfold ntostr
    by_cases invalid : style.base < 2 ∨ 16 < style.base
    · rw [if_pos invalid]
      exact ⟨buf, rfl, ready⟩
    · rw [if_neg invalid]
      have long : (digits num style.base 16 1 ++ [0]).length = 17 := by
        rw [List.length_append, digits_length, List.length_singleton]
      exact write_ready ready _ _ (by omega) (by omega)
  obtain ⟨middle, written, stillReady⟩ := printed
  unfold Style.print
  rw [written, ok_bind]
  cases style.letters with
  | none => exact ⟨middle, rfl, stillReady⟩
  | some upper =>
    simp only [shiftLetters]
    have twenty : ((middle.drop start).take 20).length ≤ 20 := List.length_take_le ..
    refine write_ready stillReady _ _ ?_ ?_ <;> rw [List.length_map] <;> omega

/-- A conversion of a number does not run out of the buffer. -/
theorem putNumber_ready (signedChar : Bool) (style : Style) {front : List UInt8}
    (number : Option Nat) {s : State} (ready : Ready s.intStrBuf) (short : front.length ≤ 2) :
    ∃ after, putNumber signedChar style front number s = .ok after ∧ Ready after.intStrBuf ∧
      after.parameters = s.parameters := by
  obtain ⟨first, written, stillReady⟩ :=
    write_ready ready 0 front (by omega) (by omega)
  unfold putNumber
  rw [written, ok_bind]
  cases number with
  | none =>
    simp only [pure_bind, strlen_ready stillReady (Nat.le_trans short (by decide)), ok_bind]
    exact ⟨_, rfl, stillReady, rfl⟩
  | some num =>
    obtain ⟨second, printed, ready⟩ :=
      Style.print_ready signedChar style num stillReady short
    simp only [printed, ok_bind, strlen_ready ready (Nat.le_trans short (by decide))]
    exact ⟨_, rfl, ready, rfl⟩

/-! ## Arguments -/

/-- A 32-bit argument is there, or the arguments do not match. -/
theorem nextWord_cases (parameters : List Arg) :
    nextWord parameters = .error .argument ∨
      ∃ bits rest, parameters = .word bits :: rest ∧ nextWord parameters = .ok (bits, rest) := by
  match parameters with
  | .word bits :: rest => exact .inr ⟨bits, rest, rfl, rfl⟩
  | .dword _ :: _ => exact .inl rfl
  | .string _ :: _ => exact .inl rfl
  | [] => exact .inl rfl

/-- A 64-bit argument is there, or the arguments do not match. -/
theorem nextDword_cases (parameters : List Arg) :
    nextDword parameters = .error .argument ∨
      ∃ bits rest, parameters = .dword bits :: rest ∧ nextDword parameters = .ok (bits, rest) := by
  match parameters with
  | .dword bits :: rest => exact .inr ⟨bits, rest, rfl, rfl⟩
  | .word _ :: _ => exact .inl rfl
  | .string _ :: _ => exact .inl rfl
  | [] => exact .inl rfl

/-- A string argument is there, or the arguments do not match. -/
theorem nextString_cases (parameters : List Arg) :
    nextString parameters = .error .argument ∨
      ∃ text rest, parameters = .string text :: rest ∧ nextString parameters = .ok (text, rest) := by
  match parameters with
  | .string text :: rest => exact .inr ⟨text, rest, rfl, rfl⟩
  | .word _ :: _ => exact .inl rfl
  | .dword _ :: _ => exact .inl rfl
  | [] => exact .inl rfl

/-- What stands in front of a number is short and has neither a NUL nor a blank. -/
def Front (front : List UInt8) : Prop := front.length ≤ 2 ∧ 0 ∉ front ∧ 0x20 ∉ front

/-- A sign can stand in front of a number. -/
theorem signOf_front (alwaysSigned : Bool) (num : Int) : Front (signOf alwaysSigned num) := by
  unfold signOf
  split
  · exact ⟨by decide, by decide, by decide⟩
  · split <;> exact ⟨by decide, by decide, by decide⟩

/-- A plus sign can stand in front of a number. -/
theorem plusOf_front (alwaysSigned : Bool) : Front (plusOf alwaysSigned) := by
  cases alwaysSigned <;> exact ⟨by decide, by decide, by decide⟩

/-- So can the sign of a signed number. -/
theorem signedOf_front (alwaysSigned : Bool) (bits : Nat) (num : Int) :
    Front (signedOf alwaysSigned bits num).1 := signOf_front alwaysSigned num

/-- So can the sign of an `intmax_t`. -/
theorem intmaxOf_front (alwaysSigned : Bool) (num : Int) :
    Front (intmaxOf alwaysSigned num).1 := signOf_front alwaysSigned num

/-- A 32-bit argument is taken, or the arguments do not match. -/
theorem wordCase_cases {β : Type} (result : UInt32 → β) (parameters : List Arg) :
    wordCase result parameters = .error .argument ∨
      ∃ bits rest, wordCase result parameters = .ok (some (result bits), rest) ∧
        rest <:+ parameters := by
  unfold wordCase
  rcases nextWord_cases parameters with missing | ⟨bits, rest, rfl, given⟩
  · rw [missing]
    exact .inl rfl
  · rw [given]
    exact .inr ⟨bits, rest, rfl, List.suffix_cons ..⟩

/-- A 64-bit argument is taken, or the arguments do not match. -/
theorem dwordCase_cases {β : Type} (result : UInt64 → β) (parameters : List Arg) :
    dwordCase result parameters = .error .argument ∨
      ∃ bits rest, dwordCase result parameters = .ok (some (result bits), rest) ∧
        rest <:+ parameters := by
  unfold dwordCase
  rcases nextDword_cases parameters with missing | ⟨bits, rest, rfl, given⟩
  · rw [missing]
    exact .inl rfl
  · rw [given]
    exact .inr ⟨bits, rest, rfl, List.suffix_cons ..⟩

/-- The argument of a signed conversion is taken, or the arguments do not match. -/
theorem signedNumber_cases (length : Length) (alwaysSigned : Bool) (parameters : List Arg) :
    signedNumber length alwaysSigned parameters = .error .argument ∨
      ∃ number rest, signedNumber length alwaysSigned parameters = .ok (number, rest) ∧
        Front ((number.map Prod.fst).getD []) ∧ rest <:+ parameters := by
  have word (result : UInt32 → List UInt8 × Nat) (front : ∀ arg, Front (result arg).1) :
      wordCase result parameters = .error .argument ∨
        ∃ number rest, wordCase result parameters = .ok (number, rest) ∧
          Front ((number.map Prod.fst).getD []) ∧ rest <:+ parameters := by
    rcases wordCase_cases result parameters with missing | ⟨bits, rest, taken, suffix⟩
    · exact .inl missing
    · exact .inr ⟨_, rest, taken, front bits, suffix⟩
  have dword (result : UInt64 → List UInt8 × Nat) (front : ∀ arg, Front (result arg).1) :
      dwordCase result parameters = .error .argument ∨
        ∃ number rest, dwordCase result parameters = .ok (number, rest) ∧
          Front ((number.map Prod.fst).getD []) ∧ rest <:+ parameters := by
    rcases dwordCase_cases result parameters with missing | ⟨bits, rest, taken, suffix⟩
    · exact .inl missing
    · exact .inr ⟨_, rest, taken, front bits, suffix⟩
  cases length with
  | char | short | int | long | ptrdiff =>
    rw [signedNumber]
    apply word
    intro arg
    exact signedOf_front ..
  | longLong =>
    rw [signedNumber]
    apply dword
    intro arg
    exact signedOf_front ..
  | size =>
    rw [signedNumber]
    apply word
    intro arg
    exact plusOf_front ..
  | intmax =>
    rw [signedNumber]
    apply dword
    intro arg
    exact intmaxOf_front ..
  | longDouble =>
    exact .inr ⟨none, parameters, rfl, ⟨Nat.zero_le _, List.not_mem_nil, List.not_mem_nil⟩,
      List.suffix_refl _⟩

/-- The argument of an unsigned conversion is taken, or the arguments do not match. -/
theorem unsignedNumber_cases (length : Length) (parameters : List Arg) :
    unsignedNumber length parameters = .error .argument ∨
      ∃ number rest, unsignedNumber length parameters = .ok (number, rest) ∧
        rest <:+ parameters := by
  have word (result : UInt32 → Nat) :
      wordCase result parameters = .error .argument ∨
        ∃ number rest, wordCase result parameters = .ok (number, rest) ∧ rest <:+ parameters := by
    rcases wordCase_cases result parameters with missing | ⟨bits, rest, taken, suffix⟩
    · exact .inl missing
    · exact .inr ⟨_, rest, taken, suffix⟩
  have dword (result : UInt64 → Nat) :
      dwordCase result parameters = .error .argument ∨
        ∃ number rest, dwordCase result parameters = .ok (number, rest) ∧ rest <:+ parameters := by
    rcases dwordCase_cases result parameters with missing | ⟨bits, rest, taken, suffix⟩
    · exact .inl missing
    · exact .inr ⟨_, rest, taken, suffix⟩
  cases length with
  | char | short | int | long | size | ptrdiff =>
    rw [unsignedNumber]
    apply word
  | longLong | intmax =>
    rw [unsignedNumber]
    apply dword
  | longDouble => exact .inr ⟨none, parameters, rfl, List.suffix_refl _⟩

/-- A case with a 32-bit argument has a number. -/
theorem wordCase_some {β : Type} (result : UInt32 → β) (parameters rest : List Arg) :
    wordCase result parameters ≠ .ok (none, rest) := by
  intro same
  rcases wordCase_cases result parameters with missing | ⟨bits, later, taken, -⟩
  · rw [missing] at same
    cases same
  · rw [taken] at same
    cases same

/-- A case with a 64-bit argument has a number. -/
theorem dwordCase_some {β : Type} (result : UInt64 → β) (parameters rest : List Arg) :
    dwordCase result parameters ≠ .ok (none, rest) := by
  intro same
  rcases dwordCase_cases result parameters with missing | ⟨bits, later, taken, -⟩
  · rw [missing] at same
    cases same
  · rw [taken] at same
    cases same

/-- Only a `long double` has no signed number. -/
theorem signedNumber_some {length : Length} (integer : length ≠ .longDouble) (alwaysSigned : Bool)
    (parameters rest : List Arg) :
    signedNumber length alwaysSigned parameters ≠ .ok (none, rest) := by
  cases length with
  | longDouble => exact absurd rfl integer
  | char | short | int | long | size | ptrdiff =>
    rw [signedNumber]
    apply wordCase_some
  | longLong | intmax =>
    rw [signedNumber]
    apply dwordCase_some

/-- Only a `long double` has no unsigned number. -/
theorem unsignedNumber_some {length : Length} (integer : length ≠ .longDouble)
    (parameters rest : List Arg) : unsignedNumber length parameters ≠ .ok (none, rest) := by
  cases length with
  | longDouble => exact absurd rfl integer
  | char | short | int | long | size | ptrdiff =>
    rw [unsignedNumber]
    apply wordCase_some
  | longLong | intmax =>
    rw [unsignedNumber]
    apply dwordCase_some

/-- Only a `long double` has no number. -/
theorem unsignedNumber_none_iff {length : Length} {parameters rest : List Arg}
    {number : Option Nat} (taken : unsignedNumber length parameters = .ok (number, rest)) :
    number = none ↔ length = .longDouble := by
  constructor
  · rintro rfl
    by_contra integer
    exact unsignedNumber_some integer _ _ taken
  · rintro rfl
    cases taken
    rfl

/-- The same for a signed one. -/
theorem signedNumber_none_iff {length : Length} {alwaysSigned : Bool} {parameters rest : List Arg}
    {number : Option (List UInt8 × Nat)}
    (taken : signedNumber length alwaysSigned parameters = .ok (number, rest)) :
    number.map Prod.snd = none ↔ length = .longDouble := by
  rw [Option.map_eq_none_iff]
  constructor
  · rintro rfl
    by_contra integer
    exact signedNumber_some integer _ _ _ taken
  · rintro rfl
    cases taken
    rfl

/-- A base that the number routines accept. -/
def Style.Valid (style : Style) : Prop := 2 ≤ style.base ∧ style.base ≤ 16

/-- Decimal digits. -/
theorem decimal_valid : Style.Valid ⟨10, none⟩ := ⟨by decide, by decide⟩

/-- A prefix can stand in front of a number. -/
theorem alt_front (altForm : Bool) {alt : List UInt8} (front : Front alt) :
    Front (if altForm then alt else []) := by
  cases altForm with
  | true => exact front
  | false => exact ⟨Nat.zero_le _, List.not_mem_nil, List.not_mem_nil⟩

/-- The other prefix can stand in front of a pointer. -/
theorem pointer_front (altForm : Bool) :
    Front (if altForm then [] else [0x30, 0x78]) := by
  cases altForm <;> exact ⟨by decide, by decide, by decide⟩

/-- The prefixes and number routines of the unsigned conversions. -/
theorem unsignedStyle_valid (length : Length) (spec : Specifier) :
    Front (unsignedStyle length spec).1 ∧ (unsignedStyle length spec).2.Valid := by
  have front : Front (unsignedStyle .int spec).1 := by
    cases spec <;> exact ⟨by decide, by decide, by decide⟩
  have valid : (unsignedStyle .int spec).2.Valid := by
    cases spec <;> exact ⟨by decide, by decide⟩
  -- the length modifier only decides about upper case
  cases spec <;> exact ⟨front, valid⟩

/-! ## Conversions -/

/-- A string argument that does not fit in the buffer. -/
def LongString (parameters : List Arg) : Prop :=
  ∃ text : CString, .string text ∈ parameters ∧ 255 < text.chars.length

/-- A step over a conversion leaves the buffer ready and only takes arguments away, unless the
arguments do not match or a string is too long. -/
inductive Steps (s : State) : Except Fault State → Prop
  /-- The arguments do not match. -/
  | mismatch : Steps s (.error .argument)
  /-- A string is too long. -/
  | long (found : LongString s.parameters) : Steps s (.error .bufferWrite)
  /-- The conversion is in the buffer. -/
  | done (after : State) (ready : Ready after.intStrBuf) (rest : after.parameters <:+ s.parameters) :
    Steps s (.ok after)

/-- A conversion of a number takes its argument and stays inside the buffer. -/
theorem Steps.number (signedChar : Bool) (style : Style) {front : List UInt8}
    (number : Option Nat) {s : State} {parameters : List Arg} (ready : Ready s.intStrBuf)
    (short : front.length ≤ 2) (rest : parameters <:+ s.parameters) :
    Steps s (putNumber signedChar style front number { s with parameters }) := by
  have same : Ready { s with parameters }.intStrBuf := ready
  obtain ⟨after, put, stillReady, same⟩ := putNumber_ready signedChar style number same short
  rw [put]
  exact .done after stillReady (same ▸ rest)

/-- What a conversion of an integer gives to a number routine. -/
structure Routine (flags : Flags) (spec : Specifier) (s : State) (style : Style)
    (front : List UInt8) (number : Option Nat) (rest : List Arg) : Prop where
  /-- It is a conversion of a number. -/
  isNumber : spec.isNumber
  /-- A pointer is none of these. -/
  noPointer : spec ≠ .pointer
  /-- The routine accepts the base. -/
  valid : style.Valid
  /-- It can stand in front of a number. -/
  standing : Front front
  /-- Only a `long double` has no number. -/
  kind : number = none ↔ s.length = .longDouble
  /-- Without a number there is a prefix at most. -/
  left : number = none → front = if flags.altForm then (unsignedStyle s.length spec).1 else []
  /-- Arguments are taken away. -/
  suffix : rest <:+ s.parameters

/-- An unsigned number in the base of its specifier. -/
theorem Routine.unsigned {flags : Flags} {spec : Specifier} {s : State} {number : Option Nat}
    {rest : List Arg} (isNumber : spec.isNumber) (noPointer : spec ≠ .pointer)
    (taken : unsignedNumber s.length s.parameters = .ok (number, rest))
    (suffix : rest <:+ s.parameters) :
    Routine flags spec s (unsignedStyle s.length spec).2
      (if flags.altForm then (unsignedStyle s.length spec).1 else []) number rest := by
  obtain ⟨front, valid⟩ := unsignedStyle_valid s.length spec
  exact ⟨isNumber, noPointer, valid, alt_front flags.altForm front,
    unsignedNumber_none_iff taken, fun _ => rfl, suffix⟩

/-- What the large `switch` does. -/
inductive Converts (signedChar : Bool) (flags : Flags) (s : State) (outcome : Except Fault State) :
    Specifier → Prop
  /-- The arguments do not match. -/
  | mismatch {spec : Specifier} (same : outcome = .error .argument) :
    Converts signedChar flags s outcome spec
  /-- A character is written to the buffer. -/
  | character (bits : UInt32) (rest : List Arg) (given : s.parameters = .word bits :: rest)
    (same : outcome = (write s.intStrBuf 0 [bits.toUInt8] >>= fun buf =>
      .ok { s with parameters := rest, intStrBuf := buf })) :
    Converts signedChar flags s outcome .character
  /-- A string is. -/
  | string (text : CString) (rest : List Arg) (given : s.parameters = .string text :: rest)
    (same : outcome = (write s.intStrBuf 0 (text.chars ++ [0]) >>= fun buf =>
      .ok { s with parameters := rest, intStrBuf := buf })) :
    Converts signedChar flags s outcome .string
  /-- A pointer is printed. -/
  | pointer (bits : UInt32) (rest : List Arg) (given : s.parameters = .word bits :: rest)
    (same : outcome = putNumber signedChar ⟨16, some false⟩
      (if flags.altForm then [] else [0x30, 0x78]) (some bits.toNat)
      { s with parameters := rest }) :
    Converts signedChar flags s outcome .pointer
  /-- A number is, if there is one. -/
  | number {spec : Specifier} (style : Style) (front : List UInt8) (number : Option Nat)
    (rest : List Arg) (printed : Routine flags spec s style front number rest)
    (same : outcome = putNumber signedChar style front number { s with parameters := rest }) :
    Converts signedChar flags s outcome spec

/-- The cases of the large `switch`. -/
theorem convert_cases (signedChar : Bool) (flags : Flags) (spec : Specifier) (s : State) :
    Converts signedChar flags s (convert signedChar flags spec s) spec := by
  cases spec with
  | character =>
    rcases nextWord_cases s.parameters with missing | ⟨bits, rest, given, taken⟩
    · exact .mismatch (by rw [convert, missing]; rfl)
    · exact .character bits rest given (by rw [convert, taken]; rfl)
  | string =>
    rcases nextString_cases s.parameters with missing | ⟨text, rest, given, taken⟩
    · exact .mismatch (by rw [convert, missing]; rfl)
    · exact .string text rest given (by rw [convert, taken]; rfl)
  | pointer =>
    rcases nextWord_cases s.parameters with missing | ⟨bits, rest, given, taken⟩
    · exact .mismatch (by rw [convert, missing]; rfl)
    · exact .pointer bits rest given (by rw [convert, taken]; rfl)
  | signed =>
    rcases signedNumber_cases s.length flags.alwaysSigned s.parameters with
      missing | ⟨number, rest, taken, front, suffix⟩
    · exact .mismatch (by rw [convert, missing]; rfl)
    · apply Converts.number ⟨10, none⟩ _ _ rest _ (by rw [convert, taken]; rfl)
      refine ⟨rfl, by decide, decimal_valid, front, signedNumber_none_iff taken, ?_, suffix⟩
      intro none
      rw [Option.map_eq_none_iff.mp none]
      exact (ite_self _).symm
  | unsigned =>
    rcases unsignedNumber_cases s.length s.parameters with missing | ⟨number, rest, taken, suffix⟩
    · exact .mismatch (by rw [convert, missing]; rfl)
    · apply Converts.number ⟨10, none⟩ _ number rest _ (by rw [convert, taken]; rfl)
      have front : Front (if number.isSome then plusOf flags.alwaysSigned else []) :=
        alt_front number.isSome (plusOf_front flags.alwaysSigned)
      refine ⟨rfl, by decide, decimal_valid, front, unsignedNumber_none_iff taken, ?_, suffix⟩
      rintro rfl
      exact (ite_self _).symm
  | octal | hex | upperHex | binary =>
    rcases unsignedNumber_cases s.length s.parameters with missing | ⟨number, rest, taken, suffix⟩
    · exact .mismatch (by rw [convert, missing]; rfl)
    · refine .number _ _ number rest (.unsigned ?_ ?_ taken suffix) ?_
      · rfl
      · decide
      · rw [convert, taken]
        rfl

/-- A string is too long for the buffer, or it is written to the front of it. -/
theorem write_string {buf : List UInt8} (ready : Ready buf) (text : CString) :
    (write buf 0 (text.chars ++ [0]) = .error .bufferWrite ∧ 255 < text.chars.length) ∨
      ∃ after, write buf 0 (text.chars ++ [0]) = .ok after ∧ Ready after := by
  by_cases fits : text.chars.length ≤ 255
  · have long : 0 + (text.chars ++ [0]).length ≤ 256 := by
      rw [List.length_append, List.length_singleton]
      omega
    exact .inr (write_ready ready 0 (text.chars ++ [0]) long (by simp))
  · have beyond : ¬0 + (text.chars ++ [0]).length ≤ buf.length := by
      rw [ready.1, List.length_append, List.length_singleton]
      omega
    refine .inl ⟨?_, Nat.lt_of_not_le fits⟩
    unfold write
    rw [if_neg beyond]

/-- A conversion only goes wrong with its arguments or a long string. -/
theorem convert_steps (signedChar : Bool) (flags : Flags) (spec : Specifier) {s : State}
    (ready : Ready s.intStrBuf) : Steps s (convert signedChar flags spec s) := by
  cases convert_cases signedChar flags spec s with
  | mismatch same =>
    rw [same]
    exact .mismatch
  | character bits rest given same =>
    obtain ⟨after, written, stillReady⟩ := write_ready ready 0 [bits.toUInt8] (by simp) (by simp)
    rw [same, written, ok_bind]
    exact .done _ stillReady (given ▸ List.suffix_cons ..)
  | string text rest given same =>
    rw [same]
    rcases write_string ready text with ⟨beyond, long⟩ | ⟨after, written, stillReady⟩
    · rw [beyond, error_bind]
      exact .long ⟨text, given ▸ List.mem_cons_self .., long⟩
    · rw [written, ok_bind]
      exact .done _ stillReady (given ▸ List.suffix_cons ..)
  | pointer bits rest given same =>
    rw [same]
    have suffix : rest <:+ s.parameters := by
      rw [given]
      exact List.suffix_cons ..
    exact .number signedChar _ _ ready (pointer_front flags.altForm).1 suffix
  | number style front number rest printed same =>
    rw [same]
    exact .number signedChar style number ready printed.standing.1 printed.suffix

/-- The output does not run out of the buffer. -/
theorem finish_ready (maxrem : Int) {s : State} (ready : Ready s.intStrBuf) :
    ∃ after fits, finish maxrem s = .ok (after, fits) ∧ after.intStrBuf = s.intStrBuf ∧
      after.parameters = s.parameters := by
  have text := strlen_ready ready (Nat.zero_le 255)
  unfold finish
  simp only [text, ok_bind]
  split
  · exact ⟨_, _, rfl, rfl, rfl⟩
  · exact ⟨_, _, rfl, rfl, rfl⟩

/-! ## Passes through the loop -/

/-- A pass goes on behind the place where it began and inside the format, unless `vprintf` returns
in it, the arguments do not match or a string is too long. -/
inductive Passes (format : CString) (pos : Nat) (s : State) : Except Fault Pass → Prop
  /-- The arguments do not match. -/
  | mismatch : Passes format pos s (.error .argument)
  /-- A string is too long. -/
  | long (found : LongString s.parameters) : Passes format pos s (.error .bufferWrite)
  /-- `vprintf` returns `-1`. -/
  | failed (after : State) : Passes format pos s (.ok (.failed after))
  /-- The loop goes on. -/
  | next (behind : Nat) (after : State) (advances : pos < behind)
    (inside : behind ≤ format.chars.length) (ready : Ready after.intStrBuf)
    (rest : after.parameters <:+ s.parameters) : Passes format pos s (.ok (.next behind after))

/-- What comes earlier advances as well. -/
theorem Passes.earlier {pos later : Nat} {s : State} {outcome : Except Fault Pass}
    (passes : Passes format later s outcome) (before : pos ≤ later) :
    Passes format pos s outcome := by
  cases passes with
  | mismatch => exact .mismatch
  | long found => exact .long found
  | failed after => exact .failed after
  | next behind after advances inside ready rest =>
    exact .next behind after (Nat.lt_of_le_of_lt before advances) inside ready rest

/-- Text is passed by. -/
theorem passText_passes {pos : Nat} {s : State} (ready : Ready s.intStrBuf)
    (inside : pos < format.chars.length) : Passes format pos s (passText format pos s) := by
  have first : pos + 1 ≤ format.chars.length := inside
  have enough : format.chars.length < format.chars.length + 1 + (pos + 1) := by omega
  obtain ⟨count, counted, least, most⟩ := countText_spec first enough
  obtain ⟨text, read⟩ := readText_spec most
  unfold passText
  rw [counted, ok_bind]
  split
  · exact .failed s
  · rw [read, ok_bind]
    exact .next _ _ (by omega) most ready (List.suffix_refl _)

/-- Only the NUL is no specifier and at the end. -/
theorem specifier_nonzero {c : UInt8} {spec : Specifier} (found : specifier c = some spec) :
    c ≠ 0 := by
  rintro rfl
  cases found

/-- A conversion is passed by, and an unsupported one at least by its `%`. -/
theorem passConversion_passes (signedChar : Bool) {pos : Nat} {s : State}
    (ready : Ready s.intStrBuf) (inside : pos < format.chars.length)
    (percent : charAt format pos = .ok 0x25) :
    Passes format pos s (passConversion signedChar format pos s) := by
  have enough (pos : Nat) : format.chars.length < format.chars.length + 1 + pos := by omega
  obtain ⟨flagsEnd, flags, gotFlags, afterFlags, flagsInside⟩ :=
    getFlags_spec ⟨false, false⟩ inside (enough pos)
  obtain ⟨widthEnd, minWidth, gotWidth, afterWidth, widthInside⟩ :=
    getWidth_spec s.minWidth flagsInside (enough flagsEnd)
  obtain ⟨lengthEnd, length, gotLength, afterLength, lengthInside⟩ :=
    getLength_spec s.length widthInside
  have last : lengthEnd + 1 ≤ format.chars.length := lengthInside
  obtain ⟨c, read, -⟩ := charAt_inside last
  unfold passConversion
  simp only [gotFlags, ok_bind, gotWidth, gotLength, read]
  cases case : specifier c with
  | none =>
    obtain ⟨back, rewound, least, here, -⟩ := rewind_spec percent (by omega) last
    have more : back < format.chars.length := charAt_visible here (by decide)
    simp only [rewound, ok_bind]
    exact .next _ _ (by omega) more ready (List.suffix_refl _)
  | some spec =>
    have more := charAt_visible read (specifier_nonzero case)
    have same : Ready { s with minWidth, length }.intStrBuf := ready
    have steps := convert_steps signedChar flags spec same
    dsimp only
    revert steps
    generalize convert signedChar flags spec { s with minWidth, length } = outcome
    intro steps
    cases steps with
    | mismatch => exact .mismatch
    | long found => exact .long found
    | done after stillReady rest =>
      obtain ⟨final, fits, finished, buffer, parameters⟩ :=
        finish_ready ((intMax : Int) - s.written) stillReady
      rw [ok_bind, finished, ok_bind]
      cases fits with
      | false => exact .failed _
      | true => exact .next _ _ (by omega) more (buffer ▸ stillReady) (parameters ▸ rest)

/-- Each pass through the loop goes on behind the place where it began. -/
theorem pass_passes (signedChar : Bool) {pos : Nat} {s : State} (ready : Ready s.intStrBuf)
    (inside : pos < format.chars.length) :
    Passes format pos s (pass signedChar format pos s) := by
  have following : pos + 1 ≤ format.chars.length := inside
  obtain ⟨c, read, -⟩ := charAt_inside (Nat.le_of_lt inside)
  obtain ⟨d, second, -⟩ := charAt_inside following
  unfold pass
  rw [read, ok_bind]
  by_cases text : c ≠ 0x25
  · rw [if_pos text]
    exact passText_passes ready inside
  · have percent : c = 0x25 := not_not.mp text
    rw [if_neg text, second, ok_bind]
    by_cases doubled : d = 0x25
    · have more : pos + 1 < format.chars.length := charAt_visible second (doubled ▸ by decide)
      rw [if_pos doubled]
      exact (passText_passes ready more).earlier (Nat.le_succ pos)
    · rw [if_neg doubled]
      exact passConversion_passes signedChar ready inside (percent ▸ read)

/-! ## The loop -/

/-- The arguments do not match, a string is too long, or `vprintf` returns. -/
inductive Ends (parameters : List Arg) {α : Type} : Except Fault α → Prop
  /-- The arguments do not match. -/
  | mismatch : Ends parameters (.error .argument)
  /-- A string is too long. -/
  | long (found : LongString parameters) : Ends parameters (.error .bufferWrite)
  /-- There is a result. -/
  | returned (result : α) : Ends parameters (.ok result)

/-- A result with earlier arguments is one with all of them. -/
theorem Ends.all {later parameters : List Arg} {α : Type} {outcome : Except Fault α}
    (ends : Ends later outcome) (rest : later <:+ parameters) : Ends parameters outcome := by
  cases ends with
  | mismatch => exact .mismatch
  | long found =>
    obtain ⟨text, given, tooLong⟩ := found
    exact .long ⟨text, rest.subset given, tooLong⟩
  | returned result => exact .returned result

/-- The passes come to an end. -/
theorem passes_ends (signedChar : Bool) {fuel pos : Nat} {s : State} (ready : Ready s.intStrBuf)
    (inside : pos ≤ format.chars.length) (enough : format.chars.length < fuel + pos) :
    Ends s.parameters (passes signedChar format fuel pos s) := by
  induction fuel generalizing pos s with
  | zero => omega
  | succ fuel ih =>
    obtain ⟨c, read, before, -⟩ := charAt_inside inside
    rw [passes, read, ok_bind]
    by_cases nul : c = 0
    · rw [if_pos nul]
      exact .returned _
    · rw [if_neg nul]
      have step := pass_passes signedChar ready (before nul)
      revert step
      generalize pass signedChar format pos s = outcome
      intro step
      cases step with
      | mismatch => exact .mismatch
      | long found => exact .long found
      | failed after => exact .returned _
      | next behind after advances within ready rest =>
        exact (ih ready within (by omega)).all rest

/-- The variables before the loop are ready. -/
theorem start_ready (parameters : List Arg) : Ready (start parameters).intStrBuf :=
  ⟨List.length_replicate, List.getElem?_replicate_of_lt (by decide)⟩

/-- `vprintf` never reads outside its format and always ends: with arguments that match and strings
that fit in its buffer it returns. Each pass through its loop, from any place in the format and
with any values of its variables, reads the format up to the NUL at most, and goes on behind the
place where it began; and from behind a `%` the way back never leads in front of it. -/
theorem vprintf_inside (signedChar : Bool) (format : CString) :
    (∀ parameters, Ends parameters (vprintf signedChar format parameters)) ∧
    (∀ pos < format.chars.length, ∀ s, Ready s.intStrBuf →
      Passes format pos s (pass signedChar format pos s)) ∧
    ∀ percent pos, charAt format percent = .ok 0x25 → percent ≤ pos → pos ≤ format.chars.length →
      ∃ back, rewind format pos = .ok back ∧ percent ≤ back ∧ back ≤ pos := by
  refine ⟨fun parameters => ?_, fun pos inside s ready => pass_passes signedChar ready inside, ?_⟩
  · have enough : format.chars.length < format.chars.length + 1 + 0 := Nat.lt_succ_self _
    have ends := passes_ends signedChar (start_ready parameters) (Nat.zero_le _) enough
    unfold vprintf
    revert ends
    generalize passes signedChar format (format.chars.length + 1) 0 (start parameters) = outcome
    intro ends
    cases ends with
    | mismatch => exact .mismatch
    | long found => exact .long found
    | returned result => exact .returned _
  · intro percent pos found behind inside
    obtain ⟨back, rewound, least, -, most⟩ := rewind_spec found behind inside
    exact ⟨back, rewound, least, most⟩

end FelineOS.Printf
