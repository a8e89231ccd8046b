import FelineOS.Spec.Strtoul
import FelineOS.Verif.Strncmp
import Mathlib.Data.List.TakeWhile

/-!
# Which strings are converted

None is. `strncmp` returns zero for equal characters, so that `strtoul` always steps over a
character for the sign and over those of a prefix, and its loop never steps over a digit: it comes
back with no digits, with a range error for a digit that is not zero, or not at all. No digits is
what the standard asks for as well if there are none.
-/

namespace FelineOS.Strtoul

variable {signedChar : Bool} {chars : List UInt8}

/-! ## Characters -/

/-- White space is no digit. -/
theorem digitToNum_space {c : UInt8} (space : isspace c) : digitToNum c = 36 := by
  unfold isspace at space
  split at space <;> first | rfl | cases space

/-- A character that is a digit of some base is no white space, no sign and no NUL. -/
theorem other_of_digit {c : UInt8} (digit : digitToNum c < 36) :
    ¬isspace c ∧ c ≠ 0x2B ∧ c ≠ 0x2D ∧ c ≠ 0 := by
  refine ⟨?_, ?_, ?_, ?_⟩
  · intro space
    rw [digitToNum_space space] at digit
    exact absurd digit (by decide)
  · rintro rfl
    exact absurd digit (by decide)
  · rintro rfl
    exact absurd digit (by decide)
  · rintro rfl
    exact absurd digit (by decide)

/-! ## Signs and prefixes -/

/-- Nothing is behind what is behind the array. -/
theorem getElem?_behind {i j : Nat} (behind : chars[i]? = none) (more : i ≤ j) :
    chars[j]? = none :=
  List.getElem?_eq_none (Nat.le_trans (List.getElem?_eq_none_iff.mp behind) more)

/-- A string that starts with another character than a literal is different from it. -/
theorem compare_ne (signedChar : Bool) {nptr : Nat} {c x : UInt8}
    (there : chars[nptr]? = some c) (different : c ≠ x) (literal : List UInt8) (size : Nat) : ∃ order,
      compare signedChar chars nptr (x :: literal) (size + 1) = .ok order ∧ order ≠ 0 :=
  strncmp_ne signedChar _ _ size 0 (read_some there) rfl different

/-- A read behind the array is the first one. -/
theorem compare_behind {nptr : Nat} (behind : chars[nptr]? = none) (literal : List UInt8)
    (size : Nat) : compare signedChar chars nptr literal (size + 1) = .error .undefined := by
  have missing : read chars (nptr + 0) = .error .undefined := read_none behind
  rw [compare, strncmp, missing]
  rfl

/-- Whatever character is there, it is stepped over. -/
theorem skipSign_spec (signedChar : Bool) {nptr : Nat} {c : UInt8} (there : chars[nptr]? = some c) :
    ∃ negative, skipSign signedChar chars nptr = .ok (negative, nptr + 1) := by
  unfold skipSign
  by_cases minus : c = 0x2D
  · have different : c ≠ 0x2B := by
      rw [minus]
      decide
    have same : compare signedChar chars nptr [0x2D] 1 = .ok 0 :=
      strncmp_eq 0 0 (read_some (minus ▸ there)) rfl
    obtain ⟨order, compared, other⟩ := compare_ne signedChar there different [] 0
    rw [same, ok_bind, if_neg (by decide), compared, ok_bind, if_pos other]
    exact ⟨_, rfl⟩
  · obtain ⟨order, compared, other⟩ := compare_ne signedChar there minus [] 0
    rw [compared, ok_bind, if_pos other]
    exact ⟨_, rfl⟩

/-- One of the two spellings of a prefix is always different. -/
theorem eitherDiffers_spec {x y : UInt8} (different : x ≠ y) (nptr : Nat) :
    eitherDiffers signedChar chars [0x30, x] [0x30, y] nptr = .ok true ∨
      (eitherDiffers signedChar chars [0x30, x] [0x30, y] nptr = .error .undefined ∧
        chars[nptr + 1]? = none) := by
  unfold eitherDiffers
  cases first : chars[nptr]? with
  | none =>
    rw [compare_behind first]
    exact .inr ⟨rfl, getElem?_behind first (Nat.le_succ _)⟩
  | some c =>
    by_cases zero : c = 0x30
    · subst zero
      have left : compare signedChar chars nptr [0x30, x] 2 =
          strncmp signedChar (fun i => read chars (nptr + i)) (read [0x30, x, 0]) 1 1 :=
        strncmp_eq 1 0 (read_some first) rfl
      have right : compareTo signedChar chars [0x30, y] nptr 2 =
          strncmp signedChar (read [0x30, y, 0]) (fun i => read chars (nptr + i)) 1 1 :=
        strncmp_eq 1 0 rfl (read_some first)
      rw [left]
      cases second : chars[nptr + 1]? with
      | none =>
        rw [strncmp, read_none second]
        exact .inr ⟨rfl, rfl⟩
      | some d =>
        by_cases lower : d = x
        · subst lower
          have equal : strncmp signedChar (fun i => read chars (nptr + i)) (read [0x30, d, 0]) 1 1 =
              .ok 0 := strncmp_eq 0 1 (read_some second) rfl
          obtain ⟨order, compared, other⟩ := strncmp_ne signedChar (read [0x30, y, 0])
            (fun i => read chars (nptr + i)) 0 1 rfl (read_some second) (Ne.symm different)
          rw [equal, ok_bind, if_neg (by decide), right, compared, ok_bind]
          exact .inl (congrArg Except.ok (decide_eq_true other))
        · obtain ⟨order, compared, other⟩ := strncmp_ne signedChar
            (fun i => read chars (nptr + i)) (read [0x30, x, 0]) 0 1 (read_some second) rfl lower
          rw [compared, ok_bind, if_pos other]
          exact .inl rfl
    · obtain ⟨order, compared, other⟩ := compare_ne signedChar first zero [x] 1
      rw [compared, ok_bind, if_pos other]
      exact .inl rfl

/-- Without a base for it no hexadecimal prefix is looked for. -/
theorem skipHexadecimal_other {nptr base : Nat} (other : base ≠ 16 ∧ base ≠ 0) :
    skipHexadecimal signedChar chars nptr base = .ok (nptr, base) := by
  unfold skipHexadecimal
  rw [if_neg (by rw [not_or]; exact other)]

/-- Nor a binary one. -/
theorem skipBinary_other {nptr base : Nat} (other : base ≠ 2 ∧ base ≠ 0) :
    skipBinary signedChar chars nptr base = .ok (nptr, base) := by
  unfold skipBinary
  rw [if_neg (by rw [not_or]; exact other)]

/-- Nor an octal one. -/
theorem skipOctal_other {nptr base : Nat} (other : base ≠ 8 ∧ base ≠ 0) :
    skipOctal signedChar chars nptr base = .ok (nptr, base) := by
  unfold skipOctal
  rw [if_neg (by rw [not_or]; exact other)]

/-- A hexadecimal prefix is stepped over whether it is there or not. -/
theorem skipHexadecimal_spec {base : Nat} (allowed : base = 16 ∨ base = 0) (nptr : Nat) :
    skipHexadecimal signedChar chars nptr base = .ok (nptr + 2, 16) ∨
      (skipHexadecimal signedChar chars nptr base = .error .undefined ∧
        chars[nptr + 1]? = none) := by
  unfold skipHexadecimal
  have letters : (0x78 : UInt8) ≠ 0x58 := by decide
  rw [if_pos allowed]
  rcases eitherDiffers_spec letters nptr with differs | ⟨reads, behind⟩
  · rw [differs]
    exact .inl rfl
  · rw [reads]
    exact .inr ⟨rfl, behind⟩

/-- So is a binary one. -/
theorem skipBinary_spec (nptr : Nat) :
    skipBinary signedChar chars nptr 2 = .ok (nptr + 2, 2) ∨
      (skipBinary signedChar chars nptr 2 = .error .undefined ∧ chars[nptr + 1]? = none) := by
  unfold skipBinary
  have letters : (0x62 : UInt8) ≠ 0x42 := by decide
  rw [if_pos (.inl rfl)]
  rcases eitherDiffers_spec letters nptr with differs | ⟨reads, behind⟩
  · rw [differs]
    exact .inl rfl
  · rw [reads]
    exact .inr ⟨rfl, behind⟩

/-- An octal one is stepped over if it is not there. -/
theorem skipOctal_spec (nptr : Nat) :
    skipOctal signedChar chars nptr 8 =
        .ok (if chars[nptr]? ≠ some 0x30 then nptr + 1 else nptr, 8) ∨
      (skipOctal signedChar chars nptr 8 = .error .undefined ∧ chars[nptr]? = none) := by
  unfold skipOctal
  rw [if_pos (.inl rfl)]
  cases first : chars[nptr]? with
  | none =>
    rw [compare_behind first]
    exact .inr ⟨rfl, rfl⟩
  | some c =>
    by_cases zero : c = 0x30
    · subst zero
      have same : compare signedChar chars nptr [0x30] 1 = .ok 0 :=
        strncmp_eq 0 0 (read_some first) rfl
      rw [same, ok_bind, if_neg (by decide), if_neg (by decide)]
      exact .inl rfl
    · have other : some c ≠ some 0x30 := fun same => zero (Option.some.inj same)
      obtain ⟨order, compared, differs⟩ := compare_ne signedChar first zero [] 0
      rw [compared, ok_bind, if_pos differs, if_pos other]
      exact .inl rfl

/-- How far the pointer moves for a prefix. -/
def step (base : Nat) (next : Option UInt8) : Nat :=
  if base = 0 ∨ base = 16 ∨ base = 2 then 2 else if base = 8 ∧ next ≠ some 0x30 then 1 else 0

/-- One prefix after the other. -/
theorem skipPrefix_eq (nptr base : Nat) : skipPrefix signedChar chars nptr base =
    (skipHexadecimal signedChar chars nptr base >>= fun first =>
      skipBinary signedChar chars first.1 first.2 >>= fun second =>
        skipOctal signedChar chars second.1 second.2) := rfl

/-- The pointer moves so far, unless that is behind the array already. -/
theorem skipPrefix_spec (signedChar : Bool) (chars : List UInt8) (nptr base : Nat) :
    skipPrefix signedChar chars nptr base =
        .ok (nptr + step base chars[nptr]?, if base = 0 then 16 else base) ∨
      (skipPrefix signedChar chars nptr base = .error .undefined ∧
        chars[nptr + step base chars[nptr]?]? = none) := by
  have noBinary : 16 ≠ 2 ∧ 16 ≠ 0 := by decide
  have noOctal : 16 ≠ 8 ∧ 16 ≠ 0 := by decide
  have noOctal' : 2 ≠ 8 ∧ 2 ≠ 0 := by decide
  rw [skipPrefix_eq]
  unfold step
  by_cases hexadecimal : base = 16 ∨ base = 0
  · have wide : base = 0 ∨ base = 16 ∨ base = 2 := by omega
    have becomes : (if base = 0 then 16 else base) = 16 := by
      rcases hexadecimal with rfl | rfl <;> rfl
    rw [if_pos wide, becomes]
    rcases skipHexadecimal_spec hexadecimal nptr with skipped | ⟨reads, behind⟩
    · rw [skipped, ok_bind, skipBinary_other noBinary, ok_bind, skipOctal_other noOctal]
      exact .inl rfl
    · rw [reads]
      exact .inr ⟨rfl, getElem?_behind behind (Nat.le_succ _)⟩
  · rw [not_or] at hexadecimal
    rw [skipHexadecimal_other hexadecimal, ok_bind, if_neg hexadecimal.2]
    dsimp only
    by_cases binary : base = 2
    · subst binary
      rw [if_pos (by decide)]
      rcases skipBinary_spec nptr with skipped | ⟨reads, behind⟩
      · rw [skipped, ok_bind, skipOctal_other noOctal']
        exact .inl rfl
      · rw [reads]
        exact .inr ⟨rfl, getElem?_behind behind (Nat.le_succ _)⟩
    · rw [skipBinary_other ⟨binary, hexadecimal.2⟩, ok_bind, if_neg (by omega)]
      dsimp only
      by_cases octal : base = 8
      · subst octal
        rcases skipOctal_spec nptr with skipped | ⟨reads, behind⟩
        · rw [skipped]
          by_cases zero : chars[nptr]? ≠ some 0x30
          · rw [if_pos zero, if_pos ⟨rfl, zero⟩]
            exact .inl rfl
          · rw [if_neg zero, if_neg fun both => zero both.2]
            exact .inl rfl
        · rw [reads]
          exact .inr ⟨rfl, getElem?_behind behind (Nat.le_add_right _ _)⟩
      · rw [skipOctal_other ⟨octal, hexadecimal.2⟩, if_neg (fun both => octal both.1)]
        exact .inl rfl

/-! ## The loop over the digits -/

/-- What is no digit ends the loop. -/
theorem convert_other {base nptr : Nat} {c : UInt8} (there : chars[nptr]? = some c)
    (other : base ≤ digitToNum c) (fuel result : Nat) :
    convert chars base (fuel + 1) nptr result = .ok (some (nptr, result)) := by
  rw [convert, read_some there, ok_bind, if_neg (Nat.not_lt_of_le other)]

/-- A digit is read again and again, until the value overflows if it ever does. -/
theorem convert_digit {base nptr : Nat} {c : UInt8} (there : chars[nptr]? = some c)
    (digit : digitToNum c < base) (fuel result : Nat) :
    convert chars base fuel nptr result = .error .divergence ∨
      convert chars base fuel nptr result = .ok none := by
  induction fuel generalizing result with
  | zero => exact .inl rfl
  | succ fuel ih =>
    rw [convert, read_some there, ok_bind, if_pos digit]
    by_cases product : wordLimit ≤ result * base
    · rw [if_pos product]
      exact .inr rfl
    · rw [if_neg product]
      by_cases sum : wordLimit ≤ result * base + digitToNum c
      · rw [if_pos sum]
        exact .inr rfl
      · rw [if_neg sum]
        exact ih _

/-- A pointer behind the array is not one to a digit. -/
theorem convert_behind {base nptr : Nat} (behind : chars[nptr]? = none) (fuel result : Nat) :
    ∃ fault, convert chars base fuel nptr result = .error fault := by
  cases fuel with
  | zero => exact ⟨_, rfl⟩
  | succ fuel =>
    rw [convert, read_none behind]
    exact ⟨_, rfl⟩

/-! ## The whole call -/

/-- White space is stepped over up to the first other character. -/
theorem skipSpaces_spec (chars : List UInt8) (nptr : Nat) :
    skipSpaces chars nptr = if behindSpaces chars = [] then .error .undefined
      else .ok (nptr + (chars.takeWhile isspace).length) := by
  unfold behindSpaces
  induction chars generalizing nptr with
  | nil => rfl
  | cons c rest ih =>
    rw [skipSpaces, List.dropWhile_cons, List.takeWhile_cons]
    by_cases space : isspace c
    · rw [if_pos space, if_pos space, if_pos space, ih, List.length_cons, Nat.add_assoc,
        Nat.add_comm 1]
    · rw [if_neg space, if_neg space, if_neg space, if_neg (List.cons_ne_nil c rest)]
      rfl

/-- A place behind the white space. -/
theorem getElem?_behindSpaces (chars : List UInt8) (i : Nat) :
    chars[(chars.takeWhile isspace).length + i]? = (behindSpaces chars)[i]? := by
  have whole : chars.takeWhile isspace ++ behindSpaces chars = chars :=
    List.takeWhile_append_dropWhile
  have behind : (chars.takeWhile isspace ++ behindSpaces chars)[
      (chars.takeWhile isspace).length + i]? = _ := List.getElem?_append_right (Nat.le_add_right _ i)
  rw [whole, Nat.add_sub_cancel_left] at behind
  exact behind

/-- The place behind the sign and as far as a prefix would reach. -/
theorem place_eq (base : Nat) (chars : List UInt8) :
    place base chars = 1 + step base (behindSpaces chars)[1]? := by
  unfold place step
  split_ifs <;> rfl

/-- The call reads its digits at one place only, or comes to no digits because there is no such
place. -/
theorem strtoul_reads (signedChar : Bool) (chars : List UInt8) (endptr : Bool) (base : Nat) :
    ((behindSpaces chars)[place base chars]? = none ∧
        ∀ fuel, strtoul signedChar fuel chars endptr base = .error .undefined) ∨
      ∃ errno negative nptr, chars[nptr]? = (behindSpaces chars)[place base chars]? ∧
        ∀ fuel, strtoul signedChar fuel chars endptr base =
          (convert chars (if base = 0 then 16 else base) fuel nptr 0 >>=
            answer errno endptr negative nptr) := by
  have spaces := skipSpaces_spec chars 0
  rw [place_eq]
  cases first : (behindSpaces chars)[0]? with
  | none =>
    have empty : behindSpaces chars = [] := by
      rw [← List.length_eq_zero_iff]
      exact Nat.le_zero.mp (List.getElem?_eq_none_iff.mp first)
    rw [if_pos empty] at spaces
    refine .inl ⟨getElem?_behind first (Nat.zero_le _), fun fuel => ?_⟩
    unfold strtoul
    rw [spaces]
    rfl
  | some c =>
    have nonempty : behindSpaces chars ≠ [] := by
      intro empty
      rw [empty] at first
      cases first
    have there := getElem?_behindSpaces chars 0
    have next := getElem?_behindSpaces chars 1
    have later := getElem?_behindSpaces chars (1 + step base (behindSpaces chars)[1]?)
    rw [if_neg nonempty, Nat.zero_add] at spaces
    generalize (chars.takeWhile isspace).length = nptr at there next later spaces
    rw [first, Nat.add_zero] at there
    obtain ⟨negative, sign⟩ := skipSign_spec signedChar there
    rcases skipPrefix_spec signedChar chars (nptr + 1) base with moved | ⟨reads, behind⟩
    · rw [next, Nat.add_assoc] at moved
      refine .inr ⟨if base = 1 ∨ 36 < base then some .invalid else none, negative, _, later,
        fun fuel => ?_⟩
      unfold strtoul
      rw [spaces, ok_bind, sign, ok_bind]
      dsimp only
      rw [moved, ok_bind]
    · rw [next, Nat.add_assoc, later] at behind
      refine .inl ⟨behind, fun fuel => ?_⟩
      unfold strtoul
      rw [spaces, ok_bind, sign, ok_bind]
      dsimp only
      rw [reads]
      rfl

/-- A call that returns returns zero: with a range error for a digit at that place, and with no
digits for anything else. -/
theorem strtoul_ok {fuel : Nat} {base : Nat} {endptr : Bool} {result : Result}
    (returns : strtoul signedChar fuel chars endptr base = .ok result) :
    result = ⟨0, none, some .range⟩ ∨
      (result = ⟨0, if endptr then some 0 else none, some .invalid⟩ ∧
        ∃ c, (behindSpaces chars)[place base chars]? = some c ∧
          (if base = 0 then 16 else base) ≤ digitToNum c) := by
  rcases strtoul_reads signedChar chars endptr base with
    ⟨-, undefined⟩ | ⟨errno, negative, nptr, there, whole⟩
  · rw [undefined] at returns
    cases returns
  · rw [whole] at returns
    obtain ⟨outcome, converts, answers⟩ := of_bind_ok returns
    cases read : chars[nptr]? with
    | none =>
      obtain ⟨fault, fails⟩ := convert_behind read fuel 0
      rw [fails] at converts
      cases converts
    | some c =>
      by_cases digit : digitToNum c < (if base = 0 then 16 else base)
      · rcases convert_digit read digit fuel 0 with loops | overflows
        · rw [loops] at converts
          cases converts
        · rw [overflows] at converts
          cases converts
          exact .inl (Except.ok.inj answers).symm
      · have other := Nat.le_of_not_lt digit
        cases fuel with
        | zero => cases converts
        | succ fuel =>
          rw [convert_other read other] at converts
          cases converts
          rw [answer, if_pos rfl] at answers
          exact .inr ⟨(Except.ok.inj answers).symm, c, by rw [← there, read], other⟩

/-- With anything but a digit at that place the call returns. -/
theorem strtoul_returns {base : Nat} {c : UInt8} (endptr : Bool)
    (looked : (behindSpaces chars)[place base chars]? = some c)
    (other : (if base = 0 then 16 else base) ≤ digitToNum c) :
    strtoul signedChar 1 chars endptr base =
      .ok ⟨0, if endptr then some 0 else none, some .invalid⟩ := by
  rcases strtoul_reads signedChar chars endptr base with
    ⟨missing, -⟩ | ⟨errno, negative, nptr, there, whole⟩
  · rw [looked] at missing
    cases missing
  · rw [looked] at there
    rw [whole, convert_other there other, ok_bind, answer, if_pos rfl]

/-! ## Strings without a number -/

/-- The bases of the standard. -/
def ValidBase (base : Nat) : Prop := base = 0 ∨ 2 ≤ base ∧ base ≤ 36

/-- The smallest base that the first digit has to be one of. -/
theorem base_le {base : Nat} (valid : ValidBase base) :
    2 ≤ (if base = 0 then 10 else base) ∧ (if base = 0 then 10 else base) ≤ 36 := by
  unfold ValidBase at valid
  split
  · decide
  · omega

/-- A number starts with a digit. -/
theorem Numeral.head {base b : Nat} {front digits : List UInt8} (valid : ValidBase base)
    (numeral : Numeral base front b digits) (present : digits ≠ [])
    (all : ∀ c ∈ digits, digitToNum c < b) : ∃ c rest, front ++ digits = c :: rest ∧
      digitToNum c < (if base = 0 then 10 else base) := by
  have bounds := base_le valid
  have zero : digitToNum 0x30 < (if base = 0 then 10 else base) :=
    Nat.lt_of_lt_of_le (by decide) bounds.1
  cases numeral with
  | hexadecimal allowed letter => exact ⟨0x30, _, rfl, zero⟩
  | binary allowed letter => exact ⟨0x30, _, rfl, zero⟩
  | octal allowed digits first =>
    obtain ⟨c, rest, rfl⟩ := List.exists_cons_of_ne_nil present
    cases first
    exact ⟨0x30, rest, rfl, zero⟩
  | decimal allowed =>
    obtain ⟨c, rest, rfl⟩ := List.exists_cons_of_ne_nil present
    rw [if_pos allowed]
    exact ⟨c, rest, rfl, all c (List.mem_cons_self ..)⟩
  | plain allowed =>
    obtain ⟨c, rest, rfl⟩ := List.exists_cons_of_ne_nil present
    rw [if_neg allowed]
    exact ⟨c, rest, rfl, all c (List.mem_cons_self ..)⟩

/-- White space in front is stepped over. -/
theorem behindSpaces_append {blanks : List UInt8} (spaces : ∀ c ∈ blanks, isspace c) {c : UInt8}
    (other : ¬isspace c) (rest : List UInt8) :
    behindSpaces (blanks ++ c :: rest) = c :: rest := by
  unfold behindSpaces
  rw [List.dropWhile_append_of_pos spaces, List.dropWhile_cons_of_neg other]

/-- A start that has the form of a number has a digit behind the white space and the sign. -/
theorem Form.digit {base b : Nat} {subject digits : List UInt8} {negative : Bool}
    (form : Form base subject negative b digits) (valid : ValidBase base)
    (start : subject <+: chars) : ¬NoNumber base chars := by
  obtain ⟨blanks, sign, front, rfl, spaces, signed, numeral⟩ := form.parts
  obtain ⟨more, rfl⟩ := start
  obtain ⟨c, rest, first, digit⟩ := numeral.head valid form.present form.valid
  have other := other_of_digit (Nat.lt_of_lt_of_le digit (base_le valid).2)
  intro noNumber
  apply Nat.not_le_of_lt digit
  apply noNumber
  rw [first]
  cases signed with
  | absent =>
    have behind := behindSpaces_append spaces other.1 (rest ++ more)
    have noSign : ¬(c = 0x2B ∨ c = 0x2D) := not_or.mpr ⟨other.2.1, other.2.2.1⟩
    rw [List.nil_append, List.append_assoc, List.cons_append, behind, behindSign, if_neg noSign]
    rfl
  | plus =>
    have behind := behindSpaces_append spaces (c := 0x2B) (by decide) (c :: rest ++ more)
    rw [List.append_assoc, List.append_assoc, List.singleton_append, behind, behindSign,
      if_pos (.inl rfl)]
    rfl
  | minus =>
    have behind := behindSpaces_append spaces (c := 0x2D) (by decide) (c :: rest ++ more)
    rw [List.append_assoc, List.append_assoc, List.singleton_append, behind, behindSign,
      if_pos (.inr rfl)]
    rfl

/-- A single digit is a number. -/
theorem Numeral.single {base : Nat} {c : UInt8}
    (digit : digitToNum c < (if base = 0 then 10 else base)) :
    ∃ b, Numeral base [] b [c] ∧ digitToNum c < b := by
  by_cases automatic : base = 0
  · rw [if_pos automatic] at digit
    by_cases zero : c = 0x30
    · subst zero
      exact ⟨8, .octal automatic [0x30] rfl, by decide⟩
    · refine ⟨10, .decimal automatic [c] ?_, digit⟩
      exact fun same => zero (Option.some.inj same)
  · rw [if_neg automatic] at digit
    exact ⟨base, .plain automatic [c], digit⟩

/-- A start without a NUL is one of the string. -/
theorem start_text {subject : List UInt8} (start : subject <+: chars)
    (nonzero : ∀ c ∈ subject, c ≠ 0) : subject <+: text chars := by
  obtain ⟨more, rfl⟩ := start
  unfold text
  rw [List.takeWhile_append_of_pos (fun c listed => decide_eq_true (nonzero c listed))]
  exact List.prefix_append _ _

/-- White space, a sign and a digit have the form of a number, and they are a start of the string. -/
theorem exists_form_of {base b : Nat} {blanks sign rest : List UInt8} {negative : Bool} {c : UInt8}
    (spaces : ∀ d ∈ blanks, isspace d) (signed : Sign sign negative)
    (numeral : Numeral base [] b [c]) (digit : digitToNum c < b) (small : digitToNum c < 36)
    (whole : chars = blanks ++ (sign ++ c :: rest)) :
    ∃ subject negative b digits, Form base subject negative b digits ∧ subject <+: text chars := by
  refine ⟨blanks ++ (sign ++ ([] ++ [c])), negative, b, [c],
    ⟨⟨blanks, sign, [], rfl, spaces, signed, numeral⟩, List.cons_ne_nil c [], ?_⟩, ?_⟩
  · intro d listed
    rw [List.mem_singleton.mp listed]
    exact digit
  · apply start_text
    · rw [whole]
      exact ⟨rest, by simp only [List.append_assoc, List.nil_append, List.singleton_append]⟩
    · intro d listed
      rcases List.mem_append.mp listed with blank | later
      · rintro rfl
        exact absurd (spaces 0 blank) (by decide)
      · rcases List.mem_append.mp later with mark | last
        · cases signed with
          | absent => cases mark
          | plus => rw [List.mem_singleton.mp mark]; decide
          | minus => rw [List.mem_singleton.mp mark]; decide
        · rw [List.nil_append] at last
          rw [List.mem_singleton.mp last]
          exact (other_of_digit small).2.2.2

/-- A digit behind the white space and the sign ends a start that has the form of a number. -/
theorem exists_form {base : Nat} (valid : ValidBase base) (number : ¬NoNumber base chars) :
    ∃ subject negative b digits, Form base subject negative b digits ∧ subject <+: text chars := by
  unfold NoNumber at number
  simp only [not_forall, Nat.not_le] at number
  obtain ⟨c, first, digit⟩ := number
  obtain ⟨b, numeral, single⟩ := Numeral.single digit
  have small := Nat.lt_of_lt_of_le digit (base_le valid).2
  have whole : chars = chars.takeWhile isspace ++ behindSpaces chars :=
    List.takeWhile_append_dropWhile.symm
  have spaces : ∀ d ∈ chars.takeWhile isspace, isspace d := fun d listed =>
    List.mem_takeWhile_imp listed
  cases behind : behindSpaces chars with
  | nil =>
    rw [behind] at first
    cases first
  | cons d rest =>
    rw [behind] at first whole
    by_cases mark : d = 0x2B ∨ d = 0x2D
    · rw [behindSign, if_pos mark] at first
      obtain ⟨more, rfl⟩ := List.head?_eq_some_iff.mp first
      rcases mark with rfl | rfl
      · exact exists_form_of spaces .plus numeral single small whole
      · exact exists_form_of spaces .minus numeral single small whole
    · rw [behindSign, if_neg mark] at first
      cases first
      exact exists_form_of spaces .absent numeral single small whole

/-! ## The claim of the standard -/

/-- Coming back with no digits is right exactly if there is no number. -/
theorem parses_invalid_iff {base : Nat} (valid : ValidBase base) :
    Parses base (text chars) ⟨0, some 0, some .invalid⟩ ↔ NoNumber base chars := by
  constructor
  · rintro (⟨subject, negative, b, digits, longest, -, same, -⟩ | ⟨absent, -⟩)
    · obtain ⟨blanks, sign, front, rfl, -⟩ := longest.form.parts
      have empty : digits = [] := by
        apply List.eq_nil_of_length_eq_zero
        have length := Option.some.inj same
        simp only [List.length_append] at length
        omega
      exact absurd empty longest.form.present
    · by_contra number
      obtain ⟨subject, negative, b, digits, form, start⟩ := exists_form valid number
      exact absent subject negative b digits form start
  · intro noNumber
    refine .inr ⟨?_, rfl, rfl, nofun⟩
    intro subject negative b digits form start
    have inside := start.trans (List.takeWhile_prefix _)
    exact form.digit valid inside noNumber

/-- A range error without an end is never right. -/
theorem not_parses_range (base : Nat) (string : List UInt8) :
    ¬Parses base string ⟨0, none, some .range⟩ := by
  rintro (⟨subject, negative, b, digits, -, -, same, -⟩ | ⟨-, -, same, -⟩)
  · cases same
  · cases same

/-- `strtoul` returns, and what it returns is what the standard asks for, exactly if there is no
number to convert and no digit at the one place where it looks for it. -/
theorem strtoul_parses_iff (signedChar : Bool) (string : CharArray) {base : Nat}
    (valid : base = 0 ∨ 2 ≤ base ∧ base ≤ 36) :
    (∃ fuel result, strtoul signedChar fuel string.chars true base = .ok result ∧
      Parses base (text string.chars) result) ↔ Ignored base string.chars := by
  constructor
  · rintro ⟨fuel, result, returns, parses⟩
    rcases strtoul_ok returns with rfl | ⟨rfl, looked⟩
    · exact absurd parses (not_parses_range base _)
    · exact ⟨(parses_invalid_iff valid).mp parses, looked⟩
  · rintro ⟨noNumber, c, looked, other⟩
    exact ⟨1, _, strtoul_returns true looked other, (parses_invalid_iff valid).mpr noNumber⟩

/-- An `x` is no number, and `strtoul` steps over it. -/
theorem strtoul_parses_letter : ∃ fuel result,
    strtoul false fuel [0x78, 0] true 10 = .ok result ∧ Parses 10 (text [0x78, 0]) result := by
  have valid : 10 = 0 ∨ 2 ≤ 10 ∧ 10 ≤ 36 := by decide
  apply (strtoul_parses_iff false ⟨[0x78, 0], by decide⟩ valid).mpr
  refine ⟨?_, 0, by decide, by decide⟩
  intro c first
  cases first
  decide

/-- A `1` is stepped over as well. -/
theorem strtoul_one :
    strtoul false 1 [0x31, 0] true 10 = .ok ⟨0, some 0, some .invalid⟩ ∧
      ¬∃ fuel result, strtoul false fuel [0x31, 0] true 10 = .ok result ∧
        Parses 10 (text [0x31, 0]) result := by
  have valid : ValidBase 10 := .inr (by decide)
  have number : ¬NoNumber 10 [0x31, 0] := fun none => absurd (none 0x31 rfl) (by decide)
  refine ⟨by decide, ?_⟩
  rintro ⟨fuel, result, returns, parses⟩
  rcases strtoul_ok returns with rfl | ⟨rfl, -⟩
  · exact not_parses_range 10 _ parses
  · exact number ((parses_invalid_iff valid).mp parses)

end FelineOS.Strtoul
