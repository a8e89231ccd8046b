import FelineOS.Spec.PrintfNumber
import FelineOS.Verif.PrintfConversion

/-!
# The digits of an integer

The digits of a conversion are the sixteen lowest places of the number that the length modifier in
force makes of the argument. They show the value exactly when that number is the absolute value and
does not need more places, and when the sign is the right one.
-/

namespace FelineOS.Printf

open Library

/-! ## Sixteen places -/

/-- The digits of a number routine, by the powers of the base as a word holds them. -/
theorem digits_powers (num base count first : Nat) :
    digits num base count (base ^ first % 2 ^ 64) = ((List.range' first count).map fun i =>
      UInt8.ofNat (num / (base ^ i % 2 ^ 64) % base) + 0x30).reverse := by
  induction count generalizing first with
  | zero => rfl
  | succ count ih =>
    have next : base ^ first % 2 ^ 64 * base % 2 ^ 64 = base ^ (first + 1) % 2 ^ 64 := by
      rw [Nat.mod_mul_mod, ← Nat.pow_succ]
    rw [digits, next, ih, List.range'_succ, List.map_cons, List.reverse_cons]

/-- The powers for sixteen places are words. -/
theorem power_word {base i : Nat} (small : base ≤ 16) (inside : i < 16) :
    base ^ i % 2 ^ 64 = base ^ i := by
  apply Nat.mod_eq_of_lt
  calc
    base ^ i ≤ 16 ^ i := Nat.pow_le_pow_left small i
    _ ≤ 16 ^ 15 := Nat.pow_le_pow_right (by decide) (by omega)
    _ < 2 ^ 64 := by decide

/-- The digits of a number routine are those at the sixteen lowest places. -/
theorem digits_lastDigits (num : Nat) {base : Nat} (small : base ≤ 16) :
    digits num base 16 1 =
      ((lastDigits base 16 num).map fun d => UInt8.ofNat d + 0x30).reverse := by
  have powers := digits_powers num base 16 0
  rw [Nat.pow_zero, Nat.mod_eq_of_lt (by decide : 1 < 2 ^ 64)] at powers
  rw [powers, lastDigits, List.map_map, ← List.range_eq_range']
  apply congrArg List.reverse
  apply List.map_congr_left
  intro i listed
  rw [Function.comp_apply, power_word small (List.mem_range.mp listed)]

/-- The character of a digit, as the number routines make it. -/
theorem shifted_digit : ∀ d < 16, ∀ signedChar upper,
    shifted signedChar upper (UInt8.ofNat d + 0x30) = digitChar upper d := by
  decide

/-- A decimal digit has no case. -/
theorem digit_small : ∀ d < 10, ∀ upper, UInt8.ofNat d + 0x30 = digitChar upper d := by
  decide

/-- The digit of a character. -/
def charDigit (c : UInt8) : Nat :=
  if c < 0x3A then c.toNat - 0x30 else if c < 0x47 then c.toNat - 0x37 else c.toNat - 0x57

/-- The character of a digit has its digit. -/
theorem charDigit_digitChar : ∀ d < 16, ∀ upper, charDigit (digitChar upper d) = d := by
  decide

/-- The case that a number routine prints in. -/
def Style.Prints (style : Style) (upper : Bool) : Prop :=
  style.letters = some upper ∨ style.letters = none ∧ style.base ≤ 10

/-- The text of a number are the sixteen lowest places. -/
theorem Style.text_lastDigits (signedChar : Bool) {style : Style} (valid : style.Valid)
    {upper : Bool} (prints : style.Prints upper) (num : Nat) :
    style.text signedChar num = ((lastDigits style.base 16 num).map (digitChar upper)).reverse := by
  have positive : 0 < style.base := Nat.lt_of_lt_of_le (by decide) valid.1
  unfold Style.text
  rw [digits_lastDigits num valid.2]
  rcases prints with letters | ⟨letters, decimal⟩
  · simp only [letters, List.map_reverse, List.map_map]
    apply congrArg List.reverse
    apply List.map_congr_left
    intro d listed
    have small := Nat.lt_of_lt_of_le (lt_of_mem_lastDigits positive listed) valid.2
    exact shifted_digit d small signedChar upper
  · simp only [letters]
    apply congrArg List.reverse
    apply List.map_congr_left
    intro d listed
    have small := Nat.lt_of_lt_of_le (lt_of_mem_lastDigits positive listed) decimal
    exact digit_small d small upper

/-- A numeral behind zeros, by its digits: zero itself has one digit. -/
theorem zeros_numeral (base zeros n : Nat) (upper : Bool) :
    List.replicate zeros 0x30 ++ numeral base upper n =
      ((Nat.digits base n ++ List.replicate (zeros + if n = 0 then 1 else 0) 0).map
        (digitChar upper)).reverse := by
  have zero : digitChar upper 0 = 0x30 := by cases upper <;> decide
  unfold numeral
  by_cases none : n = 0
  · rw [if_pos none, if_pos none, none, Nat.digits_zero, List.nil_append, List.map_replicate, zero,
      List.reverse_replicate, List.replicate_succ']
  · rw [if_neg none, if_neg none, Nat.add_zero, List.map_append, List.reverse_append,
      List.map_replicate, List.reverse_replicate, zero]

/-- Digits of one base in the same case are the same when their characters are. -/
theorem digits_of_chars {one other : List Nat} {upper lower : Bool}
    (small : ∀ d ∈ one, d < 16) (smaller : ∀ d ∈ other, d < 16)
    (same : one.map (digitChar upper) = other.map (digitChar lower)) : one = other := by
  have back (upper : Bool) (digits : List Nat) (bound : ∀ d ∈ digits, d < 16) :
      (digits.map (digitChar upper)).map charDigit = digits := by
    rw [List.map_map]
    exact (List.map_congr_left fun d listed => charDigit_digitChar d (bound d listed) upper).trans
      (List.map_id digits)
  calc
    one = (one.map (digitChar upper)).map charDigit := (back upper one small).symm
    _ = (other.map (digitChar lower)).map charDigit := by rw [same]
    _ = other := back lower other smaller

/-- Digits look the same in both cases exactly when there are no letters. -/
theorem chars_same_iff {digits : List Nat} (small : ∀ d ∈ digits, d < 16) {one other : Bool} :
    digits.map (digitChar one) = digits.map (digitChar other) ↔ one = other ∨ ∀ d ∈ digits, d < 10 := by
  have cases : ∀ d < 16, (digitChar one d = digitChar other d ↔ one = other ∨ d < 10) := by
    cases one <;> cases other <;> decide
  rw [List.map_inj_left]
  constructor
  · intro same
    by_cases equal : one = other
    · exact .inl equal
    · exact .inr fun d listed =>
        ((cases d (small d listed)).mp (same d listed)).resolve_left equal
  · rintro (equal | decimal) d listed
    · exact (cases d (small d listed)).mpr (.inl equal)
    · exact (cases d (small d listed)).mpr (.inr (decimal d listed))

/-- Sixteen places show a number exactly when it is their remainder, and in the right case. -/
theorem places_show_iff {base num n : Nat} (least : 2 ≤ base) (most : base ≤ 16) {one other : Bool} :
    (∃ zeros, ((lastDigits base 16 num).map (digitChar one)).reverse =
      List.replicate zeros 0x30 ++ numeral base other n) ↔
        num % base ^ 16 = n ∧ (one = other ∨ ∀ d ∈ Nat.digits base n, d < 10) := by
  have positive : 0 < base := Nat.lt_of_lt_of_le (by decide) least
  have places : ∀ d ∈ lastDigits base 16 num, d < 16 := fun d listed =>
    Nat.lt_of_lt_of_le (lt_of_mem_lastDigits positive listed) most
  have digits : ∀ d ∈ Nat.digits base n, d < 16 := fun d listed =>
    Nat.lt_of_lt_of_le (Nat.digits_lt_base least listed) most
  have filled (count : Nat) : ∀ d ∈ Nat.digits base n ++ List.replicate count 0, d < 16 := by
    intro d listed
    rcases List.mem_append.mp listed with digit | zero
    · exact digits d digit
    · rw [List.eq_of_mem_replicate zero]
      decide
  constructor
  · rintro ⟨zeros, same⟩
    rw [zeros_numeral, List.reverse_inj] at same
    have equal := digits_of_chars places (filled _) same
    refine ⟨(lastDigits_shows_iff least).mp ⟨_, equal⟩, ?_⟩
    rw [equal, chars_same_iff (filled _)] at same
    exact same.imp_right fun decimal d listed => decimal d (List.mem_append_left _ listed)
  · rintro ⟨remainder, looks⟩
    have places : ∃ count, lastDigits base 16 num = Nat.digits base n ++ List.replicate count 0 :=
      (lastDigits_shows_iff least).mpr remainder
    obtain ⟨count, shown⟩ := places
    -- of the sixteen zeros of zero the last one is its digit
    obtain ⟨zeros, rest⟩ : ∃ zeros, count = zeros + if n = 0 then 1 else 0 := by
      by_cases none : n = 0
      · have long := congrArg List.length shown
        rw [length_lastDigits, none, Nat.digits_zero, List.nil_append, List.length_replicate] at long
        exact ⟨15, by rw [if_pos none]; omega⟩
      · exact ⟨count, by rw [if_neg none, Nat.add_zero]⟩
    refine ⟨zeros, ?_⟩
    rw [zeros_numeral, ← rest, shown, List.reverse_inj, chars_same_iff (filled _)]
    refine looks.imp_right fun decimal d listed => ?_
    rcases List.mem_append.mp listed with digit | zero
    · exact decimal d digit
    · rw [List.eq_of_mem_replicate zero]
      decide

/-! ## Signs and magnitudes -/

/-- Signs are equal when both numbers are negative or neither is. -/
theorem signOf_same_iff (alwaysSigned : Bool) (one other : Int) :
    signOf alwaysSigned one = signOf alwaysSigned other ↔ (one < 0 ↔ other < 0) := by
  unfold signOf
  by_cases left : one < 0 <;> by_cases right : other < 0 <;> cases alwaysSigned <;>
    simp [left, right]

/-- A plus sign is that of a number that is not negative. -/
theorem plusOf_same_iff (alwaysSigned : Bool) (v : Int) :
    plusOf alwaysSigned = signOf alwaysSigned v ↔ 0 ≤ v := by
  unfold plusOf signOf
  by_cases negative : v < 0 <;> cases alwaysSigned <;> simp [negative] <;> omega

/-- A shorter type holds the values of its range. -/
theorem toSigned_word {bits : Nat} {v : Int} (size : bits ∈ [8, 16, 32]) (range : -2 ^ 31 ≤ v ∧ v < 2 ^ 31) :
    toSigned bits (UInt32.ofNat (v % 2 ^ 32).toNat).toNat = v ↔
      -2 ^ (bits - 1) ≤ v ∧ v < 2 ^ (bits - 1) := by
  have value : ((UInt32.ofNat (v % 2 ^ 32).toNat).toNat : Int) = v % 2 ^ 32 := by
    rw [UInt32.toNat_ofNat']
    omega
  simp only [List.mem_cons, List.not_mem_nil, or_false] at size
  unfold toSigned
  rw [value]
  rcases size with rfl | rfl | rfl
  all_goals
    simp only [Int.bmod_def]
    split <;> omega

/-- The longest type holds its values. -/
theorem toSigned_dword {v : Int} (range : -2 ^ 63 ≤ v ∧ v < 2 ^ 63) :
    toSigned 64 (UInt64.ofNat (v % 2 ^ 64).toNat).toNat = v := by
  have value : ((UInt64.ofNat (v % 2 ^ 64).toNat).toNat : Int) = v % 2 ^ 64 := by
    rw [UInt64.toNat_ofNat']
    omega
  unfold toSigned
  rw [value, Int.bmod_def]
  split <;> omega

/-- A shorter type has no least number of 32 bits. -/
theorem toSigned_range {bits n : Nat} (size : bits ∈ [8, 16]) :
    -2 ^ 31 < toSigned bits n ∧ toSigned bits n < 2 ^ 31 := by
  simp only [List.mem_cons, List.not_mem_nil, or_false] at size
  unfold toSigned
  rcases size with rfl | rfl
  all_goals
    simp only [Int.bmod_def]
    split <;> omega

/-- `std::abs` of an `int` that is not the least one. -/
theorem magnitude_word {w : Int} (range : -2 ^ 31 < w ∧ w < 2 ^ 31) :
    toUnsigned (abs 32 w) = w.natAbs := by
  unfold toUnsigned abs
  simp only [Int.bmod_def]
  split
  · omega
  · split <;> omega

/-- `std::abs` of a `long long`; the least one is its own magnitude as an unsigned number. -/
theorem magnitude_dword {w : Int} (range : -2 ^ 63 ≤ w ∧ w < 2 ^ 63) :
    toUnsigned (abs 64 w) = w.natAbs := by
  unfold toUnsigned abs
  simp only [Int.bmod_def]
  split
  · omega
  · split <;> omega

/-- The numbers whose complement ends in their own decimal places. -/
theorem complement_fixed {k : Nat} (positive : 0 < k) (small : k ≤ 2 ^ 63) :
    (2 ^ 64 - k) % 10 ^ 16 = k ↔ k = 3372036854775808 ∨ k = 8372036854775808 := by
  constructor
  · intro same
    have below := Nat.mod_lt (2 ^ 64 - k) (show 0 < 10 ^ 16 by decide)
    have split := Nat.div_add_mod (2 ^ 64 - k) (10 ^ 16)
    rw [same] at below split
    have quotient : (2 ^ 64 - k) / 10 ^ 16 = 1843 ∨ (2 ^ 64 - k) / 10 ^ 16 = 1844 := by omega
    omega
  · rintro (same | same)
    · subst same
      decide
    · subst same
      decide

/-- A number with the right sign and magnitude is the value. -/
theorem same_number_iff (alwaysSigned : Bool) {w v : Int} (small : w.natAbs < 10 ^ 16) :
    signOf alwaysSigned w = signOf alwaysSigned v ∧ w.natAbs % 10 ^ 16 = v.natAbs ↔ w = v := by
  rw [signOf_same_iff, Nat.mod_eq_of_lt small]
  omega

/-- A sign is no digit. -/
theorem plusOf_below (alwaysSigned : Bool) : ∀ c ∈ plusOf alwaysSigned, c < 0x30 := by
  unfold plusOf
  split
  · exact List.forall_mem_singleton.mpr (by decide)
  · exact List.forall_mem_nil _

/-- Nor is that of a signed number. -/
theorem signOf_below (alwaysSigned : Bool) (num : Int) : ∀ c ∈ signOf alwaysSigned num, c < 0x30 := by
  unfold signOf
  split
  · exact List.forall_mem_singleton.mpr (by decide)
  · exact plusOf_below alwaysSigned

/-- The sign and the number that the conversion of a word comes to, and when they are those of the
value. -/
theorem signedNumber_word {length : Length} (narrow : length.wide = false)
    (integer : length ≠ .longDouble) (alwaysSigned : Bool) {v : Int}
    (range : -2 ^ 31 ≤ v ∧ v < 2 ^ 31) (later : List Arg) : ∃ sign num,
      signedNumber length alwaysSigned (.word (UInt32.ofNat (v % 2 ^ 32).toNat) :: later) =
        .ok (some (sign, num), later) ∧ (∀ c ∈ sign, c < 0x30) ∧
      (sign = signOf alwaysSigned v ∧ num % 10 ^ 16 = v.natAbs ↔ length.ReadsSigned v) := by
  have signs := signOf_below alwaysSigned
  have shorter (bits : Nat) (size : bits ∈ [8, 16]) (w : Int)
      (read : w = toSigned bits (UInt32.ofNat (v % 2 ^ 32).toNat).toNat) :
      signOf alwaysSigned w = signOf alwaysSigned v ∧
        toUnsigned (abs 32 w) % 10 ^ 16 = v.natAbs ↔
        -2 ^ (bits - 1) ≤ v ∧ v < 2 ^ (bits - 1) := by
    have bound := toSigned_range (n := (UInt32.ofNat (v % 2 ^ 32).toNat).toNat) size
    rw [← read] at bound
    rw [magnitude_word bound, same_number_iff _ (by omega), read]
    exact toSigned_word (List.mem_of_mem_dropLast (l := [8, 16, 32]) size) range
  have whole (w : Int) (read : w = toSigned 32 (UInt32.ofNat (v % 2 ^ 32).toNat).toNat) :
      signOf alwaysSigned w = signOf alwaysSigned v ∧
        toUnsigned (abs 32 w) % 10 ^ 16 = v.natAbs ↔ v ≠ -2 ^ 31 := by
    obtain rfl : w = v := read.trans ((toSigned_word (by decide) range).mpr range)
    by_cases least : w = -2 ^ 31
    · subst least
      cases alwaysSigned <;> decide
    · have bound : -2 ^ 31 < w ∧ w < 2 ^ 31 := by omega
      rw [magnitude_word bound, same_number_iff _ (by omega)]
      exact ⟨fun _ => least, fun _ => rfl⟩
  cases length with
  | char => exact ⟨_, _, rfl, signs _, shorter 8 (by decide) _ rfl⟩
  | short => exact ⟨_, _, rfl, signs _, shorter 16 (by decide) _ rfl⟩
  | int => exact ⟨_, _, rfl, signs _, whole _ rfl⟩
  | long => exact ⟨_, _, rfl, signs _, whole _ rfl⟩
  | ptrdiff => exact ⟨_, _, rfl, signs _, whole _ rfl⟩
  | size =>
    refine ⟨_, _, rfl, plusOf_below alwaysSigned, ?_⟩
    · have value : ((UInt32.ofNat (v % 2 ^ 32).toNat).toNat : Int) = v % 2 ^ 32 := by
        rw [UInt32.toNat_ofNat']
        omega
      rw [plusOf_same_iff]
      show _ ↔ 0 ≤ v
      omega
  | longLong => cases narrow
  | intmax => cases narrow
  | longDouble => exact absurd rfl integer

/-- The same for an argument with 64 bits. -/
theorem signedNumber_dword {length : Length} (wide : length.wide) (alwaysSigned : Bool) {v : Int}
    (range : -2 ^ 63 ≤ v ∧ v < 2 ^ 63) (later : List Arg) : ∃ sign num,
      signedNumber length alwaysSigned (.dword (UInt64.ofNat (v % 2 ^ 64).toNat) :: later) =
        .ok (some (sign, num), later) ∧ (∀ c ∈ sign, c < 0x30) ∧
      (sign = signOf alwaysSigned v ∧ num % 10 ^ 16 = v.natAbs ↔ length.ReadsSigned v) := by
  have signs := signOf_below alwaysSigned v
  cases length with
  | longLong =>
    refine ⟨_, _, rfl, ?_, ?_⟩
    · rw [toSigned_dword range]
      exact signs
    · rw [toSigned_dword range]
      show signOf alwaysSigned v = signOf alwaysSigned v ∧
        toUnsigned (abs 64 v) % 10 ^ 16 = v.natAbs ↔ -10 ^ 16 < v ∧ v < 10 ^ 16
      rw [magnitude_dword range, eq_self_iff_true, true_and]
      omega
  | intmax =>
    refine ⟨_, _, rfl, ?_, ?_⟩
    · rw [toSigned_dword range]
      exact signs
    · rw [toSigned_dword range]
      show signOf alwaysSigned v = signOf alwaysSigned v ∧ toUnsigned v % 10 ^ 16 = v.natAbs ↔
        0 ≤ v ∧ v < 10 ^ 16 ∨ v = -3372036854775808 ∨ v = -8372036854775808
      by_cases negative : v < 0
      · have complement : toUnsigned v = 2 ^ 64 - v.natAbs := by
          unfold toUnsigned
          omega
        rw [complement, complement_fixed (by omega) (by omega), eq_self_iff_true, true_and]
        omega
      · have same : toUnsigned v = v.natAbs := by
          unfold toUnsigned
          omega
        rw [same, eq_self_iff_true, true_and]
        omega
  | char => cases wide
  | short => cases wide
  | int => cases wide
  | long => cases wide
  | size => cases wide
  | ptrdiff => cases wide
  | longDouble => cases wide

/-- The bases of the conversions. -/
theorem Specifier.base_cases (spec : Specifier) : spec.base ∈ [2, 8, 10, 16] := by
  cases spec <;> decide

/-- Sixteen places show more than nothing. -/
theorem Specifier.places_pos (spec : Specifier) : 0 < spec.base ^ 16 := by
  have base := spec.base_cases
  apply Nat.pow_pos
  simp only [List.mem_cons, List.not_mem_nil, or_false] at base
  omega

/-- What sixteen places have room for, of a value that is not negative. -/
theorem Specifier.places_whole (spec : Specifier) {v : Int} (natural : 0 ≤ v) :
    v < spec.base ^ 16 ↔ v.natAbs < spec.base ^ 16 := by
  have same : ((v.natAbs : Nat) : Int) = v := Int.natAbs_of_nonneg natural
  rw [← Int.ofNat_lt, same, Int.natCast_pow]

/-- Sixteen places show the values that they have room for. -/
theorem Specifier.places_same (spec : Specifier) {v : Int} (natural : 0 ≤ v) :
    v.natAbs % spec.base ^ 16 = v.natAbs ↔ v < spec.base ^ 16 := by
  rw [spec.places_whole natural, Nat.mod_eq_iff_lt (Nat.ne_of_gt spec.places_pos)]

/-- A remainder of a remainder is the number when it is below both moduli. -/
theorem mod_mod_same_iff {n one other : Nat} (positive : 0 < other) (inside : 0 < one) :
    n % other % one = n ↔ n < one ∧ n < other := by
  constructor
  · intro same
    have below := Nat.mod_lt (n % other) inside
    have shorter := Nat.mod_le (n % other) one
    have bound := Nat.mod_lt n positive
    omega
  · rintro ⟨below, bound⟩
    rw [Nat.mod_eq_of_lt bound, Nat.mod_eq_of_lt below]

/-- Sixteen places show a word read with a sign when they have room for it and it has none. -/
theorem Specifier.places_extended (spec : Specifier) {v : Int} (range : 0 ≤ v ∧ v < 2 ^ 32) :
    toUnsigned (toSigned 32 v.natAbs) % spec.base ^ 16 = v.natAbs ↔
      v < spec.base ^ 16 ∧ v < 2 ^ 31 := by
  by_cases positive : v < 2 ^ 31
  · have read : toUnsigned (toSigned 32 v.natAbs) = v.natAbs := by
      unfold toUnsigned toSigned
      rw [Int.bmod_def]
      split <;> omega
    rw [read, spec.places_same range.1, and_iff_left positive]
  · have read : toUnsigned (toSigned 32 v.natAbs) = v.natAbs + (2 ^ 64 - 2 ^ 32) := by
      unfold toUnsigned toSigned
      rw [Int.bmod_def]
      split <;> omega
    rw [read]
    -- the sign fills places that the value does not have, or those of the value are cut off
    have base := spec.base_cases
    simp only [List.mem_cons, List.not_mem_nil, or_false] at base
    rcases base with two | eight | ten | sixteen
    · rw [two]
      omega
    · rw [eight]
      omega
    · rw [ten]
      omega
    · rw [sixteen]
      omega

/-- The number that the conversion of a word comes to without a sign, and when it is the value. -/
theorem unsignedNumber_word {length : Length} (narrow : length.wide = false)
    (integer : length ≠ .longDouble) (spec : Specifier) {v : Int} (range : 0 ≤ v ∧ v < 2 ^ 32)
    (later : List Arg) : ∃ num,
      unsignedNumber length (.word (UInt32.ofNat (v % 2 ^ 32).toNat) :: later) =
        .ok (some num, later) ∧
      (num % spec.base ^ 16 = v.natAbs ∧
        (length = .intmax → spec = .hex → ∀ d ∈ Nat.digits 16 v.natAbs, d < 10) ↔
        length.ReadsUnsigned spec v) := by
  have value : (UInt32.ofNat (v % 2 ^ 32).toNat).toNat = v.natAbs := by
    rw [UInt32.toNat_ofNat']
    omega
  have places := spec.places_pos
  have whole := spec.places_whole range.1
  have same := spec.places_same range.1
  generalize UInt32.ofNat (v % 2 ^ 32).toNat = bits at value ⊢
  have lower : length = .intmax → spec = .hex → ∀ d ∈ Nat.digits 16 v.natAbs, d < 10 := by
    rintro rfl
    cases narrow
  simp only [and_iff_left lower]
  cases length with
  | char =>
    refine ⟨_, rfl, ?_⟩
    show bits.toNat % 2 ^ 8 % spec.base ^ 16 = v.natAbs ↔
      v < spec.base ^ 16 ∧ v < 2 ^ 8
    rw [value, mod_mod_same_iff (by decide) places, whole]
    omega
  | short =>
    refine ⟨_, rfl, ?_⟩
    show bits.toNat % 2 ^ 16 % spec.base ^ 16 = v.natAbs ↔
      v < spec.base ^ 16 ∧ v < 2 ^ 16
    rw [value, mod_mod_same_iff (by decide) places, whole]
    omega
  | int | long | size =>
    refine ⟨_, rfl, ?_⟩
    show bits.toNat % spec.base ^ 16 = v.natAbs ↔
      v < spec.base ^ 16 ∧ True
    rw [value, same, and_true]
  | ptrdiff =>
    refine ⟨_, rfl, ?_⟩
    show toUnsigned (toSigned 32 bits.toNat) % spec.base ^ 16 = v.natAbs ↔
      v < spec.base ^ 16 ∧ v < 2 ^ 31
    rw [value]
    exact spec.places_extended range
  | longLong => cases narrow
  | intmax => cases narrow
  | longDouble => exact absurd rfl integer

/-- The same for an argument with 64 bits. -/
theorem unsignedNumber_dword {length : Length} (wide : length.wide) (spec : Specifier) {v : Int}
    (range : 0 ≤ v ∧ v < 2 ^ 64) (later : List Arg) : ∃ num,
      unsignedNumber length (.dword (UInt64.ofNat (v % 2 ^ 64).toNat) :: later) =
        .ok (some num, later) ∧
      (num % spec.base ^ 16 = v.natAbs ∧
        (length = .intmax → spec = .hex → ∀ d ∈ Nat.digits 16 v.natAbs, d < 10) ↔
        length.ReadsUnsigned spec v) := by
  have value : (UInt64.ofNat (v % 2 ^ 64).toNat).toNat = v.natAbs := by
    rw [UInt64.toNat_ofNat']
    omega
  generalize UInt64.ofNat (v % 2 ^ 64).toNat = bits at value ⊢
  have same := spec.places_same range.1
  cases length with
  | longLong =>
    refine ⟨_, rfl, ?_⟩
    have lower : Length.longLong = .intmax → spec = .hex →
        ∀ d ∈ Nat.digits 16 v.natAbs, d < 10 := by
      intro different
      cases different
    show bits.toNat % spec.base ^ 16 = v.natAbs ∧ _ ↔
      v < spec.base ^ 16 ∧ True
    rw [and_iff_left lower, value, same, and_true]
  | intmax =>
    refine ⟨_, rfl, ?_⟩
    show bits.toNat % spec.base ^ 16 = v.natAbs ∧ (_ → _) ↔
      v < spec.base ^ 16 ∧ (spec = .hex → ∀ d ∈ Nat.digits 16 v.natAbs, d < 10)
    rw [value, same, forall_prop_of_true rfl]
  | char => cases wide
  | short => cases wide
  | int => cases wide
  | long => cases wide
  | size => cases wide
  | ptrdiff => cases wide
  | longDouble => cases wide

end FelineOS.Printf
