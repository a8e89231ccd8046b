import Mathlib.Data.Nat.Digits.Lemmas
import Mathlib.Tactic.Common

/-!
# Numerals of a fixed width

The lowest digits of a number, one for each place, with the lowest one first. As many places as the
number has digits and more give its digits and zeros; fewer places give those of a remainder.
-/

namespace Library

variable {b count n m zeros : ℕ}

/-- The digits at the lowest places. -/
def lastDigits (b count n : ℕ) : List ℕ := (List.range count).map fun i => n / b ^ i % b

/-- There is a digit for each place. -/
@[simp] theorem length_lastDigits : (lastDigits b count n).length = count := by
  rw [lastDigits, List.length_map, List.length_range]

/-- A digit is smaller than the base. -/
theorem lt_of_mem_lastDigits (positive : 0 < b) {d : ℕ} (listed : d ∈ lastDigits b count n) :
    d < b := by
  obtain ⟨i, -, rfl⟩ := List.mem_map.mp listed
  exact Nat.mod_lt _ positive

/-- Places that a number fills give its digits and zeros. -/
theorem lastDigits_of_lt (base : 1 < b) (small : n < b ^ count) :
    lastDigits b count n = Nat.digitsAppend b count n := by
  have long := Nat.length_digitsAppend base count small
  apply List.ext_getElem (by rw [length_lastDigits, long])
  intro i left right
  have digit := Nat.getD_digits n i base
  simp only [lastDigits, List.getElem_map, List.getElem_range, Nat.digitsAppend]
  rw [← digit]
  by_cases inside : i < (Nat.digits b n).length
  · rw [List.getElem_append_left inside, List.getD_eq_getElem?_getD,
      List.getElem?_eq_getElem inside, Option.getD_some]
  · rw [List.getElem_append_right (Nat.le_of_not_lt inside), List.getElem_replicate,
      List.getD_eq_getElem?_getD, List.getElem?_eq_none (Nat.le_of_not_lt inside), Option.getD_none]

/-- Only the remainder matters to the lowest places. -/
theorem lastDigits_mod (b count n : ℕ) : lastDigits b count (n % b ^ count) = lastDigits b count n := by
  apply List.map_congr_left
  intro i inside
  have below : i < count := List.mem_range.mp inside
  have split : b ^ count = b ^ i * b ^ (count - i) := by
    rw [← Nat.pow_add, Nat.add_sub_cancel' (Nat.le_of_lt below)]
  rw [split, Nat.mod_mul_right_div_self]
  exact Nat.mod_mod_of_dvd _ (dvd_pow_self b (Nat.sub_ne_zero_of_lt below))

/-- The lowest places are the digits of the remainder and zeros. -/
theorem lastDigits_eq (base : 1 < b) :
    lastDigits b count n = Nat.digitsAppend b count (n % b ^ count) := by
  rw [← lastDigits_mod]
  exact lastDigits_of_lt base (Nat.mod_lt _ (Nat.pow_pos (Nat.lt_trans Nat.zero_lt_one base)))

/-- The value of the lowest places is the remainder. -/
theorem ofDigits_lastDigits (base : 1 < b) :
    Nat.ofDigits b (lastDigits b count n) = n % b ^ count := by
  rw [lastDigits_eq base, Nat.digitsAppend, Nat.ofDigits_append_replicate_zero, Nat.ofDigits_digits]

/-- The lowest places show a number exactly when it is the remainder. -/
theorem lastDigits_shows_iff (base : 1 < b) :
    (∃ zeros, lastDigits b count n = Nat.digits b m ++ List.replicate zeros 0) ↔
      n % b ^ count = m := by
  constructor
  · rintro ⟨zeros, same⟩
    have value := congrArg (Nat.ofDigits b) same
    rwa [ofDigits_lastDigits base, Nat.ofDigits_append_replicate_zero, Nat.ofDigits_digits] at value
  · rintro rfl
    exact ⟨_, lastDigits_eq base⟩

end Library
