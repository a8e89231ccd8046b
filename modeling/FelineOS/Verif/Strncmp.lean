import FelineOS.Libc.Strtoul
import Mathlib.Tactic.Common

/-!
# Comparing characters

What `strncmp` comes to, in arrays or wherever else the characters are read from: at the first
characters that differ their order decides, and equal ones are passed over.
-/

namespace FelineOS.Strtoul

variable {signedChar : Bool} {chars : List UInt8}

/-- Different characters are in one order or the other. -/
theorem charLess_of_ne (signedChar : Bool) {l r : UInt8} (different : l ≠ r) :
    charLess signedChar l r = true ∨ charLess signedChar r l = true := by
  unfold charLess
  cases signedChar with
  | false =>
    simp only [Bool.false_eq_true, if_false, decide_eq_true_eq]
    exact UInt8.lt_or_lt_of_ne different
  | true =>
    have apart : l.toInt8 ≠ r.toInt8 := fun same => different (congrArg Int8.toUInt8 same)
    simp only [if_true, decide_eq_true_eq]
    have order := Int.lt_or_gt_of_ne fun same => apart (Int8.toInt_inj.mp same)
    simpa only [Int8.lt_iff_toInt_lt] using order

/-- No character is below itself. -/
theorem charLess_self (signedChar : Bool) (c : UInt8) : ¬ charLess signedChar c c = true := by
  unfold charLess
  cases signedChar with
  | false => simp
  | true => simp

/-- Different characters end a comparison. -/
theorem compared_of_ne (signedChar : Bool) {l r : UInt8} (different : l ≠ r)
    (next : Except Fault Int) :
    (if charLess signedChar l r then .ok (-1) else if charLess signedChar r l then .ok 1 else next) =
      .ok (if charLess signedChar l r then -1 else 1) := by
  by_cases below : charLess signedChar l r
  · rw [if_pos below, if_pos below]
  · have above := (charLess_of_ne signedChar different).resolve_left below
    rw [if_neg below, if_neg below, if_pos above]

/-- Strings that start with different characters are different. -/
theorem strncmp_ne (signedChar : Bool) (lhs rhs : Nat → Except Fault UInt8) {l r : UInt8}
    (remaining i : Nat) (left : lhs i = .ok l) (right : rhs i = .ok r) (different : l ≠ r) :
    ∃ order, strncmp signedChar lhs rhs (remaining + 1) i = .ok order ∧ order ≠ 0 := by
  refine ⟨if charLess signedChar l r then -1 else 1, ?_, ?_⟩
  · rw [strncmp, left, right, ok_bind, ok_bind, compared_of_ne signedChar different]
  · split <;> decide

/-- Strings that start with the same character are compared behind it. -/
theorem strncmp_eq {lhs rhs : Nat → Except Fault UInt8} {c : UInt8} (remaining i : Nat)
    (left : lhs i = .ok c) (right : rhs i = .ok c) :
    strncmp signedChar lhs rhs (remaining + 1) i =
      strncmp signedChar lhs rhs remaining (i + 1) := by
  have same := charLess_self signedChar c
  rw [strncmp, left, right, ok_bind, ok_bind, if_neg same, if_neg same]

/-- A read in the array. -/
theorem read_some {i : Nat} {c : UInt8} (there : chars[i]? = some c) : read chars i = .ok c := by
  unfold read
  rw [there]

/-- A read behind it. -/
theorem read_none {i : Nat} (behind : chars[i]? = none) : read chars i = .error .undefined := by
  unfold read
  rw [behind]

end FelineOS.Strtoul
