import Mathlib.Logic.Function.Basic
import Mathlib.Tactic.Common

/-!
# Functions changed on a range

`overlay f start count g` is the function `f` with the `count` values from `start` on replaced
by those of `g`. A table that is written entry by entry is such a function: the next entry
grows the range by one (`overlay_succ`), and undoing the last one shrinks it again
(`overlay_undo`).
-/

namespace Library

variable {α : Type} {f : Nat → α} {g : Nat → α} {start count i : Nat}

/-- The function with a range of its values replaced. -/
def overlay (f : Nat → α) (start count : Nat) (g : Nat → α) : Nat → α :=
  fun i => if start ≤ i ∧ i < start + count then g (i - start) else f i

/-- Nothing is replaced. -/
@[simp] theorem overlay_zero : overlay f start 0 g = f := by
  funext i
  exact if_neg (by omega)

/-- A value in the range. -/
theorem overlay_inside (first : start ≤ i) (last : i < start + count) :
    overlay f start count g i = g (i - start) := if_pos ⟨first, last⟩

/-- A value outside the range. -/
theorem overlay_outside (outside : i < start ∨ start + count ≤ i) :
    overlay f start count g i = f i := if_neg (by omega)

/-- One more value is replaced. -/
theorem overlay_succ : Function.update (overlay f start count g) (start + count) (g count) =
    overlay f start (count + 1) g := by
  funext i
  rw [Function.update_apply]
  by_cases last : i = start + count
  · subst last
    rw [if_pos rfl, overlay_inside (by omega) (by omega), Nat.add_sub_cancel_left]
  · rw [if_neg last]
    by_cases inside : start ≤ i ∧ i < start + count
    · rw [overlay_inside inside.1 inside.2, overlay_inside inside.1 (by omega)]
    · rw [overlay_outside (by omega), overlay_outside (by omega)]

/-- The last value is put back. -/
theorem overlay_undo : Function.update (overlay f start (count + 1) g) (start + count)
    (f (start + count)) = overlay f start count g := by
  funext i
  rw [Function.update_apply]
  by_cases last : i = start + count
  · subst last
    rw [if_pos rfl, overlay_outside (Or.inr (Nat.le_refl _))]
  · rw [if_neg last]
    by_cases inside : start ≤ i ∧ i < start + count
    · rw [overlay_inside inside.1 inside.2, overlay_inside inside.1 (by omega)]
    · rw [overlay_outside (by omega), overlay_outside (by omega)]

/-- The first value is replaced before the others. -/
theorem overlay_first : overlay (Function.update f start (g 0)) (start + 1) count (fun i => g (i + 1)) =
    overlay f start (count + 1) g := by
  funext i
  by_cases first : i = start
  · subst first
    rw [overlay_outside (Or.inl (Nat.lt_succ_self _)), overlay_inside (Nat.le_refl _) (by omega),
      Function.update_self, Nat.sub_self]
  · by_cases inside : start ≤ i ∧ i < start + (count + 1)
    · rw [overlay_inside inside.1 inside.2, overlay_inside (by omega) (by omega)]
      congr 1
      omega
    · rw [overlay_outside (by omega), overlay_outside (by omega), Function.update_of_ne first]

end Library
