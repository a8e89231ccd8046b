import Mathlib.Data.List.Lex
import Mathlib.Tactic.Common

/-!
# Where two lists first differ

Two different lists that end with the same terminator differ somewhere before one of them ends, and
their lexicographic order is that of the elements there.
-/

namespace Library

variable {α : Type} {common front x y xs ys us vs : List α} {a b c d z : α} {n : Nat}

/-- A common front does not matter for the order. -/
theorem append_lt_append_iff [LT α] [Std.Irrefl (· < · : α → α → Prop)] :
    common ++ xs < common ++ ys ↔ xs < ys := by
  induction common with
  | nil => rfl
  | cons a common ih => rw [List.cons_append, List.cons_append, List.cons_lt_cons_self, ih]

/-- The first elements that differ decide. -/
theorem lt_iff_of_difference [LT α] [Std.Irrefl (· < · : α → α → Prop)] (different : c ≠ d) :
    common ++ c :: xs < common ++ d :: ys ↔ c < d := by
  rw [append_lt_append_iff, List.cons_lt_cons_iff]
  exact or_iff_left fun same => different same.1

/-- Lists with a first difference are different. -/
theorem ne_of_difference (different : c ≠ d) : common ++ c :: xs ≠ common ++ d :: ys := by
  intro same
  exact different (List.cons.inj (List.append_cancel_left same)).1

/-- Two lists first differ at one place only. -/
theorem difference_unique (different : a ≠ b) (other : c ≠ d)
    (left : front ++ a :: us = common ++ c :: xs) (right : front ++ b :: vs = common ++ d :: ys) :
    a = c ∧ b = d := by
  induction front generalizing common with
  | nil =>
    cases common with
    | nil => exact ⟨(List.cons.inj left).1, (List.cons.inj right).1⟩
    | cons e common =>
      have first : a = e := (List.cons.inj left).1
      have second : b = e := (List.cons.inj right).1
      exact absurd (first.trans second.symm) different
  | cons f front ih =>
    cases common with
    | nil =>
      have first : f = c := (List.cons.inj left).1
      have second : f = d := (List.cons.inj right).1
      exact absurd (first.symm.trans second) other
    | cons e common => exact ih (List.cons.inj left).2 (List.cons.inj right).2

/-- The first elements of two lists behind a common front. -/
theorem take_difference (room : common.length < n) :
    (common ++ c :: xs).take n = common ++ c :: xs.take (n - common.length - 1) := by
  obtain ⟨more, rfl⟩ := Nat.exists_eq_add_of_lt room
  have count : common.length + more + 1 - common.length - 1 = more := by omega
  rw [count, Nat.add_assoc, List.take_length_add_append, List.take_succ_cons]

/-- Two lists behind which the same terminator stands are equal, or they first differ behind a front
without it. -/
theorem eq_or_difference (noneX : z ∉ x) (noneY : z ∉ y) : x = y ∨
    ∃ common c d xs ys, x ++ [z] = common ++ c :: xs ∧ y ++ [z] = common ++ d :: ys ∧ c ≠ d ∧
      z ∉ common := by
  induction x generalizing y with
  | nil =>
    cases y with
    | nil => exact Or.inl rfl
    | cons d y =>
      have other : z ≠ d := fun same => noneY (same ▸ List.mem_cons_self)
      exact Or.inr ⟨[], z, d, [], y ++ [z], rfl, rfl, other, List.not_mem_nil⟩
  | cons c x ih =>
    have first : c ≠ z := fun same => noneX (same ▸ List.mem_cons_self)
    cases y with
    | nil => exact Or.inr ⟨[], c, z, x ++ [z], [], rfl, rfl, first, List.not_mem_nil⟩
    | cons d y =>
      by_cases same : c = d
      · subst same
        rcases ih (fun member => noneX (List.mem_cons_of_mem c member))
          (fun member => noneY (List.mem_cons_of_mem c member)) with
          equal | ⟨common, c', d', xs, ys, left, right, different, none⟩
        · exact Or.inl (equal ▸ rfl)
        · refine Or.inr ⟨c :: common, c', d', xs, ys, ?_, ?_, different, ?_⟩
          · rw [List.cons_append, left, List.cons_append]
          · rw [List.cons_append, right, List.cons_append]
          · intro member
            rcases List.mem_cons.mp member with here | later
            · exact first here.symm
            · exact none later
      · exact Or.inr ⟨[], c, d, x ++ [z], y ++ [z], rfl, rfl, same, List.not_mem_nil⟩

end Library
