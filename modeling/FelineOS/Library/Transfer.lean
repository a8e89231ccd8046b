import Mathlib.Data.List.Range
import Mathlib.Logic.Function.Basic

/-!
# Copying places of a memory one by one

A loop of assignments `m[target i] = m[source i]` over a list of indices. Whatever the order of
the indices is, the loop copies what was in the memory before it as long as no assignment
overwrites a place that a later one reads.
-/

namespace Library

variable {α β ι : Type} {target source : ι → α} {order : List ι} {a : α}

/-- No index writes what a later one reads, or writes again. -/
def Undisturbed (target source : ι → α) (order : List ι) : Prop :=
  order.Pairwise fun i j => target i ≠ source j ∧ target i ≠ target j

section Loop

variable [DecidableEq α]

/-- The assignments for a list of indices, one after the other. -/
def transfer (target source : ι → α) (order : List ι) (m : α → β) : α → β :=
  order.foldl (fun m i => Function.update m (target i) (m (source i))) m

/-- The first assignment, and the loop over the others. -/
@[simp] theorem transfer_cons (i : ι) (m : α → β) : transfer target source (i :: order) m =
    transfer target source order (Function.update m (target i) (m (source i))) := rfl

/-- A place that is no target keeps what it holds. -/
theorem transfer_frame (untouched : ∀ i ∈ order, target i ≠ a) (m : α → β) :
    transfer target source order m a = m a := by
  induction order generalizing m with
  | nil => rfl
  | cons i order ih =>
    rw [transfer_cons, ih (fun j later => untouched j (List.mem_cons_of_mem i later))]
    exact Function.update_of_ne (untouched i List.mem_cons_self).symm _ _

/-- A target holds what its source held before the loop. -/
theorem transfer_target (undisturbed : Undisturbed target source order) {i : ι}
    (member : i ∈ order) (m : α → β) :
    transfer target source order m (target i) = m (source i) := by
  induction order generalizing m with
  | nil => cases member
  | cons first order ih =>
    have later := List.pairwise_cons.mp undisturbed
    rw [transfer_cons]
    rcases List.mem_cons.mp member with rfl | behind
    · rw [transfer_frame (fun j inside => (later.1 j inside).2.symm)]
      exact Function.update_self _ _ _
    · rw [ih later.2 behind]
      exact Function.update_of_ne (later.1 i behind).1.symm _ _

/-! ## Checked accesses -/

section Checked

variable {ε : Type} (inside : α → Prop) [DecidablePred inside] (fault : ε)

/-- A place is read if it is inside. -/
def readInside (m : α → β) (a : α) : Except ε β := if inside a then .ok (m a) else .error fault

/-- A place is written if it is inside. -/
def writeInside (m : α → β) (a : α) (value : β) : Except ε (α → β) :=
  if inside a then .ok (Function.update m a value) else .error fault

/-- The loop of `transfer` with checked accesses. -/
def transferInside (target source : ι → α) (order : List ι) (m : α → β) : Except ε (α → β) :=
  order.foldlM (fun m i => do
    let value ← readInside inside fault m (source i)
    writeInside inside fault m (target i) value) m

/-- A loop that assigns the same value to the places of a list of indices, checked. -/
def fillInside (target : ι → α) (value : β) (order : List ι) (m : α → β) : Except ε (α → β) :=
  order.foldlM (fun m i => writeInside inside fault m (target i) value) m

variable {inside}

/-- With all places inside, the checks pass. -/
theorem transferInside_eq (targets : ∀ i ∈ order, inside (target i))
    (sources : ∀ i ∈ order, inside (source i)) (m : α → β) :
    transferInside inside fault target source order m = .ok (transfer target source order m) := by
  induction order generalizing m with
  | nil => rfl
  | cons i order ih =>
    unfold transferInside at ih ⊢
    rw [List.foldlM_cons, readInside, if_pos (sources i List.mem_cons_self), transfer_cons]
    show (writeInside inside fault m (target i) (m (source i)) >>= _) = _
    rw [writeInside, if_pos (targets i List.mem_cons_self)]
    exact ih (fun j later => targets j (List.mem_cons_of_mem i later))
      (fun j later => sources j (List.mem_cons_of_mem i later)) _

/-- With all places inside, the value is in all of them afterwards, and nowhere else is a change. -/
theorem fillInside_spec (value : β) (targets : ∀ i ∈ order, inside (target i)) (m : α → β) :
    ∃ filled, fillInside inside fault target value order m = .ok filled ∧
      (∀ i ∈ order, filled (target i) = value) ∧
      ∀ a, (∀ i ∈ order, target i ≠ a) → filled a = m a := by
  induction order generalizing m with
  | nil => exact ⟨m, rfl, fun i member => absurd member List.not_mem_nil, fun a _ => rfl⟩
  | cons i order ih =>
    obtain ⟨filled, same, values, others⟩ := ih
      (fun j later => targets j (List.mem_cons_of_mem i later)) (Function.update m (target i) value)
    refine ⟨filled, ?_, ?_, ?_⟩
    · unfold fillInside at same ⊢
      rw [List.foldlM_cons, writeInside, if_pos (targets i List.mem_cons_self)]
      exact same
    · intro j member
      by_cases again : ∃ k ∈ order, target k = target j
      · obtain ⟨k, later, place⟩ := again
        rw [← place]
        exact values k later
      · have last : ∀ k ∈ order, target k ≠ target j := fun k later place => again ⟨k, later, place⟩
        rw [others _ last]
        rcases List.mem_cons.mp member with rfl | later
        · exact Function.update_self _ _ _
        · exact absurd rfl (last j later)
    · intro a untouched
      rw [others a (fun j later => untouched j (List.mem_cons_of_mem i later))]
      exact Function.update_of_ne (untouched i List.mem_cons_self).symm _ _

end Checked

end Loop

/-! ## Upwards and downwards -/

variable {size : Nat} {target source : Nat → α}

/-- Copying upwards is undisturbed when no place is read after a lower one was written over it. -/
theorem undisturbed_range
    (apart : ∀ i j, i < j → j < size → target i ≠ source j ∧ target i ≠ target j) :
    Undisturbed target source (List.range size) := by
  have increasing : (List.range size).Pairwise (· < ·) := List.pairwise_lt_range
  apply increasing.imp_of_mem
  intro i j _ inside ordered
  exact apart i j ordered (List.mem_range.mp inside)

/-- Copying downwards is undisturbed when no place is read after a higher one was written over
it. -/
theorem undisturbed_reverse_range
    (apart : ∀ i j, j < i → i < size → target i ≠ source j ∧ target i ≠ target j) :
    Undisturbed target source (List.range size).reverse := by
  have increasing : (List.range size).Pairwise (· < ·) := List.pairwise_lt_range
  apply List.pairwise_reverse.mpr
  apply increasing.imp_of_mem
  intro j i _ inside ordered
  exact apart i j ordered (List.mem_range.mp inside)

end Library
