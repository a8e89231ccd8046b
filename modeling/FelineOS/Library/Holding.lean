import Mathlib.Data.List.Nodup
import Mathlib.Data.List.Perm.Basic
import Mathlib.Logic.Function.Basic

/-!
# What a client of a heap holds

A heap gives every allocated block its contents. A client starts from any heap, allocates blocks
that are not allocated yet, writes to those it holds and releases them again; whatever else is
allocated stays as it was. A client that holds nothing any more leaves the heap that it started
from.
-/

namespace Library

variable {ι κ : Type}

/-- The blocks that a client holds in a heap, with their contents. -/
structure Holding (start : ι → Option κ) (held : List (ι × κ)) (heap : ι → Option κ) : Prop where
  /-- No block is held twice. -/
  nodup : (held.map Prod.fst).Nodup
  /-- They are new. -/
  new : ∀ block contents, (block, contents) ∈ held → start block = none
  /-- Their contents are in the heap. -/
  inside : ∀ block contents, (block, contents) ∈ held → heap block = some contents
  /-- The other blocks are as at the start. -/
  outside : ∀ block, block ∉ held.map Prod.fst → heap block = start block

namespace Holding

variable {start heap : ι → Option κ} {held other : List (ι × κ)} {block : ι} {contents : κ}

/-- A client that just started holds nothing. -/
theorem nothing (start : ι → Option κ) : Holding start [] start where
  nodup := List.nodup_nil
  new _ _ member := absurd member List.not_mem_nil
  inside _ _ member := absurd member List.not_mem_nil
  outside _ _ := rfl

/-- A client that holds nothing leaves the heap as it was. -/
theorem eq_start (holding : Holding start [] heap) : heap = start :=
  funext fun block => holding.outside block List.not_mem_nil

/-- The order of the blocks does not matter. -/
theorem perm (holding : Holding start held heap) (same : held.Perm other) :
    Holding start other heap where
  nodup := (same.map Prod.fst).nodup_iff.mp holding.nodup
  new block contents member := holding.new block contents (same.mem_iff.mpr member)
  inside block contents member := holding.inside block contents (same.mem_iff.mpr member)
  outside block apart :=
    holding.outside block fun member => apart ((same.map Prod.fst).mem_iff.mp member)

/-- The contents of the first block. -/
theorem first (holding : Holding start ((block, contents) :: held) heap) :
    heap block = some contents :=
  holding.inside block contents (List.mem_cons_self ..)

/-- The first block is none of the others. -/
theorem first_apart (holding : Holding start ((block, contents) :: held) heap) :
    block ∉ held.map Prod.fst :=
  (List.nodup_cons.mp holding.nodup).1

section Updates

variable [DecidableEq ι]

/-- A block that was not allocated is held with what is written to it. -/
theorem allocate (holding : Holding start held heap) (free : heap block = none) (contents : κ) :
    Holding start ((block, contents) :: held) (Function.update heap block (some contents)) := by
  have apart : block ∉ held.map Prod.fst := by
    intro member
    rw [List.mem_map] at member
    have found := member.choose_spec
    have taken := holding.inside member.choose.1 member.choose.2 found.1
    rw [found.2, free] at taken
    cases taken
  constructor
  · exact List.nodup_cons.mpr ⟨apart, holding.nodup⟩
  · intro other written member
    rcases List.mem_cons.mp member with same | member
    · rw [(Prod.mk.inj same).1, ← holding.outside block apart]
      exact free
    · exact holding.new other written member
  · intro other written member
    rcases List.mem_cons.mp member with same | member
    · rw [(Prod.mk.inj same).1, (Prod.mk.inj same).2, Function.update_self]
    · have distinct : other ≠ block := fun same =>
        apart (same ▸ List.mem_map_of_mem (f := Prod.fst) member)
      rw [Function.update_of_ne distinct]
      exact holding.inside other written member
  · intro other apart
    rw [List.map_cons, List.mem_cons, not_or] at apart
    rw [Function.update_of_ne apart.1]
    exact holding.outside other apart.2

/-- The blocks behind the first one are held without it once it is released. -/
theorem release (holding : Holding start ((block, contents) :: held) heap) :
    Holding start held (Function.update heap block none) := by
  have apart := holding.first_apart
  constructor
  · exact (List.nodup_cons.mp holding.nodup).2
  · exact fun other written member => holding.new other written (List.mem_cons_of_mem _ member)
  · intro other written member
    have distinct : other ≠ block := fun same =>
      apart (same ▸ List.mem_map_of_mem (f := Prod.fst) member)
    rw [Function.update_of_ne distinct]
    exact holding.inside other written (List.mem_cons_of_mem _ member)
  · intro other missing
    by_cases same : other = block
    · rw [same, Function.update_self]
      exact (holding.new block contents (List.mem_cons_self ..)).symm
    · rw [Function.update_of_ne same]
      apply holding.outside
      rw [List.map_cons, List.mem_cons, not_or]
      exact ⟨same, missing⟩

/-- Writing to the first block changes its contents. -/
theorem write (holding : Holding start ((block, contents) :: held) heap) (written : κ) :
    Holding start ((block, written) :: held) (Function.update heap block (some written)) := by
  have again := holding.release.allocate (Function.update_self ..) written
  rw [Function.update_idem] at again
  exact again

end Updates

end Holding

end Library
