import FelineOS.Libc.Memmove

/-!
# `memmove` copies what was there

Each direction is used for the overlaps that it leaves undisturbed, so the bytes that arrive are
those from before the call.
-/

namespace FelineOS.Memmove

open Library

variable {dst src size : Nat} {order : List Nat}

/-- Places of a range that does not wrap. -/
theorem wrap_place {base i : Nat} (fits : base + size ≤ wordLimit) (inside : i < size) :
    wrap (base + i) = base + i := wrap_of_lt (by omega)

/-- The loop upwards reads bytes that are still the original ones. -/
theorem undisturbed_upwards (dstFits : dst + size ≤ wordLimit) (srcFits : src + size ≤ wordLimit)
    (below : dst < src) : Undisturbed (fun i => wrap (dst + i)) (fun i => wrap (src + i))
      (List.range size) := by
  apply undisturbed_range
  intro i j ordered inside
  rw [wrap_place dstFits (Nat.lt_trans ordered inside), wrap_place srcFits inside,
    wrap_place dstFits inside]
  omega

/-- So does the loop downwards. -/
theorem undisturbed_downwards (dstFits : dst + size ≤ wordLimit)
    (srcFits : src + size ≤ wordLimit) (above : src ≤ dst) :
    Undisturbed (fun i => wrap (dst + i)) (fun i => wrap (src + i)) (List.range size).reverse := by
  apply undisturbed_reverse_range
  intro i j ordered inside
  rw [wrap_place dstFits inside, wrap_place srcFits (Nat.lt_trans ordered inside),
    wrap_place dstFits (Nat.lt_trans ordered inside)]
  omega

/-- Assignments in an undisturbed order move the whole range and nothing else. -/
theorem assign_spec (dstFits : dst + size ≤ wordLimit) (srcFits : src + size ≤ wordLimit)
    (undisturbed : Undisturbed (fun i => wrap (dst + i)) (fun i => wrap (src + i)) order)
    (all : ∀ i, i ∈ order ↔ i < size) (memory : Bytes) :
    (∀ i < size, assign dst src order memory (dst + i) = memory (src + i)) ∧
      ∀ a, a < dst ∨ dst + size ≤ a → assign dst src order memory a = memory a := by
  constructor
  · intro i inside
    have moved := transfer_target undisturbed ((all i).mpr inside) memory
    rw [wrap_place dstFits inside, wrap_place srcFits inside] at moved
    exact moved
  · intro a outside
    apply transfer_frame
    intro i member
    have inside := (all i).mp member
    rw [wrap_place dstFits inside]
    omega

/-- `memmove` copies the original bytes, however the ranges overlap, and changes no others. -/
theorem memmove_moves (memory : Bytes) (dst src size : Nat) (dstFits : dst + size ≤ wordLimit)
    (srcFits : src + size ≤ wordLimit) : (memmove memory dst src size).2 = dst ∧
      (∀ i < size, (memmove memory dst src size).1 (dst + i) = memory (src + i)) ∧
      ∀ a, a < dst ∨ dst + size ≤ a → (memmove memory dst src size).1 a = memory a := by
  unfold memmove
  by_cases below : dst < src
  · rw [if_pos below]
    exact ⟨rfl, assign_spec dstFits srcFits (undisturbed_upwards dstFits srcFits below)
      (fun i => List.mem_range) memory⟩
  · rw [if_neg below]
    have all (i : Nat) : i ∈ (List.range size).reverse ↔ i < size := by
      rw [List.mem_reverse, List.mem_range]
    exact ⟨rfl, assign_spec dstFits srcFits
      (undisturbed_downwards dstFits srcFits (Nat.le_of_not_lt below)) all memory⟩

/-- A range moved by one place onto itself. -/
theorem memmove_moves_overlapping :
    (memmove (fun a => UInt8.ofNat a) 9 8 3).1 11 = 10 ∧
      (memmove (fun a => UInt8.ofNat a) 9 8 3).1 8 = 8 := by
  have moves := memmove_moves (fun a => UInt8.ofNat a) 9 8 3 (by decide) (by decide)
  exact ⟨moves.2.1 2 (by decide), moves.2.2 8 (Or.inl (by decide))⟩

end FelineOS.Memmove
