import FelineOS.Kernel.Word

/-!
# The growable vector

`KVector` of `libFeline/include/feline/kvector.h` with `KGeneralAllocator`, as its elements and
its capacity. A move into fresh memory and a move over a destroyed element both carry the whole
element, so what the operations do to the elements is what they do to a list.
-/

namespace FelineOS

/-- `KGeneralAllocator<T>::allocate`: a count that overflows `size_t` aborts, and so does a
`malloc` without memory. -/
def allocate (malloc : Nat → Bool) (sizeofT count : Nat) : Except Fault Unit :=
  if uintptrMax / sizeofT < count then .error .abort
  else if malloc (count * sizeofT) then .ok () else .error .abort

/-- The elements and the number of places for them. -/
structure KVector (α : Type) where
  /-- The constructed elements; their number is `num_items`. -/
  items : List α
  /-- `m_capacity`. -/
  capacity : Nat
  /-- Only allocated places are constructed. -/
  fits : items.length ≤ capacity
  deriving DecidableEq, Repr

namespace KVector

variable {α : Type}

/-- The default constructor. -/
def empty : KVector α := ⟨[], 0, Nat.le_refl 0⟩

/-- `reserve`: the elements are moved only when there are too few places. -/
def reserve (v : KVector α) (malloc : Nat → Bool) (sizeofT num : Nat) :
    Except Fault { w : KVector α // w.items = v.items ∧ num ≤ w.capacity } :=
  if enough : num ≤ v.capacity then .ok ⟨v, rfl, enough⟩
  else do
    allocate malloc sizeofT num
    return ⟨⟨v.items, num, Nat.le_trans v.fits (Nat.le_of_not_le enough)⟩, rfl, Nat.le_refl num⟩

/-- `push_back`. -/
def pushBack (v : KVector α) (malloc : Nat → Bool) (sizeofT : Nat) (item : α) :
    Except Fault (KVector α) := do
  let ⟨w, kept, room⟩ ← v.reserve malloc sizeofT (v.items.length + 1)
  return ⟨w.items ++ [item], w.capacity, by simpa [kept] using room⟩

/-- A write to an element through a pointer into the vector. -/
def modify (v : KVector α) (i : Nat) (f : α → α) : KVector α :=
  ⟨v.items.modify i f, v.capacity, by simpa using v.fits⟩

/-- `erase`: the later elements move down by one place, the capacity stays. -/
def erase (v : KVector α) (pos : Nat) : KVector α :=
  ⟨v.items.eraseIdx pos, v.capacity,
    Nat.le_trans (List.length_eraseIdx_le v.items pos) v.fits⟩

/-- An allocation either succeeds or aborts. -/
theorem allocate_cases (malloc : Nat → Bool) (sizeofT count : Nat) :
    allocate malloc sizeofT count = .error .abort ∨ allocate malloc sizeofT count = .ok () := by
  unfold allocate
  split
  · exact .inl rfl
  · split
    · exact .inr rfl
    · exact .inl rfl

/-- Making room either succeeds or aborts for want of memory. -/
theorem reserve_cases (v : KVector α) (malloc : Nat → Bool) (sizeofT num : Nat) :
    v.reserve malloc sizeofT num = .error .abort ∨
      ∃ w, v.reserve malloc sizeofT num = .ok w := by
  unfold reserve
  by_cases enough : num ≤ v.capacity
  · rw [dif_pos enough]
    exact .inr ⟨_, rfl⟩
  · rw [dif_neg enough]
    rcases allocate_cases malloc sizeofT num with failed | allocated
    · rw [failed]
      exact .inl rfl
    · rw [allocated]
      exact .inr ⟨_, rfl⟩

/-- Growing either appends the element or aborts for want of memory. -/
theorem pushBack_cases (v : KVector α) (malloc : Nat → Bool) (sizeofT : Nat) (item : α) :
    v.pushBack malloc sizeofT item = .error .abort ∨
      ∃ w, v.pushBack malloc sizeofT item = .ok w ∧ w.items = v.items ++ [item] := by
  unfold pushBack
  rcases v.reserve_cases malloc sizeofT (v.items.length + 1) with failed | ⟨⟨w, kept, room⟩, made⟩
  · rw [failed]
    exact .inl rfl
  · rw [made]
    exact .inr ⟨_, rfl, congrArg (· ++ [item]) kept⟩

end KVector

end FelineOS
