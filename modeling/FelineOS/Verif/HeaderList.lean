import FelineOS.Spec.PhysMem

/-!
# The header list

Reading and writing slots, and the loops over the header list. `find_eq` gives the three
lookups their result in a linked state, and `Linked.put` and `blocksOf_put` carry the list
and its blocks through a write that leaves the links alone.
-/

namespace FelineOS.PhysMem

open Library

variable {s : Pmm} {l xs ys : List Nat} {i j : Nat} {h : PhysMemHeader}

namespace Pmm

/-! ## Slots -/

@[simp] theorem put_length : (s.put i h).slots.length = s.slots.length := by simp [put]

@[simp] theorem put_chunkNext : (s.put i h).chunkNext = s.chunkNext := rfl

@[simp] theorem put_headersInUse : (s.put i h).headersInUse = s.headersInUse := rfl

@[simp] theorem put_headersAllocated : (s.put i h).headersAllocated = s.headersAllocated := rfl

/-- A stored header is read back, and the other slots are kept. -/
theorem hdr_put (inside : i < s.slots.length) :
    (s.put i h).hdr j = if j = i then h else s.hdr j := by
  unfold hdr put
  by_cases same : j = i
  · subst same
    simp [inside]
  · simp [same, List.getElem?_set_ne (Ne.symm same)]

/-- Storing in one slot keeps the others, whether or not the slot exists. -/
theorem hdr_put_ne (different : j ≠ i) : (s.put i h).hdr j = s.hdr j := by
  unfold hdr put
  simp [List.getElem?_set_ne (Ne.symm different)]

/-- A pointer to a slot can be read. -/
theorem header_eq (inside : i < s.slots.length) : s.header i = .ok (s.hdr i) := by
  simp [header, hdr, inside]

/-- A pointer to a slot can be changed. -/
theorem modify_eq (f : PhysMemHeader → PhysMemHeader) (inside : i < s.slots.length) :
    s.modify i f = .ok (s.put i (f (s.hdr i))) := by
  simp [modify, header_eq inside, pure, Except.pure]

/-- Writing back what is there changes nothing. -/
theorem put_hdr (inside : i < s.slots.length) : s.put i (s.hdr i) = s := by
  have same : s.slots.set i (s.hdr i) = s.slots := by
    simp [hdr, inside]
  unfold put
  rw [same]

/-- The second of two writes to one slot counts. -/
@[simp] theorem put_put (h' : PhysMemHeader) : (s.put i h).put i h' = s.put i h' := by
  simp [put]

@[simp] theorem setInUse_slots (n : Nat) : (s.setInUse n).slots = s.slots := rfl

@[simp] theorem setInUse_hdr (n : Nat) : (s.setInUse n).hdr i = s.hdr i := rfl

end Pmm

/-- A write that returned found its slot. -/
theorem modify_ok {s' : Pmm} {f : PhysMemHeader → PhysMemHeader} (returns : s.modify j f = .ok s') :
    j < s.slots.length ∧ s' = s.put j (f (s.hdr j)) := by
  have inside : j < s.slots.length := by
    by_contra outside
    have missing : s.slots[j]? = none := List.getElem?_eq_none (Nat.le_of_not_lt outside)
    simp [Pmm.modify, Pmm.header, missing] at returns
  rw [Pmm.modify_eq f inside] at returns
  exact ⟨inside, (Except.ok.inj returns).symm⟩

/-! ## Loops over the header list -/

/-- A lookup loop finds the first header of the list that passes its test. -/
theorem findFrom_eq (test : PhysMemHeader → Bool) {xs : List Nat} {before : Option Nat}
    {fuel : Nat} (links : Chain s.next s.prev before xs none)
    (bound : ∀ i ∈ xs, i < s.slots.length) (live : ∀ i ∈ xs, (s.hdr i).headerInUse = true)
    (enough : xs.length < fuel) :
    s.findFrom test fuel xs.head? = .ok (xs.find? fun i => test (s.hdr i)) := by
  induction xs generalizing before fuel with
  | nil =>
    cases fuel with
    | zero => rfl
    | succ fuel => rfl
  | cons x xs ih =>
    obtain ⟨-, forward, rest⟩ := links
    cases fuel with
    | zero => simp at enough
    | succ fuel =>
      have inside := bound x List.mem_cons_self
      have flag := live x List.mem_cons_self
      simp only [List.head?_cons, Pmm.findFrom, Pmm.header_eq inside, ok_bind, flag, assert_true]
      by_cases passes : test (s.hdr x) = true
      · simp [passes, pure, Except.pure]
      · rw [Option.or_none] at forward
        have step : (s.hdr x).next = xs.head? := forward
        rw [if_neg passes, step, ih rest (fun i member => bound i (List.mem_cons_of_mem x member))
          (fun i member => live i (List.mem_cons_of_mem x member)) (by simpa using enough)]
        simp [passes]

/-- `Linked` gives every lookup its result. -/
theorem Linked.find_eq (linked : Linked s l) (test : PhysMemHeader → Bool) :
    s.find test = .ok (l.find? fun i => test (s.hdr i)) := by
  unfold Pmm.find
  rw [linked.first]
  exact findFrom_eq test linked.links linked.bound
    (fun i member => (linked.live i (linked.bound i member)).mpr member)
    (Nat.lt_succ_of_lt linked.room)

/-- The linked headers are those in use. -/
theorem Linked.headerInUse (linked : Linked s l) (member : i ∈ l) :
    (s.hdr i).headerInUse = true := (linked.live i (linked.bound i member)).mpr member

/-! ## Writes that leave the links alone -/

/-- A slot may change everything but its links, its canary and `header_in_use`. -/
theorem Linked.put (linked : Linked s l) (inside : i < s.slots.length)
    (next : h.next = (s.hdr i).next) (prev : h.prev = (s.hdr i).prev)
    (canary : h.canary = (s.hdr i).canary) (flag : h.headerInUse = (s.hdr i).headerInUse) :
    Linked (s.put i h) l := by
  have read := fun j => Pmm.hdr_put (h := h) (j := j) inside
  refine ⟨linked.first, ?_, linked.nodup, ?_, ?_, ?_, linked.inUse, ?_, ?_, ?_, linked.path⟩
  · apply linked.links.congr
    intro j _
    unfold Pmm.next Pmm.prev
    rw [read j]
    split
    · rename_i same
      subst same
      exact ⟨next, prev⟩
    · exact ⟨rfl, rfl⟩
  · simpa using linked.bound
  · intro j bound
    rw [Pmm.put_length] at bound
    rw [← linked.live j bound, read j]
    split
    · rename_i same
      subst same
      rw [flag]
    · rfl
  · intro j bound
    rw [Pmm.put_length] at bound
    rw [← linked.canary j bound, read j]
    split
    · rename_i same
      subst same
      exact canary
    · rfl
  · simpa using linked.allocated
  · simpa using linked.room
  · simpa using linked.chunks

/-- Changing one listed slot leaves the blocks beside it alone. -/
theorem Linked.blocksOf_put_beside (linked : Linked s (xs ++ i :: ys)) :
    (s.put i h).blocksOf xs = s.blocksOf xs ∧ (s.put i h).blocksOf ys = s.blocksOf ys := by
  have apart := (List.nodup_cons.mp (List.nodup_middle.mp linked.nodup)).1
  have beside : ∀ js, (∀ j ∈ js, j ∈ xs ++ ys) → (s.put i h).blocksOf js = s.blocksOf js := by
    intro js listed
    apply List.map_congr_left
    intro j member
    rw [Pmm.hdr_put_ne]
    rintro rfl
    exact apart (listed j member)
  exact ⟨beside xs fun j member => List.mem_append_left _ member,
    beside ys fun j member => List.mem_append_right _ member⟩

/-- The blocks of a list around one of its slots. -/
theorem blocksOf_middle (s : Pmm) (xs ys : List Nat) (i : Nat) :
    s.blocksOf (xs ++ i :: ys) = s.blocksOf xs ++ (s.hdr i).block :: s.blocksOf ys := by
  simp [Pmm.blocksOf]

/-- Changing one listed slot changes one block. -/
theorem Linked.blocksOf_put (linked : Linked s (xs ++ i :: ys)) :
    (s.put i h).blocksOf (xs ++ i :: ys) = s.blocksOf xs ++ h.block :: s.blocksOf ys := by
  obtain ⟨left, right⟩ := linked.blocksOf_put_beside (h := h)
  rw [blocksOf_middle, left, right, Pmm.hdr_put (linked.bound i (by simp)), if_pos rfl]

/-- A linked header's range in a represented state. -/
theorem Rep.header_bounds (rep : Rep s l) (member : i ∈ l) :
    pageSize ∣ (s.hdr i).memory ∧ pageSize ∣ (s.hdr i).size ∧
      (s.hdr i).memory + (s.hdr i).size ≤ roundLimit := by
  have listed : (s.hdr i).block ∈ s.blocksOf l := List.mem_map_of_mem member
  obtain ⟨start, size⟩ := rep.layout.aligned _ listed
  exact ⟨start, size, rep.layout.below _ listed⟩

/-- A linked header starts at a word. -/
theorem Rep.memory_word (rep : Rep s l) (member : i ∈ l) : (s.hdr i).memory < wordLimit := by
  have bounds := (rep.header_bounds member).2.2
  unfold roundLimit at bounds
  unfold wordLimit
  omega

end FelineOS.PhysMem
