import FelineOS.Library.Ledger
import FelineOS.Verif.HeaderList

/-!
# Releasing memory

Both halves of `merge_adjacent_headers` do the same to the list: a header absorbs its
follower. `Pmm.absorb` is the state that leaves, whichever of the two was freed.
`freeMemArea_spec` describes the whole call: nothing found, an explicit abort, a header that
is free already, or a header freed and merged with its neighbours.
-/

namespace FelineOS.PhysMem

open Library

variable {s : Pmm} {l xs ys : List Nat} {i n : Nat}

/-- Writes to different slots can be swapped. -/
theorem Pmm.put_comm {j : Nat} {h k : PhysMemHeader} (different : i ≠ j) :
    (s.put i h).put j k = (s.put j k).put i h := by
  unfold Pmm.put
  simp only
  rw [List.set_comm _ _ different]

/-- The state after the header `i` has absorbed its follower `n`. -/
def Pmm.absorb (s : Pmm) (i n : Nat) : Pmm :=
  let s' := (s.put n { s.hdr n with headerInUse := false }).put i
    { s.hdr i with size := (s.hdr i).size + (s.hdr n).size, next := s.next n }
  let s' := match s.next n with
    | none => s'
    | some m => s'.put m { s.hdr m with prev := some i }
  s'.setInUse (s.headersInUse - 1)

/-- A merge keeps the slots of the pool. -/
@[simp] theorem absorb_length : (s.absorb i n).slots.length = s.slots.length := by
  unfold Pmm.absorb
  cases s.next n <;> simp

/-- A merge keeps the chunk chain. -/
@[simp] theorem absorb_chunkNext : (s.absorb i n).chunkNext = s.chunkNext := by
  unfold Pmm.absorb
  cases s.next n <;> rfl

/-- A merge keeps the start of the list. -/
@[simp] theorem absorb_firstHeader : (s.absorb i n).firstHeader = s.firstHeader := by
  unfold Pmm.absorb
  cases s.next n <;> rfl

/-- A merge counts one header less. -/
@[simp] theorem absorb_headersInUse : (s.absorb i n).headersInUse = s.headersInUse - 1 := by
  unfold Pmm.absorb
  cases s.next n <;> rfl

/-- A merge allocates no slots. -/
@[simp] theorem absorb_headersAllocated :
    (s.absorb i n).headersAllocated = s.headersAllocated := by
  unfold Pmm.absorb
  cases s.next n <;> rfl

section Absorb

variable (linked : Linked s (xs ++ i :: n :: ys))

include linked

/-- The two headers of a merge are different, and neither is beside them. -/
theorem Linked.absorb_ne : i ≠ n ∧ ∀ j ∈ xs ++ ys, j ≠ i ∧ j ≠ n := by
  have apart := List.nodup_middle.mp linked.nodup
  obtain ⟨iApart, rest⟩ := List.nodup_cons.mp apart
  have nApart := (List.nodup_cons.mp (List.nodup_middle.mp rest)).1
  refine ⟨?_, ?_⟩
  · rintro rfl
    exact iApart (by simp)
  · intro j member
    refine ⟨?_, ?_⟩
    · rintro rfl
      apply iApart
      rcases List.mem_append.mp member with left | right
      · simp [left]
      · simp [right]
    · rintro rfl
      exact nApart member

/-- The third header of a merge. -/
theorem Linked.third (j : Nat) : s.next n = some j ↔ ys.head? = some j := by
  have regrouped : xs ++ i :: n :: ys = (xs ++ [i]) ++ n :: ys := by simp
  have links := linked.links
  rw [regrouped] at links
  rw [links.next_eq, Option.or_none]

/-- What a merge leaves in each slot. -/
theorem Linked.hdr_absorb (j : Nat) : (s.absorb i n).hdr j =
    if j = i then { s.hdr i with size := (s.hdr i).size + (s.hdr n).size, next := s.next n }
    else if j = n then { s.hdr n with headerInUse := false }
    else if ys.head? = some j then { s.hdr j with prev := some i }
    else s.hdr j := by
  obtain ⟨different, beside⟩ := linked.absorb_ne
  have iInside := linked.bound i (by simp)
  have nInside := linked.bound n (by simp)
  have third := linked.third
  unfold Pmm.absorb
  cases follower : s.next n with
  | none =>
    have nobody : ys.head? ≠ some j := fun head => by
      rw [(third j).mpr head] at follower
      contradiction
    simp only [Pmm.setInUse_hdr]
    rw [Pmm.hdr_put (by simpa using iInside), Pmm.hdr_put nInside, if_neg nobody]
  | some m =>
    have head := (third m).mp follower
    have listed : m ∈ ys := List.mem_of_mem_head? head
    obtain ⟨notI, notN⟩ := beside m (List.mem_append_right _ listed)
    have mInside := linked.bound m (by simp [listed])
    simp only [Pmm.setInUse_hdr]
    rw [Pmm.hdr_put (by simpa using mInside), Pmm.hdr_put (by simpa using iInside),
      Pmm.hdr_put nInside, head]
    by_cases atM : j = m
    · subst atM
      simp [notI, notN]
    · have away : ¬ some m = some j := fun same => atM (Option.some.inj same).symm
      rw [if_neg atM, if_neg away]

/-- A slot beside the two keeps everything but its back link. -/
theorem Linked.hdr_absorb_ne {j : Nat} (notI : j ≠ i) (notN : j ≠ n) :
    ∃ back, (s.absorb i n).hdr j = { s.hdr j with prev := back } ∧
      (ys.head? ≠ some j → back = (s.hdr j).prev) ∧ (ys.head? = some j → back = some i) := by
  rw [linked.hdr_absorb, if_neg notI, if_neg notN]
  by_cases follower : ys.head? = some j
  · exact ⟨some i, by rw [if_pos follower], fun away => absurd follower away, fun _ => rfl⟩
  · exact ⟨(s.hdr j).prev, by rw [if_neg follower], fun _ => rfl,
      fun here => absurd here follower⟩

/-- The links after a merge. -/
theorem Linked.absorb_links :
    Chain (s.absorb i n).next (s.absorb i n).prev none (xs ++ i :: ys) none := by
  obtain ⟨different, beside⟩ := linked.absorb_ne
  have atI := linked.hdr_absorb i
  rw [if_pos rfl] at atI
  have nextOf : ∀ j ∈ xs ++ ys, (s.absorb i n).next j = s.next j := by
    intro j member
    obtain ⟨notI, notN⟩ := beside j member
    obtain ⟨back, eq, -⟩ := linked.hdr_absorb_ne notI notN
    unfold Pmm.next
    rw [eq]
  apply linked.links.remove
  · unfold Pmm.next
    rw [atI]
    rfl
  · unfold Pmm.prev
    rw [atI]
  · intro j head
    have member : j ∈ xs ++ ys := by simp [List.mem_of_mem_head? head]
    obtain ⟨notI, notN⟩ := beside j member
    obtain ⟨back, eq, -, here⟩ := linked.hdr_absorb_ne notI notN
    refine ⟨?_, nextOf j member⟩
    unfold Pmm.prev
    rw [eq]
    exact here head
  · intro j member
    have listed : j ∈ xs ++ ys := by
      rcases List.mem_append.mp member with left | right
      · simp [left]
      · simp [List.mem_of_mem_tail right]
    obtain ⟨notI, notN⟩ := beside j listed
    obtain ⟨back, eq, same, -⟩ := linked.hdr_absorb_ne notI notN
    refine ⟨nextOf j listed, ?_⟩
    unfold Pmm.prev
    rw [eq]
    apply same
    intro head
    -- The third header is in neither remaining part.
    have apart := linked.nodup
    rw [show xs ++ i :: n :: ys = (xs ++ [i, n]) ++ ys by simp] at apart
    cases ys with
    | nil => simp at head
    | cons y ys =>
      obtain rfl : y = j := by simpa using head
      have once := (List.nodup_cons.mp (List.nodup_middle.mp apart)).1
      apply once
      rcases List.mem_append.mp member with left | right
      · simp [left]
      · exact List.mem_append_right _ right

/-- A merge keeps the header list without the absorbed header. -/
theorem Linked.absorb : Linked (s.absorb i n) (xs ++ i :: ys) := by
  obtain ⟨different, beside⟩ := linked.absorb_ne
  have removed : (xs ++ i :: n :: ys).Perm (n :: (xs ++ i :: ys)) := by
    have regrouped : xs ++ i :: n :: ys = (xs ++ [i]) ++ n :: ys := by simp
    rw [regrouped]
    exact List.perm_middle.trans (by simp)
  have count := removed.length_eq
  rw [List.length_cons] at count
  have unlisted : n ∉ xs ++ i :: ys := (List.nodup_cons.mp (removed.nodup_iff.mp linked.nodup)).1
  have atN : (s.absorb i n).hdr n = { s.hdr n with headerInUse := false } := by
    rw [linked.hdr_absorb, if_neg (Ne.symm different), if_pos rfl]
  have kept : ∀ j, j ≠ n → ((s.absorb i n).hdr j).headerInUse = (s.hdr j).headerInUse ∧
      ((s.absorb i n).hdr j).canary = (s.hdr j).canary := by
    intro j notN
    by_cases atI : j = i
    · subst atI
      rw [linked.hdr_absorb, if_pos rfl]
      exact ⟨rfl, rfl⟩
    · obtain ⟨back, eq, -⟩ := linked.hdr_absorb_ne atI notN
      rw [eq]
      exact ⟨rfl, rfl⟩
  have room := linked.room
  refine ⟨?_, linked.absorb_links, ?_, ?_, ?_, ?_, ?_, ?_, ?_, ?_, ?_⟩
  · rw [absorb_firstHeader, linked.first]
    cases xs <;> rfl
  · exact (List.nodup_cons.mp (removed.nodup_iff.mp linked.nodup)).2
  · intro j member
    rw [absorb_length]
    exact linked.bound j (removed.mem_iff.mpr (List.mem_cons_of_mem n member))
  · intro j bound
    rw [absorb_length] at bound
    by_cases gone : j = n
    · subst gone
      rw [atN]
      simp [unlisted]
    · rw [(kept j gone).1, linked.live j bound, removed.mem_iff, List.mem_cons]
      simp [gone]
  · intro j bound
    rw [absorb_length] at bound
    by_cases gone : j = n
    · subst gone
      rw [atN]
      exact linked.canary j bound
    · rw [(kept j gone).2]
      exact linked.canary j bound
  · rw [absorb_headersInUse, linked.inUse, count]
    rfl
  · rw [absorb_headersAllocated, absorb_length]
    exact linked.allocated
  · rw [absorb_length]
    omega
  · rw [absorb_length, absorb_chunkNext]
    exact linked.chunks
  · rw [absorb_chunkNext]
    exact linked.path

/-- A merge joins the two blocks and leaves the other blocks alone. -/
theorem Linked.blocksOf_absorb : (s.absorb i n).blocksOf (xs ++ i :: ys) =
    s.blocksOf xs ++ (s.hdr i).block.join (s.hdr n).block :: s.blocksOf ys := by
  obtain ⟨different, beside⟩ := linked.absorb_ne
  have same : ∀ js, (∀ j ∈ js, j ∈ xs ++ ys) → (s.absorb i n).blocksOf js = s.blocksOf js := by
    intro js listed
    apply List.map_congr_left
    intro j member
    obtain ⟨notI, notN⟩ := beside j (listed j member)
    obtain ⟨back, eq, -⟩ := linked.hdr_absorb_ne notI notN
    rw [eq]
    rfl
  have left := same xs fun j member => List.mem_append_left _ member
  have right := same ys fun j member => List.mem_append_right _ member
  simp only [Pmm.blocksOf, List.map_append, List.map_cons] at left right ⊢
  rw [left, right, linked.hdr_absorb, if_pos rfl]
  rfl

end Absorb

/-! ## The two halves -/

section Halves

variable (rep : Rep s (xs ++ i :: n :: ys))

include rep

/-- The end of a linked header can be computed. -/
theorem Rep.pageAdd_stop {j : Nat} (member : j ∈ xs ++ i :: n :: ys) :
    pageAdd (s.hdr j).memory (s.hdr j).size = .ok (s.hdr j).block.stop := by
  have bound := (rep.header_bounds member).2.2
  apply pageAdd_ok
  unfold roundLimit at bound
  unfold uintptrMax
  omega

/-- The sizes of two neighbours that touch can be added. -/
theorem Rep.pageAdd_sizes (touch : (s.hdr i).block.stop = (s.hdr n).block.start) :
    pageAdd (s.hdr i).size (s.hdr n).size = .ok ((s.hdr i).size + (s.hdr n).size) := by
  have bound := (rep.header_bounds (i := n) (by simp)).2.2
  simp only [PhysMemHeader.block, Block.stop] at touch
  apply pageAdd_ok
  unfold roundLimit at bound
  unfold uintptrMax
  omega

/-- The links between the two headers. -/
theorem Rep.neighbours : (s.hdr i).next = some n ∧ (s.hdr n).prev = some i := by
  have forward : s.next i = some n := by simpa using rep.links.next_eq
  exact ⟨forward, (rep.links.prev_of_next (by simp) forward).2⟩

/-- The header behind the two is another header. -/
theorem Rep.follower_beside {m : Nat} (follower : (s.hdr n).next = some m) :
    m ≠ i ∧ m ≠ n ∧ m < s.slots.length := by
  have listed : m ∈ ys := List.mem_of_mem_head? ((rep.third m).mp follower)
  obtain ⟨notI, notN⟩ := rep.absorb_ne.2 m (List.mem_append_right _ listed)
  exact ⟨notI, notN, rep.bound m (by simp [listed])⟩

/-- The first half of `merge_adjacent_headers`, called with the first header. -/
theorem Rep.mergeNext_eq : s.mergeNext i =
    .ok (if (s.hdr n).block.used = false ∧ (s.hdr i).block.stop = (s.hdr n).block.start then
      s.absorb i n else s) := by
  have iInside := rep.bound i (by simp)
  have nInside := rep.bound n (by simp)
  have different := rep.absorb_ne.1
  have link := rep.neighbours.1
  unfold Pmm.mergeNext
  simp only [Pmm.header_eq iInside, Pmm.header_eq nInside, ok_bind, link,
    rep.pageAdd_stop (j := i) (by simp)]
  by_cases used : (s.hdr n).inUse = true
  · simp [used, PhysMemHeader.block, pure, Except.pure]
  · have idle : (s.hdr n).inUse = false := by simpa using used
    by_cases touch : (s.hdr i).block.stop = (s.hdr n).block.start
    · have start : (s.hdr i).block.stop = (s.hdr n).memory := touch
      rw [if_neg used, if_pos start, if_pos ⟨idle, touch⟩, Pmm.modify_eq _ nInside, ok_bind,
        rep.pageAdd_sizes touch, ok_bind, Pmm.modify_eq _ (by simpa using iInside), ok_bind]
      unfold Pmm.absorb Pmm.next
      cases follower : (s.hdr n).next with
      | none =>
        simp [Pmm.modify_eq, iInside, nInside, Pmm.hdr_put, different, follower, pure, Except.pure]
      | some m =>
        obtain ⟨notI, notN, mInside⟩ := rep.follower_beside follower
        simp [Pmm.modify_eq, iInside, nInside, mInside, Pmm.hdr_put, different, notI, notN,
          Ne.symm notI, Pmm.put_comm notI, follower, pure, Except.pure]
    · have start : ¬ (s.hdr i).block.stop = (s.hdr n).memory := touch
      rw [if_neg used, if_neg start, if_neg (fun both => touch both.2)]
      rfl

/-- The second half of `merge_adjacent_headers`, called with the second header. -/
theorem Rep.mergePrev_eq : s.mergePrev n =
    .ok (if (s.hdr i).block.used = false ∧ (s.hdr i).block.stop = (s.hdr n).block.start then
      s.absorb i n else s) := by
  have iInside := rep.bound i (by simp)
  have nInside := rep.bound n (by simp)
  have different := rep.absorb_ne.1
  have link := rep.neighbours.2
  unfold Pmm.mergePrev
  simp only [Pmm.header_eq iInside, Pmm.header_eq nInside, ok_bind, link,
    rep.pageAdd_stop (j := i) (by simp)]
  by_cases used : (s.hdr i).inUse = true
  · simp [used, PhysMemHeader.block, pure, Except.pure]
  · have idle : (s.hdr i).inUse = false := by simpa using used
    by_cases touch : (s.hdr i).block.stop = (s.hdr n).block.start
    · have start : (s.hdr i).block.stop = (s.hdr n).memory := touch
      rw [if_neg used, if_pos start, if_pos ⟨idle, touch⟩, Pmm.modify_eq _ nInside, ok_bind,
        rep.pageAdd_sizes touch, ok_bind, Pmm.modify_eq _ (by simpa using iInside), ok_bind]
      unfold Pmm.absorb Pmm.next
      cases follower : (s.hdr n).next with
      | none =>
        simp [Pmm.modify_eq, iInside, nInside, Pmm.hdr_put, different, follower, pure, Except.pure]
      | some m =>
        obtain ⟨notI, notN, mInside⟩ := rep.follower_beside follower
        simp [Pmm.modify_eq, iInside, nInside, mInside, Pmm.hdr_put, different, notI, notN,
          follower, pure, Except.pure]
    · have start : ¬ (s.hdr i).block.stop = (s.hdr n).memory := touch
      rw [if_neg used, if_neg start, if_neg (fun both => touch both.2)]
      rfl

/-- Merging headers whose blocks can be merged keeps the representation. -/
theorem Rep.absorb (touch : (s.hdr i).block.stop = (s.hdr n).block.start) :
    Rep (s.absorb i n) (xs ++ i :: ys) := by
  refine ⟨rep.toLinked.absorb, ?_⟩
  have layout := rep.layout
  rw [rep.blocksOf_absorb]
  simp only [Pmm.blocksOf, List.map_append, List.map_cons] at layout ⊢
  exact layout.join touch

end Halves

/-- The first half merges the block of the freed header with the following one. -/
theorem Rep.mergeNext_spec (rep : Rep s (xs ++ i :: ys)) (free : (s.hdr i).inUse = false) :
    ∃ s' ys', s.mergeNext i = .ok s' ∧ Rep s' (xs ++ i :: ys') ∧ s'.chunkNext = s.chunkNext ∧
      s'.blocksOf (xs ++ i :: ys') = s.blocksOf xs ++ mergeHead (s.blocksOf (i :: ys)) ∧
      (s'.hdr i).inUse = false := by
  have kept : s.blocksOf (xs ++ i :: ys) = s.blocksOf xs ++ s.blocksOf (i :: ys) := by
    simp [Pmm.blocksOf]
  cases ys with
  | nil =>
    refine ⟨s, [], ?_, rep, rfl, kept, free⟩
    have link : (s.hdr i).next = none := rep.links.next_eq
    simp [Pmm.mergeNext, Pmm.header_eq (rep.bound i (by simp)), link, pure, Except.pure]
  | cons n ys =>
    have head : mergeHead (s.blocksOf (i :: n :: ys)) =
        if (s.hdr i).block.Mergeable (s.hdr n).block then
          (s.hdr i).block.join (s.hdr n).block :: s.blocksOf ys
        else s.blocksOf (i :: n :: ys) := rfl
    rw [rep.mergeNext_eq]
    by_cases merges : (s.hdr n).block.used = false ∧
        (s.hdr i).block.stop = (s.hdr n).block.start
    · refine ⟨_, ys, rfl, ?_⟩
      rw [if_pos merges, head, if_pos ⟨free, merges⟩]
      refine ⟨rep.absorb merges.2, absorb_chunkNext, rep.blocksOf_absorb, ?_⟩
      rw [rep.hdr_absorb, if_pos rfl]
      exact free
    · refine ⟨_, n :: ys, rfl, ?_⟩
      rw [if_neg merges, head, if_neg (fun mergeable => merges mergeable.2)]
      exact ⟨rep, rfl, kept, free⟩

/-- The second half merges it with the preceding one. -/
theorem Rep.mergePrev_spec (rep : Rep s (xs ++ i :: ys)) (free : (s.hdr i).inUse = false) :
    ∃ s' l', s.mergePrev i = .ok s' ∧ Rep s' l' ∧ s'.chunkNext = s.chunkNext ∧
      s'.blocksOf l' = mergeSeam (s.blocksOf xs) (s.blocksOf (i :: ys)) := by
  rcases List.eq_nil_or_concat xs with rfl | ⟨init, p, rfl⟩
  · refine ⟨s, i :: ys, ?_, rep, rfl, rfl⟩
    have links : Chain s.next s.prev none ([] ++ i :: ys) none := rep.links
    have link : (s.hdr i).prev = none := links.prev_eq
    simp [Pmm.mergePrev, Pmm.header_eq (rep.bound i (by simp)), link, pure, Except.pure]
  · have regrouped : init.concat p ++ i :: ys = init ++ p :: i :: ys := by simp
    rw [regrouped] at rep
    have seam : mergeSeam (s.blocksOf (init.concat p)) (s.blocksOf (i :: ys)) =
        s.blocksOf init ++ if (s.hdr p).block.Mergeable (s.hdr i).block then
          (s.hdr p).block.join (s.hdr i).block :: s.blocksOf ys
        else s.blocksOf (p :: i :: ys) := by
      simp only [Pmm.blocksOf, List.concat_eq_append, List.map_append, List.map_cons,
        List.map_nil, mergeSeam_concat]
      rfl
    rw [rep.mergePrev_eq, seam]
    by_cases merges : (s.hdr p).block.used = false ∧
        (s.hdr p).block.stop = (s.hdr i).block.start
    · refine ⟨_, init ++ p :: ys, rfl, ?_⟩
      rw [if_pos merges, if_pos ⟨merges.1, free, merges.2⟩]
      exact ⟨rep.absorb merges.2, absorb_chunkNext, rep.blocksOf_absorb⟩
    · refine ⟨_, init ++ p :: i :: ys, rfl, ?_⟩
      rw [if_neg merges, if_neg (fun mergeable => merges ⟨mergeable.1, mergeable.2.2⟩)]
      exact ⟨rep, rfl, by simp [Pmm.blocksOf]⟩

/-- `merge_adjacent_headers` of a header that was just freed. -/
theorem Rep.mergeAdjacentHeaders_spec (rep : Rep s (xs ++ i :: ys))
    (free : (s.hdr i).inUse = false) :
    ∃ s' l', s.mergeAdjacentHeaders i = .ok s' ∧ Rep s' l' ∧ s'.chunkNext = s.chunkNext ∧
      s'.blocksOf l' = mergeSeam (s.blocksOf xs) (mergeHead (s.blocksOf (i :: ys))) := by
  obtain ⟨s₁, ys₁, first, rep₁, chunks₁, blocks₁, free₁⟩ := rep.mergeNext_spec free
  obtain ⟨s₂, l₂, second, rep₂, chunks₂, blocks₂⟩ := rep₁.mergePrev_spec free₁
  have parts : s₁.blocksOf xs = s.blocksOf xs ∧
      s₁.blocksOf (i :: ys₁) = mergeHead (s.blocksOf (i :: ys)) := by
    apply List.append_inj
    · rw [← blocks₁]
      simp [Pmm.blocksOf]
    · simp [Pmm.blocksOf]
  refine ⟨s₂, l₂, ?_, rep₂, chunks₂.trans chunks₁, ?_⟩
  · unfold Pmm.mergeAdjacentHeaders
    rw [first, ok_bind, second]
  · rw [blocks₂, parts.1, parts.2]

/-! ## The call -/

/-- The header the lookup of `free_mem_area` stops at. -/
def Pmm.holder (s : Pmm) (l : List Nat) (addr : Nat) : Option Nat :=
  l.find? fun i => Pmm.PhysMemHeader.holds addr (s.hdr i)

/-- The end of a linked header is a word. -/
theorem Rep.wrap_stop (rep : Rep s l) (member : i ∈ l) :
    wrap ((s.hdr i).memory + (s.hdr i).size) = (s.hdr i).block.stop := by
  have bound := (rep.header_bounds member).2.2
  apply wrap_of_lt
  unfold roundLimit at bound
  unfold wordLimit
  omega

/-- The lookup stops at a linked header whose range has the address. -/
theorem Rep.holder_spec (rep : Rep s l) {addr : Nat} (found : s.holder l addr = some i) :
    i ∈ l ∧ (s.hdr i).block.Has addr := by
  have member := List.mem_of_find?_eq_some found
  have passed := List.find?_some found
  simp only [Pmm.PhysMemHeader.holds, rep.wrap_stop member, Bool.and_eq_true,
    decide_eq_true_eq] at passed
  exact ⟨member, passed⟩

/-- The lookup misses only addresses outside the list. -/
theorem Rep.holder_none (rep : Rep s l) {addr : Nat} (missed : s.holder l addr = none) :
    ¬ Covered (s.blocksOf l) addr := by
  rintro ⟨b, member, has⟩
  obtain ⟨i, listed, rfl⟩ := List.mem_map.mp member
  have failed := List.find?_eq_none.mp missed i listed
  simp only [Pmm.PhysMemHeader.holds, rep.wrap_stop listed, Bool.and_eq_true,
    decide_eq_true_eq] at failed
  exact failed has

/-- `free_mem_area` in a represented state. -/
inductive Freed (s : Pmm) (l : List Nat) (addr len : Nat) :
    Except Fault (PmmResult × Pmm) → Prop where
  | missed (outside : ¬ Covered (s.blocksOf l) addr) : Freed s l addr len (.ok (.invalid, s))
  | partly (i : Nat) (member : i ∈ l) (has : (s.hdr i).block.Has addr)
      (beyond : (s.hdr i).block.stop < wrap (addr + len)) : Freed s l addr len (.error .abort)
  | idle (i : Nat) (member : i ∈ l) (has : (s.hdr i).block.Has addr)
      (free : (s.hdr i).inUse = false) : Freed s l addr len (.ok (.invalid, s))
  | freed (i : Nat) (s' : Pmm) (l' : List Nat) (member : i ∈ l) (has : (s.hdr i).block.Has addr)
      (within : wrap (addr + len) ≤ (s.hdr i).block.stop) (rep : Rep s' l')
      (chunks : s'.chunkNext = s.chunkNext)
      (releases : Releases (s.hdr i).block (s.blocksOf l) (s'.blocksOf l')) :
      Freed s l addr len (.ok (.success, s'))

/-- Every call of `free_mem_area` is one of these. -/
theorem Rep.freeMemArea_spec (rep : Rep s l) (addr len : Nat) :
    Freed s l addr len (s.freeMemArea addr len) := by
  unfold Pmm.freeMemArea
  rw [rep.find_eq, ok_bind]
  cases found : l.find? fun i => Pmm.PhysMemHeader.holds addr (s.hdr i) with
  | none => exact .missed (rep.holder_none found)
  | some i =>
    obtain ⟨member, has⟩ := rep.holder_spec found
    have inside := rep.bound i member
    simp only [Pmm.header_eq inside, ok_bind, rep.wrap_stop member]
    by_cases beyond : (s.hdr i).block.stop < wrap (addr + len)
    · rw [if_pos beyond]
      exact .partly i member has beyond
    · rw [if_neg beyond]
      have within := Nat.le_of_not_lt beyond
      by_cases used : (s.hdr i).inUse = true
      · rw [if_pos used, Pmm.modify_eq _ inside, ok_bind]
        obtain ⟨xs, ys, rfl⟩ := List.append_of_mem member
        have layout := rep.layout
        rw [blocksOf_middle] at layout
        have freedRep : Rep (s.put i { s.hdr i with inUse := false }) (xs ++ i :: ys) := by
          refine ⟨rep.toLinked.put inside rfl rfl rfl rfl, ?_⟩
          rw [rep.toLinked.blocksOf_put]
          exact layout.reflag false
        have read : ((s.put i { s.hdr i with inUse := false }).hdr i).inUse = false := by
          rw [Pmm.hdr_put inside, if_pos rfl]
        obtain ⟨s', l', merged, rep', chunks, blocks⟩ := freedRep.mergeAdjacentHeaders_spec read
        obtain ⟨left, right⟩ := rep.toLinked.blocksOf_put_beside
          (h := { s.hdr i with inUse := false })
        have middle : (s.put i { s.hdr i with inUse := false }).blocksOf (i :: ys) =
            { (s.hdr i).block with used := false } :: s.blocksOf ys := by
          rw [← right]
          simp only [Pmm.blocksOf, List.map_cons, Pmm.hdr_put inside, if_true]
          rfl
        rw [merged, ok_bind]
        refine .freed i s' l' member has within rep' chunks ?_
        rw [blocks, left, middle, blocksOf_middle]
        exact .mk _ _ used
      · rw [if_neg used]
        exact .idle i member has (by simpa using used)

end FelineOS.PhysMem
