import FelineOS.Kernel.PmmBoot
import FelineOS.Spec.FirstChunk
import FelineOS.Verif.Carving
import FelineOS.Verif.PmmAreas

/-!
# When `ensure_not_allocatable` keeps its promise

The loop takes a header that the memory covers out of the links, but `headers_in_use` still
counts it and `first_header` may still point at it, so no list represents the state it leaves. A
header that only reaches behind the memory is moved to the end of the memory, rounded down, and so
keeps the page in which the memory ends. Every other header is cut as it should be. The list, its
geometry and the bytes it has lost are read off `PhysMemHeader.trimmed`, which is what the loop
makes of one header.
-/

namespace FelineOS.PhysMem

open Library
open Boot (Range overlap overlap_iff)

variable {s s' : Pmm} {l done rest : List Nat} {i j : Nat} {h : PhysMemHeader} {search : Range}

/-! ## One header -/

/-- The header lies within the range. -/
def PhysMemHeader.Within (search : Range) (h : PhysMemHeader) : Prop :=
  search.start ≤ h.memory ∧ h.memory + h.size ≤ search.stop

/-- The header without the range, as far as the loop takes it out. -/
def PhysMemHeader.trimmed (search : Range) (h : PhysMemHeader) : PhysMemHeader :=
  if overlap search ⟨h.memory, h.memory + h.size⟩ then
    if search.start ≤ h.memory then
      { h with
        memory := pageFloor search.stop
        size := pageFloor (h.memory + h.size - search.stop) }
    else { h with size := pageFloor (search.start - h.memory) }
  else h

/-- The range is taken out of the header: the header does not lie within it, and where the header
only reaches behind it, it ends on a page boundary or leaves less than a page. -/
def PhysMemHeader.Spared (search : Range) (h : PhysMemHeader) : Prop :=
  ¬ h.Within search ∧ (search.start ≤ h.memory → h.memory ≤ search.stop →
    pageSize ∣ search.stop ∨ h.memory + h.size < search.stop + pageSize)

instance (search : Range) (h : PhysMemHeader) : Decidable (h.Spared search) :=
  inferInstanceAs (Decidable (¬ (_ ∧ _) ∧ _))

/-- Only the range of a header is trimmed. -/
theorem PhysMemHeader.trimmed_links (search : Range) (h : PhysMemHeader) :
    (h.trimmed search).next = h.next ∧ (h.trimmed search).prev = h.prev ∧
      (h.trimmed search).canary = h.canary ∧ (h.trimmed search).headerInUse = h.headerInUse := by
  unfold PhysMemHeader.trimmed
  split
  · split <;> exact ⟨rfl, rfl, rfl, rfl⟩
  · exact ⟨rfl, rfl, rfl, rfl⟩

/-- The header of a page-aligned range below the last page. -/
structure PhysMemHeader.Placed (h : PhysMemHeader) : Prop where
  /-- It starts on a page. -/
  memory : pageSize ∣ h.memory
  /-- It has whole pages. -/
  size : pageSize ∣ h.size
  /-- It ends at or below the last page boundary. -/
  below : h.memory + h.size ≤ roundLimit

/-- Linked headers are placed. -/
theorem Rep.placed (rep : Rep s l) (member : i ∈ l) : (s.hdr i).Placed := by
  obtain ⟨memory, size, below⟩ := rep.header_bounds member
  exact ⟨memory, size, below⟩

/-- What the loop makes of a header that does not lie within the range. -/
theorem excludeFrom_trims (inside : i < s.slots.length) (placed : (s.hdr i).Placed)
    (ordered : search.start ≤ search.stop) (word : search.stop < wordLimit)
    (outside : ¬ (s.hdr i).Within search)
    (returns : s.excludeFrom search i (s.hdr i) = .ok s') :
    s' = s.put i ((s.hdr i).trimmed search) := by
  have below := placed.below
  have small : (s.hdr i).memory + (s.hdr i).size < uintptrMax := by
    unfold roundLimit at below
    unfold uintptrMax
    omega
  unfold Pmm.excludeFrom at returns
  rw [pageAdd_ok small, ok_bind] at returns
  unfold PhysMemHeader.trimmed
  unfold PhysMemHeader.Within at outside
  by_cases overlaps : overlap search ⟨(s.hdr i).memory, (s.hdr i).memory + (s.hdr i).size⟩
  · obtain ⟨start, stop⟩ := (overlap_iff ordered).mp overlaps
    rw [if_pos overlaps, if_neg outside, Pmm.modify_eq _ inside, Pmm.modify_eq _ inside] at returns
    rw [if_pos overlaps]
    by_cases front : search.start ≤ (s.hdr i).memory
    · have behind : search.stop ≤ (s.hdr i).memory + (s.hdr i).size := by omega
      rw [if_pos front, wrapSub_of_le behind (by unfold roundLimit at below; unfold wordLimit; omega)]
        at returns
      rw [if_pos front]
      exact (Except.ok.inj returns).symm
    · rw [if_neg front] at returns ⊢
      split at returns
      · rw [wrapSub_of_le (Nat.le_of_not_le front) (by omega)] at returns
        exact (Except.ok.inj returns).symm
      · contradiction
  · rw [if_neg overlaps] at returns ⊢
    rw [Pmm.put_hdr inside]
    exact (Except.ok.inj returns).symm

/-- A page boundary behind an address that is on none lies behind its page. -/
theorem pageFloor_sub {a b : Nat} (aligned : pageSize ∣ b) (within : a ≤ b) :
    pageFloor (b - a) ≤ b - pageFloor a ∧
      (¬ pageSize ∣ a → pageFloor (b - a) + pageSize = b - pageFloor a) := by
  obtain ⟨n, rfl⟩ := aligned
  unfold pageFloor pageSize at *
  omega

/-- Trimming cuts a header on page boundaries. -/
theorem PhysMemHeader.Placed.narrows (placed : h.Placed) (ordered : search.start ≤ search.stop)
    (outside : ¬ h.Within search) : h.block.Narrows pageSize (h.trimmed search).block := by
  obtain ⟨memory, size, -⟩ := placed
  have stop : pageSize ∣ h.memory + h.size := Nat.dvd_add memory size
  unfold PhysMemHeader.Within at outside
  unfold PhysMemHeader.trimmed
  split
  · rename_i overlaps
    obtain ⟨start, behind⟩ := (overlap_iff ordered).mp overlaps
    simp only at start behind
    split
    · rename_i front
      have after : search.stop ≤ h.memory + h.size := by omega
      have low : h.memory ≤ pageFloor search.stop := by
        rw [← pageFloor_of_dvd memory]
        exact pageFloor_mono start
      have fits := (pageFloor_sub stop after).1
      have floor := pageFloor_le search.stop
      refine ⟨⟨pageSize_dvd_pageFloor _, pageSize_dvd_pageFloor _⟩, ?_, ?_⟩
      · simp only [Block.stop, PhysMemHeader.block]
        omega
      · intro x
        simp only [Block.Has, Block.stop, PhysMemHeader.block]
        omega
    · rename_i front
      have fits := pageFloor_le (search.start - h.memory)
      refine ⟨⟨memory, pageSize_dvd_pageFloor _⟩, ?_, ?_⟩
      · simp only [Block.stop, PhysMemHeader.block]
        omega
      · intro x
        simp only [Block.Has, Block.stop, PhysMemHeader.block]
        omega
  · exact ⟨⟨memory, size⟩, Nat.le_refl _, fun _ has => has⟩

/-- A trimmed header has a byte of the range exactly when it was not spared. -/
theorem PhysMemHeader.Placed.trimmed_clear_iff (placed : h.Placed)
    (ordered : search.start ≤ search.stop) (outside : ¬ h.Within search) :
    (∀ x, search.start ≤ x ∧ x < search.stop → ¬ (h.trimmed search).block.Has x) ↔
      h.Spared search := by
  obtain ⟨memory, size, -⟩ := placed
  have stop : pageSize ∣ h.memory + h.size := Nat.dvd_add memory size
  unfold PhysMemHeader.Spared
  rw [and_iff_right outside]
  unfold PhysMemHeader.Within at outside
  unfold PhysMemHeader.trimmed
  split
  · rename_i overlaps
    obtain ⟨start, behind⟩ := (overlap_iff ordered).mp overlaps
    simp only at start behind
    split
    · rename_i front
      have after : search.stop ≤ h.memory + h.size := by omega
      have low : h.memory ≤ pageFloor search.stop := by
        rw [← pageFloor_of_dvd memory]
        exact pageFloor_mono start
      have floor := pageFloor_le search.stop
      simp only [front, start, forall_const]
      by_cases boundary : pageSize ∣ search.stop
      · simp only [boundary, true_or, iff_true]
        intro x
        simp only [Block.Has, Block.stop, PhysMemHeader.block, pageFloor_of_dvd boundary]
        omega
      · have kept := (pageFloor_sub stop after).2 boundary
        have strict : pageFloor search.stop < search.stop := by
          apply Nat.lt_of_le_of_ne floor
          intro same
          rw [← same] at boundary
          exact boundary (pageSize_dvd_pageFloor _)
        simp only [boundary, false_or]
        simp only [Block.Has, Block.stop, PhysMemHeader.block]
        constructor
        · intro clear
          have first := clear (pageFloor search.stop)
          omega
        · intro short x
          have nothing : pageFloor (h.memory + h.size - search.stop) = 0 := by
            unfold pageFloor
            rw [Nat.div_eq_of_lt (by omega), Nat.zero_mul]
          omega
    · rename_i front
      have fits := pageFloor_le (search.start - h.memory)
      simp only [front, false_implies, iff_true]
      intro x
      simp only [Block.Has, Block.stop, PhysMemHeader.block]
      omega
  · rename_i separate
    rw [overlap_iff ordered] at separate
    simp only at separate
    refine iff_of_true ?_ ?_
    · intro x
      simp only [Block.Has, Block.stop, PhysMemHeader.block]
      omega
    · omega

/-! ## The loop -/

/-- Where no header lies within the range, the loop trims every header and keeps the links. -/
theorem ensureFrom_trims (ordered : search.start ≤ search.stop) (word : search.stop < wordLimit)
    {fuel : Nat} (linked : Linked s (done ++ rest)) (placed : ∀ j ∈ rest, (s.hdr j).Placed)
    (outside : ∀ j ∈ rest, ¬ (s.hdr j).Within search)
    (returns : Pmm.ensureFrom search fuel s rest.head? = .ok s') :
    Linked s' (done ++ rest) ∧
      ∀ j, s'.hdr j = if j ∈ rest then (s.hdr j).trimmed search else s.hdr j := by
  induction rest generalizing s fuel done with
  | nil =>
    rw [List.head?_nil] at returns
    have same : s = s' := by
      cases fuel <;> exact Except.ok.inj returns
    subst same
    exact ⟨linked, fun j => (if_neg List.not_mem_nil).symm⟩
  | cons i rest ih =>
    cases fuel with
    | zero => contradiction
    | succ fuel =>
      have inside : i < s.slots.length := linked.bound i (by simp)
      simp only [List.head?_cons, Pmm.ensureFrom, Pmm.header_eq inside, ok_bind] at returns
      obtain ⟨s₁, body, more⟩ := of_bind_ok returns
      have put := excludeFrom_trims inside (placed i List.mem_cons_self) ordered word
        (outside i List.mem_cons_self) body
      subst put
      obtain ⟨next, prev, canary, flag⟩ := PhysMemHeader.trimmed_links search (s.hdr i)
      have linked' := linked.put inside next prev canary flag
      have read := fun j => Pmm.hdr_put (h := (s.hdr i).trimmed search) (j := j) inside
      have apart : i ∉ rest := by
        have nodup := linked.nodup
        rw [List.nodup_middle, List.nodup_cons, List.mem_append] at nodup
        exact fun member => nodup.1 (Or.inr member)
      have others : ∀ j ∈ rest, (s.put i ((s.hdr i).trimmed search)).hdr j = s.hdr j := by
        intro j member
        rw [read j, if_neg]
        rintro rfl
        exact apart member
      have forward : ((s.hdr i).trimmed search).next = rest.head? := by
        have link := linked.links.next_eq
        rw [Option.or_none] at link
        exact next.trans link
      rw [Pmm.header_eq (by simpa using inside), ok_bind, read i, if_pos rfl, forward] at more
      have regrouped : done ++ i :: rest = (done ++ [i]) ++ rest := by simp
      rw [regrouped] at linked' ⊢
      obtain ⟨kept, result⟩ := ih linked'
        (fun j member => by rw [others j member]; exact placed j (List.mem_cons_of_mem i member))
        (fun j member => by rw [others j member]; exact outside j (List.mem_cons_of_mem i member))
        more
      refine ⟨kept, fun j => ?_⟩
      rw [result j]
      by_cases later : j ∈ rest
      · rw [if_pos later, if_pos (List.mem_cons_of_mem i later), others j later]
      · rw [if_neg later, read j]
        by_cases same : j = i
        · subst same
          rw [if_pos rfl, if_pos List.mem_cons_self]
        · rw [if_neg same, if_neg (by simp [same, later])]

/-! ## A header within the range -/

/-- What one pass of the loop, at the header `h` in the slot `i`, leaves of every slot. -/
structure Edits (h : PhysMemHeader) (i : Nat) (s s' : Pmm) : Prop where
  /-- The pool keeps its slots. -/
  slots : s'.slots.length = s.slots.length
  /-- `headers_in_use` is not written. -/
  inUse : s'.headersInUse = s.headersInUse
  /-- No header comes into use. -/
  live : ∀ j, (s'.hdr j).headerInUse = true → (s.hdr j).headerInUse = true
  /-- The other headers keep their ranges. -/
  range : ∀ j ≠ i, (s'.hdr j).memory = (s.hdr j).memory ∧ (s'.hdr j).size = (s.hdr j).size
  /-- Only the predecessor takes over the forward link. -/
  next : ∀ j, (s'.hdr j).next = (s.hdr j).next ∨ h.prev = some j ∧ (s'.hdr j).next = h.next
  /-- A back link that changes is the one taken over. -/
  prev : ∀ j, (s'.hdr j).prev = (s.hdr j).prev ∨ (s'.hdr j).prev = h.prev

/-- Nothing is edited. -/
theorem Edits.refl (h : PhysMemHeader) (i : Nat) (s : Pmm) : Edits h i s s :=
  ⟨rfl, rfl, fun _ => id, fun _ _ => ⟨rfl, rfl⟩, fun _ => Or.inl rfl, fun _ => Or.inl rfl⟩

/-- Edits add up. -/
theorem Edits.trans {s₁ : Pmm} (first : Edits h i s s₁) (second : Edits h i s₁ s') :
    Edits h i s s' := by
  refine ⟨second.slots.trans first.slots, second.inUse.trans first.inUse, ?_, ?_, ?_, ?_⟩
  · exact fun j flag => first.live j (second.live j flag)
  · intro j other
    obtain ⟨memory, size⟩ := first.range j other
    obtain ⟨memory', size'⟩ := second.range j other
    exact ⟨memory'.trans memory, size'.trans size⟩
  · intro j
    rcases second.next j with same | taken
    · rw [same]
      exact first.next j
    · exact Or.inr taken
  · intro j
    rcases second.prev j with same | taken
    · rw [same]
      exact first.prev j
    · exact Or.inr taken

/-- One write is an edit when it edits its own slot. -/
theorem Edits.modify {f : PhysMemHeader → PhysMemHeader} (returns : s.modify j f = .ok s')
    (live : (f (s.hdr j)).headerInUse = true → (s.hdr j).headerInUse = true)
    (range : j ≠ i → (f (s.hdr j)).memory = (s.hdr j).memory ∧ (f (s.hdr j)).size = (s.hdr j).size)
    (next : (f (s.hdr j)).next = (s.hdr j).next ∨
      h.prev = some j ∧ (f (s.hdr j)).next = h.next)
    (prev : (f (s.hdr j)).prev = (s.hdr j).prev ∨ (f (s.hdr j)).prev = h.prev) :
    Edits h i s s' := by
  obtain ⟨inside, rfl⟩ := modify_ok returns
  have read := fun k => Pmm.hdr_put (h := f (s.hdr j)) (j := k) inside
  refine ⟨Pmm.put_length, rfl, fun k => ?_, fun k other => ?_, fun k => ?_, fun k => ?_⟩
  all_goals
    rw [read k]
    by_cases same : k = j
  · subst same
    rwa [if_pos rfl]
  · rw [if_neg same]
    exact id
  · subst same
    rw [if_pos rfl]
    exact range other
  · rw [if_neg same]
    exact ⟨rfl, rfl⟩
  · subst same
    rwa [if_pos rfl]
  · rw [if_neg same]
    exact Or.inl rfl
  · subst same
    rwa [if_pos rfl]
  · rw [if_neg same]
    exact Or.inl rfl

/-- One pass of the loop edits the list, and a header within the range is no longer in use. -/
theorem excludeFrom_edits (returns : s.excludeFrom search i h = .ok s') :
    Edits h i s s' ∧ (h.Within search → search.start ≤ search.stop →
      h.memory + h.size < uintptrMax → (s'.hdr i).headerInUse = false) := by
  unfold Pmm.excludeFrom at returns
  obtain ⟨stop, sum, body⟩ := of_bind_ok returns
  simp only at body
  split at body
  · split at body
    · obtain ⟨s₁, cleared, body⟩ := of_bind_ok body
      obtain ⟨s₂, follower, body⟩ := of_bind_ok body
      obtain ⟨s₃, before, unused⟩ := of_bind_ok body
      have first : Edits h i s s₁ := Edits.modify cleared id (fun _ => ⟨rfl, rfl⟩)
        (Or.inl rfl) (Or.inl rfl)
      have second : Edits h i s₁ s₂ := by
        cases link : h.next with
        | none =>
          rw [link] at follower
          cases follower
          exact Edits.refl h i s₁
        | some n =>
          rw [link] at follower
          exact Edits.modify follower id (fun _ => ⟨rfl, rfl⟩) (Or.inl rfl) (Or.inr rfl)
      have third : Edits h i s₂ s₃ := by
        cases link : h.prev with
        | none =>
          rw [link] at before
          cases before
          exact Edits.refl h i s₂
        | some p =>
          rw [link] at before
          exact Edits.modify before id (fun _ => ⟨rfl, rfl⟩) (Or.inr ⟨link, rfl⟩) (Or.inl rfl)
      have last : Edits h i s₃ s' := Edits.modify unused (fun flag => by contradiction)
        (fun _ => ⟨rfl, rfl⟩) (Or.inl rfl) (Or.inl rfl)
      refine ⟨((first.trans second).trans third).trans last, fun _ _ _ => ?_⟩
      obtain ⟨inside, rfl⟩ := modify_ok unused
      rw [Pmm.hdr_put inside, if_pos rfl]
    · rename_i outside
      have only : ∀ f : PhysMemHeader → PhysMemHeader, s.modify i f = .ok s' →
          (∀ k, (f k).headerInUse = k.headerInUse ∧ (f k).next = k.next ∧ (f k).prev = k.prev) →
          Edits h i s s' := by
        intro f write keeps
        obtain ⟨flag, next, prev⟩ := keeps (s.hdr i)
        exact Edits.modify write (fun live => by rwa [flag] at live) (fun other => absurd rfl other)
          (Or.inl next) (Or.inl prev)
      refine ⟨?_, fun within _ small => ?_⟩
      · split at body
        · exact only _ body fun _ => ⟨rfl, rfl, rfl⟩
        · split at body
          · exact only _ body fun _ => ⟨rfl, rfl, rfl⟩
          · contradiction
      · rw [pageAdd_ok small] at sum
        cases sum
        exact absurd within outside
  · rename_i separate
    cases body
    refine ⟨Edits.refl h i s, fun within ordered small => ?_⟩
    rw [pageAdd_ok small] at sum
    cases sum
    rw [overlap_iff ordered] at separate
    unfold PhysMemHeader.Within at within
    simp only at separate
    omega

/-- The loop on its way through the list: it has passed the headers `done` and stands before
`rest`. -/
structure Walking (search : Range) (start s : Pmm) (done rest : List Nat) : Prop where
  /-- The pool keeps its slots. -/
  slots : s.slots.length = start.slots.length
  /-- `headers_in_use` is not written. -/
  inUse : s.headersInUse = start.headersInUse
  /-- No header comes into use. -/
  live : ∀ j, (s.hdr j).headerInUse = true → (start.hdr j).headerInUse = true
  /-- The headers ahead keep their ranges and their forward links. -/
  ahead : ∀ j ∈ rest, (s.hdr j).memory = (start.hdr j).memory ∧
    (s.hdr j).size = (start.hdr j).size ∧ (s.hdr j).next = (start.hdr j).next
  /-- The headers ahead point back at passed ones, or at one another in the old order. -/
  back : ∀ j ∈ rest, ∀ p, (s.hdr j).prev = some p → p ∈ done ∨ (start.hdr j).prev = some p
  /-- The headers passed within the range are no longer in use. -/
  gone : ∀ j ∈ done, (start.hdr j).Within search → (s.hdr j).headerInUse = false

/-- One pass of the loop. -/
theorem Walking.pass {start : Pmm} (linked : Linked start (done ++ i :: rest))
    (placed : (start.hdr i).Placed) (ordered : search.start ≤ search.stop)
    (walking : Walking search start s done (i :: rest))
    (returns : s.excludeFrom search i (s.hdr i) = .ok s') :
    Walking search start s' (done ++ [i]) rest ∧ (s'.hdr i).next = (start.hdr i).next := by
  obtain ⟨edits, unused⟩ := excludeFrom_edits returns
  obtain ⟨memory, size, next⟩ := walking.ahead i List.mem_cons_self
  -- Nothing ahead of the header is what it points back at.
  have behind : ∀ p, (s.hdr i).prev = some p → p ∈ done := by
    intro p link
    rcases walking.back i List.mem_cons_self p link with passed | old
    · exact passed
    · have first := linked.links.prev_eq
      rw [Option.or_none] at first
      rw [show start.prev i = some p from old] at first
      exact List.mem_of_getLast? first.symm
  have nodup := linked.nodup
  have sides := List.nodup_append.mp nodup
  have apart : i ∉ rest := (List.nodup_cons.mp sides.2.1).1
  have disjoint : ∀ p ∈ done, p ∉ rest := fun p passed later =>
    sides.2.2 p passed p (List.mem_cons_of_mem i later) rfl
  refine ⟨⟨edits.slots.trans walking.slots, edits.inUse.trans walking.inUse, ?_, ?_, ?_, ?_⟩, ?_⟩
  · exact fun j flag => walking.live j (edits.live j flag)
  · intro j later
    have other : j ≠ i := by
      rintro rfl
      exact apart later
    obtain ⟨memory', size', next'⟩ := walking.ahead j (List.mem_cons_of_mem i later)
    obtain ⟨sameMemory, sameSize⟩ := edits.range j other
    refine ⟨sameMemory.trans memory', sameSize.trans size', ?_⟩
    rcases edits.next j with same | ⟨link, -⟩
    · exact same.trans next'
    · exact absurd later (disjoint j (behind j link))
  · intro j later p link
    rcases edits.prev j with same | taken
    · rw [same] at link
      rcases walking.back j (List.mem_cons_of_mem i later) p link with passed | old
      · exact Or.inl (List.mem_append_left _ passed)
      · exact Or.inr old
    · rw [taken] at link
      exact Or.inl (List.mem_append_left _ (behind p link))
  · intro j passed within
    rcases List.mem_append.mp passed with earlier | last
    · have off := walking.gone j earlier within
      by_contra on
      rw [Bool.not_eq_false] at on
      rw [edits.live j on] at off
      contradiction
    · obtain rfl : j = i := by simpa using last
      have below := placed.below
      apply unused
      · unfold PhysMemHeader.Within
        rw [memory, size]
        exact within
      · exact ordered
      · rw [memory, size]
        unfold roundLimit at below
        unfold uintptrMax
        omega
  · rcases edits.next i with same | ⟨-, taken⟩
    · exact same.trans next
    · exact taken.trans next

/-- The whole loop. -/
theorem Walking.loop {start : Pmm} {fuel : Nat} (linked : Linked start (done ++ rest))
    (placed : ∀ j ∈ rest, (start.hdr j).Placed) (ordered : search.start ≤ search.stop)
    (walking : Walking search start s done rest)
    (returns : Pmm.ensureFrom search fuel s rest.head? = .ok s') :
    Walking search start s' (done ++ rest) [] := by
  induction rest generalizing s fuel done with
  | nil =>
    rw [List.head?_nil] at returns
    have same : s = s' := by
      cases fuel <;> exact Except.ok.inj returns
    subst same
    rw [List.append_nil]
    exact walking
  | cons i rest ih =>
    cases fuel with
    | zero => contradiction
    | succ fuel =>
      have inside : i < s.slots.length := by
        rw [walking.slots]
        exact linked.bound i (by simp)
      simp only [List.head?_cons, Pmm.ensureFrom, Pmm.header_eq inside, ok_bind] at returns
      obtain ⟨s₁, body, more⟩ := of_bind_ok returns
      obtain ⟨further, next⟩ := walking.pass linked (placed i List.mem_cons_self) ordered body
      have forward : (start.hdr i).next = rest.head? := by
        have link := linked.links.next_eq
        rw [Option.or_none] at link
        exact link
      rw [Pmm.header_eq (by rwa [further.slots, ← walking.slots]), ok_bind, next, forward] at more
      have regrouped : done ++ i :: rest = (done ++ [i]) ++ rest := by simp
      rw [regrouped] at linked ⊢
      exact ih linked (fun j member => placed j (List.mem_cons_of_mem i member)) further more

/-- With a header gone that `headers_in_use` still counts, no list represents the state. -/
theorem Walking.not_represented {start : Pmm} (linked : Linked start l)
    (walking : Walking search start s l []) (member : i ∈ l) (within : (start.hdr i).Within search) :
    ¬ Represented s := by
  rintro ⟨l', rep⟩
  have off := walking.gone i member within
  have subset : l' ⊆ l.erase i := by
    intro j listed
    have on := rep.headerInUse listed
    have inside := rep.bound j listed
    rw [walking.slots] at inside
    refine (List.mem_erase_of_ne ?_).mpr ((linked.live j inside).mp (walking.live j on))
    rintro rfl
    rw [on] at off
    contradiction
  have fewer := (rep.nodup.subperm subset).length_le
  have some := List.length_pos_of_mem member
  rw [List.length_erase_of_mem member] at fewer
  have counted := walking.inUse
  rw [rep.inUse, linked.inUse] at counted
  omega

/-! ## The promise -/

/-- What a caller of `ensure_not_allocatable` may rely on: the list is well formed, and no header
has a byte of the area, now or after any calls of the manager. -/
structure NotAllocatable (s : Pmm) (a : Area) : Prop where
  /-- The list is well formed. -/
  represented : Represented s
  /-- Whatever calls follow, no header has a byte of the area. -/
  clear : ∀ s', Relation.ReflTransGen Step s s' → ∀ x, a.Has x → ¬ Covered s'.blocks x

/-- The promise is about the bytes of the state the call leaves. -/
theorem notAllocatable_iff {a : Area} :
    NotAllocatable s a ↔ Represented s ∧ ∀ x, a.Has x → ¬ Covered s.blocks x := by
  constructor
  · exact fun promise => ⟨promise.represented, promise.clear s Relation.ReflTransGen.refl⟩
  · rintro ⟨represented, clear⟩
    refine ⟨represented, fun s' reach x inside => ?_⟩
    rw [represented.covered_steps reach x]
    exact clear x inside

/-- The state left where no header lies within the range: the headers are trimmed. -/
theorem Rep.trimmed (rep : Rep s l) (linked : Linked s' l) (ordered : search.start ≤ search.stop)
    (outside : ∀ j ∈ l, ¬ (s.hdr j).Within search)
    (headers : ∀ j, s'.hdr j = if j ∈ l then (s.hdr j).trimmed search else s.hdr j) :
    Rep s' l ∧ ∀ x, Covered s'.blocks x ↔ ∃ j ∈ l, ((s.hdr j).trimmed search).block.Has x := by
  have blocks : s'.blocksOf l = l.map fun j => ((s.hdr j).trimmed search).block := by
    apply List.map_congr_left
    intro j member
    rw [headers j, if_pos member]
  have narrows : (s.blocksOf l).Forall₂ (Block.Narrows pageSize) (s'.blocksOf l) := by
    rw [blocks]
    unfold Pmm.blocksOf
    rw [List.forall₂_map_left_iff, List.forall₂_map_right_iff, List.forall₂_same]
    exact fun j member => (rep.placed member).narrows ordered (outside j member)
  refine ⟨⟨linked, layout_narrows narrows rep.layout⟩, fun x => ?_⟩
  rw [linked.blocks_eq, blocks]
  simp [Covered]

/-- A call for memory that holds a whole header leaves a state that no list represents. -/
theorem ensureNotAllocatable_within {addr len : Nat} (represented : Represented s)
    (fits : addr + len < wordLimit) (returns : s.ensureNotAllocatable addr len = .ok s')
    (member : i ∈ s.chain) (within : (s.hdr i).Within ⟨addr, addr + len⟩) : ¬ Represented s' := by
  have rep := represented.rep
  unfold Pmm.ensureNotAllocatable at returns
  rw [wrap_of_lt fits, rep.first] at returns
  have walking : Walking ⟨addr, addr + len⟩ s s [] s.chain :=
    ⟨rfl, rfl, fun _ => id, fun _ _ => ⟨rfl, rfl, rfl⟩, fun _ _ _ => Or.inr,
      fun _ nowhere => absurd nowhere List.not_mem_nil⟩
  have passed := walking.loop rep.toLinked (fun j listed => rep.placed listed)
    (Nat.le_add_right addr len) returns
  exact passed.not_represented rep.toLinked member within

/-- The call keeps its promise exactly when no header lies within the memory, and the memory ends
on a page boundary, or less than a page before the header does, where a header only reaches behind
it. -/
theorem ensureNotAllocatable_iff {addr len : Nat} (represented : Represented s)
    (fits : addr + len < wordLimit) (returns : s.ensureNotAllocatable addr len = .ok s') :
    NotAllocatable s' ⟨addr, len⟩ ↔
      ∀ i ∈ s.chain, (s.hdr i).Spared ⟨addr, addr + len⟩ := by
  have rep := represented.rep
  have ordered : addr ≤ addr + len := Nat.le_add_right addr len
  by_cases within : ∃ i ∈ s.chain, (s.hdr i).Within ⟨addr, addr + len⟩
  · obtain ⟨i, member, inside⟩ := within
    refine iff_of_false ?_ ?_
    · exact fun promise => ensureNotAllocatable_within represented fits returns member inside
        promise.represented
    · exact fun spared => (spared i member).1 inside
  · have outside : ∀ i ∈ s.chain, ¬ (s.hdr i).Within ⟨addr, addr + len⟩ :=
      fun i member inside => within ⟨i, member, inside⟩
    have placed := fun j (member : j ∈ s.chain) => rep.placed member
    have ahead : Linked s ([] ++ s.chain) := rep.toLinked
    unfold Pmm.ensureNotAllocatable at returns
    rw [wrap_of_lt fits, rep.first] at returns
    obtain ⟨linked, headers⟩ := ensureFrom_trims ordered fits ahead placed outside returns
    obtain ⟨after, covered⟩ := rep.trimmed linked ordered outside headers
    rw [notAllocatable_iff, and_iff_right ⟨_, after⟩]
    have clear := fun i member => (placed i member).trimmed_clear_iff ordered (outside i member)
    constructor
    · intro none i member
      rw [← clear i member]
      exact fun x inside has => none x inside ((covered x).mpr ⟨i, member, has⟩)
    · intro spared x inside has
      obtain ⟨i, member, has⟩ := (covered x).mp has
      exact (clear i member).mpr (spared i member) x inside has

/-- Two areas of free memory. -/
def twoAreas : Pmm := Pmm.ofBlocks [⟨0x100000, 0x4000, false⟩, ⟨0x200000, 0x1000, false⟩]

/-- Its header list is well formed. -/
theorem represented_twoAreas : Represented twoAreas :=
  (repInv_ofBlocks (by decide) (by decide)).1

/-- The last pages of an area are taken out, with a part of the page they start in. -/
theorem ensureNotAllocatable_twoAreas : ∃ s',
    twoAreas.ensureNotAllocatable 0x102800 0x3000 = .ok s' ∧ NotAllocatable s' ⟨0x102800, 0x3000⟩ := by
  have returns : ∃ s', twoAreas.ensureNotAllocatable 0x102800 0x3000 = .ok s' := by
    refine ⟨twoAreas.put 0 { twoAreas.hdr 0 with size := 0x2000 }, ?_⟩
    decide +kernel
  obtain ⟨s', returned⟩ := returns
  refine ⟨s', returned, ?_⟩
  apply (ensureNotAllocatable_iff represented_twoAreas (by decide) returned).mpr
  decide +kernel

/-- Memory that is the whole of an area: the header is taken out of the links and still counted. -/
theorem ensureNotAllocatable_breaks : Represented twoAreas ∧ 0x200000 + 0x1000 < wordLimit ∧
    ∃ s', twoAreas.ensureNotAllocatable 0x200000 0x1000 = .ok s' ∧
      ¬ NotAllocatable s' ⟨0x200000, 0x1000⟩ := by
  have small : 0x200000 + 0x1000 < wordLimit := by decide
  have returns : ∃ s', twoAreas.ensureNotAllocatable 0x200000 0x1000 = .ok s' := by
    refine ⟨(twoAreas.put 0 { twoAreas.hdr 0 with next := none }).put 1
      { twoAreas.hdr 1 with headerInUse := false }, ?_⟩
    decide +kernel
  obtain ⟨s', returned⟩ := returns
  have second : 1 ∈ twoAreas.chain := by decide +kernel
  have within : (twoAreas.hdr 1).Within ⟨0x200000, 0x200000 + 0x1000⟩ := by
    unfold PhysMemHeader.Within
    decide +kernel
  refine ⟨represented_twoAreas, small, s', returned, fun promise => ?_⟩
  exact ensureNotAllocatable_within represented_twoAreas small returned second within
    promise.represented

end FelineOS.PhysMem
