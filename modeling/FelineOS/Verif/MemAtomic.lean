import FelineOS.Verif.MemManagers
import FelineOS.Verif.PagingSearch

/-!
# Failed requests

`get_mem` and `get_mem_from` take physical memory first and look for virtual memory then. When
there is none they return, and the physical memory stays taken. Here is what a request takes from
the free memory, and in which states a request that fails leaves the free memory as it was.
-/

namespace FelineOS.PhysMem

open Library

variable {s : Pmm} {l xs ys : List Nat} {i k n t : Nat} {next : Option Nat}

/-- The same addresses are free. -/
def SameFree (s s' : Pmm) : Prop := ∀ x, FreeAt s'.blocks x ↔ FreeAt s.blocks x

/-- The free header that `get_header_chunk` finds while the header `i` is claimed. -/
def Pmm.firstOther (s : Pmm) (i : Nat) : Option Nat :=
  s.chain.find? fun k => !(s.hdr k).inUse && k != i

/-- The search of `get_header_chunk` passes over the claimed header. -/
theorem Rep.find_claim (rep : Rep s l) (member : i ∈ l) :
    l.find? (fun k => !((s.claim i).hdr k).inUse) = s.firstOther i := by
  unfold Pmm.firstOther
  rw [rep.chain_eq]
  congr 1
  funext k
  by_cases same : k = i
  · subst same
    rw [rep.toLinked.hdr_claim member]
    simp
  · unfold Pmm.claim
    rw [Pmm.hdr_put_ne same]
    simp [same]

/-- What the search finds is linked, free and not the claimed header. -/
theorem Rep.firstOther_spec (rep : Rep s l) (found : s.firstOther i = some k) :
    k ∈ l ∧ (s.hdr k).inUse = false ∧ k ≠ i := by
  unfold Pmm.firstOther at found
  rw [rep.chain_eq] at found
  have passed := List.find?_some found
  simp only [Bool.and_eq_true, Bool.not_eq_true', bne_iff_ne, ne_eq] at passed
  exact ⟨List.mem_of_find?_eq_some found, passed.1, passed.2⟩

/-- A chunk takes the whole header that it is made from. -/
theorem usedAt_grow {zs : List Nat} {x : Nat} (inside : k < s.slots.length) :
    UsedAt ((s.grow k next).blocksOf zs) x ↔
      UsedAt (s.blocksOf zs) x ∨ k ∈ zs ∧ (s.hdr k).block.Has x := by
  unfold UsedAt Pmm.blocksOf
  simp only [List.mem_map, exists_exists_and_eq_and]
  constructor
  · rintro ⟨j, member, used, has⟩
    rw [hdr_grow next inside] at used has
    by_cases same : j = k
    · subst same
      rw [if_pos rfl] at has
      exact Or.inr ⟨member, has⟩
    · rw [if_neg same] at used has
      exact Or.inl ⟨j, member, used, has⟩
  · rintro (⟨j, member, used, has⟩ | ⟨member, has⟩)
    · refine ⟨j, member, ?_⟩
      rw [hdr_grow next inside]
      by_cases same : j = k
      · subst same
        rw [if_pos rfl]
        exact ⟨rfl, has⟩
      · rw [if_neg same]
        exact ⟨used, has⟩
    · refine ⟨k, member, ?_⟩
      rw [hdr_grow next inside, if_pos rfl]
      exact ⟨rfl, has⟩

section Takes

variable (rep : Rep s (xs ++ i :: ys)) (free : (s.hdr i).inUse = false)

include rep free

/-- A header that is claimed whole takes its range. -/
theorem Rep.sameFree_claim : SameFree s (s.claim i) ↔ (s.hdr i).size = 0 := by
  have member : i ∈ xs ++ i :: ys := by simp
  have claimed := rep.claim member
  have blocks : (s.claim i).blocksOf (xs ++ i :: ys) =
      s.blocksOf xs ++ { (s.hdr i).block with used := true } :: s.blocksOf ys := by
    unfold Pmm.claim
    rw [rep.toLinked.blocksOf_put]
    rfl
  have has : ∀ x, Block.Has { (s.hdr i).block with used := true } x ↔ (s.hdr i).block.Has x :=
    fun _ => Iff.rfl
  have covered : ∀ x, Covered ((s.claim i).blocksOf (xs ++ i :: ys)) x ↔
      Covered (s.blocksOf (xs ++ i :: ys)) x := by
    intro x
    simp only [blocks, blocksOf_middle, covered_append, covered_cons, has]
  have used : ∀ x, UsedAt ((s.claim i).blocksOf (xs ++ i :: ys)) x ↔
      UsedAt (s.blocksOf (xs ++ i :: ys)) x ∨ (s.hdr i).block.Has x := by
    intro x
    simp only [blocks, blocksOf_middle, usedAt_append, usedAt_cons, PhysMemHeader.block, free]
    simp only [true_and, Bool.false_eq_true, false_and, false_or]
    rw [or_right_comm, or_assoc]
    tauto
  unfold SameFree
  rw [rep.blocks_eq, claimed.blocks_eq, rep.layout.freeAt_same_iff claimed.layout covered used
    fun x inside => ⟨_, List.mem_map_of_mem member, free, inside⟩]
  exact empty_iff (s.hdr i).block

/-- A header that is divided takes its first part, and what the supply of headers has taken. -/
theorem Rep.sameFree_divided {mapRange : MapRange} {s₁ : Pmm} {taken : Nat → Prop}
    (grained : pageSize ∣ n) (supply : Supply mapRange (s.claim i) (xs ++ i :: ys) s₁)
    (fresh : t ∉ xs ++ i :: ys) (inside : t < s₁.slots.length) (short : n < (s.hdr i).size)
    (used₁ : ∀ x, UsedAt (s₁.blocksOf xs) x ∨ UsedAt (s₁.blocksOf ys) x ↔
      (UsedAt (s.blocksOf xs) x ∨ UsedAt (s.blocksOf ys) x) ∨ taken x)
    (wasFree : ∀ x, taken x → FreeAt (s.blocksOf (xs ++ i :: ys)) x) :
    SameFree s (s₁.cut i t n) ↔ n = 0 ∧ ∀ x, ¬ taken x := by
  have member : i ∈ xs ++ i :: ys := by simp
  have reserved := reserved_cut rep free (Nat.le_of_lt short) grained supply fresh inside short
  have used : ∀ x, UsedAt ((s₁.cut i t n).blocksOf (xs ++ i :: t :: ys)) x ↔
      UsedAt (s.blocksOf (xs ++ i :: ys)) x ∨ (((s.hdr i).block.front n).Has x ∨ taken x) := by
    intro x
    have parts := used₁ x
    rw [blocksOf_divided rep supply fresh inside, blocksOf_middle]
    simp only [usedAt_append, usedAt_cons, Block.front, Block.back, PhysMemHeader.block, free]
    simp only [true_and, Bool.false_eq_true, false_and, false_or]
    tauto
  have covered : ∀ x, Covered ((s₁.cut i t n).blocksOf (xs ++ i :: t :: ys)) x ↔
      Covered (s.blocksOf (xs ++ i :: ys)) x := fun x => reserved.reserves.covered
  have free₁ : ∀ x, ((s.hdr i).block.front n).Has x ∨ taken x →
      FreeAt (s.blocksOf (xs ++ i :: ys)) x := by
    rintro x (front | takes)
    · refine ⟨_, List.mem_map_of_mem member, free, ?_⟩
      exact (has_front_or_back (Nat.le_of_lt short)).mp (Or.inl front)
    · exact wasFree x takes
  unfold SameFree
  rw [rep.blocks_eq, reserved.rep.blocks_eq,
    rep.layout.freeAt_same_iff reserved.rep.layout covered used free₁]
  have empty : (∀ x, ¬ ((s.hdr i).block.front n).Has x) ↔ n = 0 :=
    empty_iff ((s.hdr i).block.front n)
  rw [← empty]
  simp only [not_or, forall_and]

omit free in
/-- A split that gets no header leaves the header whole. -/
theorem Rep.split_whole {mapRange : MapRange} (fits : n ≤ (s.hdr i).size)
    (reason : (s.hdr i).size = n ∨ (s.claim i).getNewHeader mapRange = .ok (none, s.claim i)) :
    (s.claim i).splitHeaderAtLen mapRange i n = .ok (s.claim i) := by
  have member : i ∈ xs ++ i :: ys := by simp
  have claimed := (rep.claim member).toLinked
  have inside := claimed.bound i member
  have read := rep.toLinked.hdr_claim member
  have headerUsed := rep.toLinked.headerInUse member
  have canary := rep.toLinked.canary i (rep.bound i member)
  unfold Pmm.splitHeaderAtLen Host.splitHeaderAtLen Pmm.host
  simp only [Pmm.host_getNewHeader, Pmm.header_eq inside, read, ok_bind, headerUsed, canary,
    beq_self_eq_true, assert_true, decide_eq_true fits]
  rcases reason with exact | refused
  · rw [if_pos exact]
    rfl
  · rw [refused]
    split <;> rfl

omit free in
/-- A split whose header comes from a supply. -/
theorem Rep.split_divided {mapRange : MapRange} {s₁ : Pmm} (short : n < (s.hdr i).size)
    (supply : Supply mapRange (s.claim i) (xs ++ i :: ys) s₁) (fresh : t ∉ xs ++ i :: ys)
    (inside : t < s₁.slots.length) (returned : (s.claim i).getNewHeader mapRange =
      .ok (some t, s₁.put t { s₁.hdr t with headerInUse := true })) :
    (s.claim i).splitHeaderAtLen mapRange i n = .ok (s₁.cut i t n) := by
  have member : i ∈ xs ++ i :: ys := by simp
  have claimed := rep.claim member
  have read := rep.toLinked.hdr_claim member
  refine splitHeaderAtLen_cut claimed.toLinked ?_ ?_ (claimed.header_bounds member).2.2 supply fresh
    inside returned
  · rw [read]
  · rw [read]
    exact short

/-- A split with a spare header takes the length. -/
theorem Rep.split_spare {mapRange : MapRange} (grained : pageSize ∣ n) (short : n < (s.hdr i).size)
    (spare : (xs ++ i :: ys).length + 1 < s.slots.length) :
    ∃ s' l', (s.claim i).splitHeaderAtLen mapRange i n = .ok s' ∧
      Reserved mapRange s (xs ++ i :: ys) i n s' l' ∧ (SameFree s s' ↔ n = 0) := by
  have member : i ∈ xs ++ i :: ys := by simp
  have claimed := (rep.claim member).toLinked
  have room : (xs ++ i :: ys).length + 1 < (s.claim i).slots.length := by
    simpa [Pmm.claim] using spare
  rcases claimed.getNewHeader_spec mapRange (Or.inr room) with ⟨-, -, full⟩ | supplied
  · exact absurd room (Nat.not_lt.mpr full)
  obtain ⟨s₁, t, supply, fresh, inside, returned⟩ := supplied
  refine ⟨s₁.cut i t n, _, rep.split_divided short supply fresh inside returned,
    reserved_cut rep free (Nat.le_of_lt short) grained supply fresh inside short, ?_⟩
  obtain ⟨left, right⟩ : (s.claim i).blocksOf xs = s.blocksOf xs ∧
      (s.claim i).blocksOf ys = s.blocksOf ys := rep.toLinked.blocksOf_put_beside
  have same : s₁ = s.claim i := by
    cases supply with
    | same => rfl
    | grown full => exact absurd room (Nat.not_lt.mpr full)
  have used₁ : ∀ x, UsedAt (s₁.blocksOf xs) x ∨ UsedAt (s₁.blocksOf ys) x ↔
      (UsedAt (s.blocksOf xs) x ∨ UsedAt (s.blocksOf ys) x) ∨ False := by
    intro x
    rw [same, left, right, or_false]
  rw [rep.sameFree_divided free grained supply fresh inside short used₁ (by simp)]
  simp

/-- A split that grows the pool takes the length and the header for the chunk. -/
theorem Rep.split_grown {answer : Option Nat} (grained : pageSize ∣ n) (short : n < (s.hdr i).size)
    (sealed : s.Sealed) (full : s.slots.length ≤ (xs ++ i :: ys).length + 1)
    (found : s.firstOther i = some k) :
    ∃ s' l', (s.claim i).splitHeaderAtLen (fun _ => .mapped answer) i n = .ok s' ∧
      Reserved (fun _ => .mapped answer) s (xs ++ i :: ys) i n s' l' ∧
      (SameFree s s' ↔ n = 0 ∧ (s.hdr k).size = 0) := by
  have member : i ∈ xs ++ i :: ys := by simp
  have claimed := (rep.claim member).toLinked
  have crowded : (s.claim i).slots.length ≤ (xs ++ i :: ys).length + 1 := by
    simpa [Pmm.claim] using full
  obtain ⟨listed, idle, other⟩ := rep.firstOther_spec found
  have search := rep.find_claim member
  rw [found] at search
  rcases claimed.getNewHeader_full (fun _ => .mapped answer) sealed crowded with
    ⟨-, failed⟩ | ⟨k', next, t, first, mapped, fresh, inside, returned⟩
  · cases failed k search
  rw [search] at first
  cases first
  cases mapped
  have read : (s.claim i).hdr k = s.hdr k := Pmm.hdr_put_ne other
  have supply : Supply (fun _ => .mapped answer) (s.claim i) (xs ++ i :: ys)
      ((s.claim i).grow k answer) :=
    .grown crowded sealed k answer listed (by rw [read]; exact idle) rfl
  refine ⟨_, _, rep.split_divided short supply fresh inside returned,
    reserved_cut rep free (Nat.le_of_lt short) grained supply fresh inside short, ?_⟩
  obtain ⟨left, right⟩ : (s.claim i).blocksOf xs = s.blocksOf xs ∧
      (s.claim i).blocksOf ys = s.blocksOf ys := rep.toLinked.blocksOf_put_beside
  have bound := claimed.bound k listed
  have beside : k ∈ xs ∨ k ∈ ys := by
    simp only [List.mem_append, List.mem_cons] at listed
    tauto
  have used₁ : ∀ x, UsedAt (((s.claim i).grow k answer).blocksOf xs) x ∨
      UsedAt (((s.claim i).grow k answer).blocksOf ys) x ↔
        (UsedAt (s.blocksOf xs) x ∨ UsedAt (s.blocksOf ys) x) ∨ (s.hdr k).block.Has x := by
    intro x
    rw [usedAt_grow bound, usedAt_grow bound, left, right, read]
    tauto
  have free₁ : ∀ x, (s.hdr k).block.Has x → FreeAt (s.blocksOf (xs ++ i :: ys)) x := fun x has =>
    ⟨_, List.mem_map_of_mem listed, idle, has⟩
  rw [rep.sameFree_divided free grained supply fresh inside short used₁ free₁]
  exact and_congr_right fun _ => empty_iff (s.hdr k).block

end Takes

end FelineOS.PhysMem

namespace FelineOS.Mem

open PhysMem (Host Pmm Rep Represented MapRange Reserved SameFree)
open Paging (Vmm Space MapResults MapOpts pageOffset pagesFor)
open Paging.I386 (Layout Tables mmu mmu_models Sound)

variable {layout : Layout} {next : Option Nat} {s : System} {l : List Nat} {i n : Nat}

/-! ## The condition -/

/-- The pool has no spare header. -/
def System.Full (s : System) : Prop := s.pmm.headersAllocated ≤ s.pmm.headersInUse + 1

instance (s : System) : Decidable s.Full := inferInstanceAs (Decidable (_ ≤ _))

/-- The virtual page that a new chunk is mapped to. -/
def System.chunkPage (s : System) : Option Nat :=
  match s.vmm.space.findFreeVirtmem sizeofHeaderList with
  | .ok (some virt) => some (virt / pageSize)
  | .ok none | .error _ => none

/-- The mapping state after the header `i` was split at `n`: a full pool has mapped a chunk. -/
def System.spaceAfter (s : System) (i n : Nat) : Space Tables :=
  if (s.pmm.hdr i).size ≠ n ∧ s.Full ∧ (s.pmm.firstOther i).isSome then
    match s.chunkPage with
    | some page => s.vmm.space.mark page true
    | none => s.vmm.space
  else s.vmm.space

/-- The split of the header `i` at `n` returns: it needs no header, or there is a spare one, or the
chunk chain can be followed to its end. -/
def System.SplitReturns (s : System) (i n : Nat) : Prop :=
  (s.pmm.hdr i).size = n ∨ ¬ s.Full ∨ s.pmm.Sealed

/-- The split of the header `i` at `n` takes no memory: the length is zero, and the rest of the
header stays free or is empty, and so is the header for a new chunk. -/
def System.TakesNothing (s : System) (i n : Nat) : Prop :=
  n = 0 ∧ ((s.pmm.hdr i).size = 0 ∨ ¬ s.Full ∨
    s.chunkPage.isSome ∧ ∃ k, s.pmm.firstOther i = some k ∧ (s.pmm.hdr k).size = 0)

/-- Virtual memory for `len` bytes is found after the split of the header `i` at `n`, or the split
takes no memory. -/
def System.Covers (s : System) (i n len : Nat) : Prop :=
  s.SplitReturns i n → (s.spaceAfter i n).findFreeVirtmem len = .ok none → s.TakesNothing i n

/-! ## The split -/

/-- Mapping the page for a chunk marks the page that the search finds. -/
theorem mapRange_chunk (sound : Sound layout s.vmm.space) {phys virt : Nat} {result : MapResults}
    {vmm' : Vmm Tables} (word : phys < wordLimit) (aligned : pageSize ∣ phys)
    (maps : s.vmm.mapRange (mmu layout) phys sizeofHeaderList MapOpts.none =
      .ok (result, virt, vmm')) :
    (result = .success ∧ ∃ page, s.chunkPage = some page ∧
      vmm'.space.searchable = (s.vmm.space.mark page true).searchable) ∨
    (result ≠ .success ∧ s.chunkPage = none ∧ vmm'.space.searchable = s.vmm.space.searchable) := by
  have offset : pageOffset phys = 0 := Nat.mod_eq_zero_of_dvd aligned
  have length : wrap (sizeofHeaderList + pageOffset phys) = sizeofHeaderList := by
    rw [offset]
    decide
  have single : pagesFor phys sizeofHeaderList = 1 := by
    unfold pagesFor
    rw [length]
    decide
  rcases Paging.mapRange_inv maps with
    ⟨rfl, -, rfl, search⟩ | ⟨base, -, -, found, search, -, -, -⟩
  · rw [length] at search
    refine Or.inr ⟨by decide, ?_, rfl⟩
    unfold System.chunkPage
    rw [search]
  · rw [length] at search
    rcases Paging.mapRange_onePage (mmu_models layout) sound.agrees sound.window word single maps with
      rfl | rfl
    · refine Or.inl ⟨rfl, base, ?_, ?_⟩
      · unfold System.chunkPage
        rw [search]
        exact congrArg some (Paging.page_div base)
      · rcases Paging.mapRange_cases (mmu_models layout) sound.agrees rfl word maps with
          ⟨failed, -⟩ | ⟨-, base', -, found', mapped⟩
        · exact absurd rfl failed
        · obtain rfl : base = base' := by
            rw [found] at found'
            exact Nat.eq_of_mul_eq_mul_right (by decide) (Nat.add_right_cancel found')
          rw [mapped.searchable, single, ← Library.overlay_succ, Library.overlay_zero]
          rfl
    · rcases Paging.mapRange_results maps with ⟨-, none⟩ | ⟨other, -⟩
      · rw [length, search] at none
        cases none
      · rcases other with contrary | contrary | contrary <;> cases contrary

/-- What the split of a claimed header leaves. -/
structure Split (layout : Layout) (s : System) (i n : Nat) (pmm : Pmm) (vmm : Vmm Tables) : Prop where
  /-- The header list is well formed and has the header. -/
  listed : ∃ l, Rep pmm l ∧ i ∈ l
  /-- The header starts where it did. -/
  memory : (pmm.hdr i).memory = (s.pmm.hdr i).memory
  /-- The virtual manager is sound. -/
  sound : Sound layout vmm.space
  /-- The mapping state is the one to be searched. -/
  searchable : vmm.space.searchable = (s.spaceAfter i n).searchable
  /-- What was taken. -/
  takes : SameFree s.pmm pmm ↔ s.TakesNothing i n

section Splits

variable (rep : Rep s.pmm l) (member : i ∈ l) (free : (s.pmm.hdr i).inUse = false)

include rep member free

/-- A header that stays whole. -/
theorem Split.whole {vmm : Vmm Tables} (same : vmm.space.searchable = s.vmm.space.searchable)
    (sound' : Sound layout vmm.space) (reason : (s.pmm.hdr i).size = n ∨ n < (s.pmm.hdr i).size ∧
      s.Full ∧ (s.pmm.firstOther i = none ∨ s.chunkPage = none)) :
    Split layout s i n (s.pmm.claim i) vmm := by
  obtain ⟨xs, ys, rfl⟩ := List.append_of_mem member
  refine ⟨⟨_, rep.claim member, member⟩, ?_, sound', ?_, ?_⟩
  · rw [rep.toLinked.hdr_claim member]
  · rw [same]
    unfold System.spaceAfter
    rcases reason with exact | ⟨-, -, alone | unmapped⟩
    · rw [if_neg (by simp [exact])]
    · rw [if_neg (by simp [alone])]
    · rw [unmapped]
      simp
  · rw [rep.sameFree_claim free]
    unfold System.TakesNothing
    rcases reason with exact | ⟨short, full, alone | unmapped⟩
    · rw [exact]
      constructor
      · intro zero
        exact ⟨zero, Or.inl zero⟩
      · exact And.left
    · simp only [alone, full, not_true_eq_false, reduceCtorEq, false_and, exists_false,
        and_false, or_false]
      omega
    · simp only [unmapped, full, not_true_eq_false, Option.isSome_none, Bool.false_eq_true, false_and,
        or_false]
      omega

omit rep member free in
/-- A header that is divided. -/
theorem Split.divided {mapRange : MapRange} {pmm : Pmm} {l' : List Nat} {vmm : Vmm Tables}
    (reserved : Reserved mapRange s.pmm l i n pmm l') (sound' : Sound layout vmm.space)
    (searchable : vmm.space.searchable = (s.spaceAfter i n).searchable)
    (takes : SameFree s.pmm pmm ↔ s.TakesNothing i n) : Split layout s i n pmm vmm :=
  ⟨⟨l', reserved.rep, reserved.member⟩, reserved.memory, sound', searchable, takes⟩

omit free in
/-- Without a chunk a full pool has no header for the split. -/
theorem split_refused {mapRange : MapRange} (fits : n ≤ (s.pmm.hdr i).size) (sealed : s.pmm.Sealed)
    (full : s.pmm.slots.length ≤ l.length + 1)
    (failed : s.pmm.firstOther i = none ∨ mapRange = fun _ => .failed) :
    (s.pmm.claim i).splitHeaderAtLen mapRange i n = .ok (s.pmm.claim i) := by
  have crowded : (s.pmm.claim i).slots.length ≤ l.length + 1 := by simpa [Pmm.claim] using full
  have search := rep.find_claim member
  obtain ⟨xs, ys, rfl⟩ := List.append_of_mem member
  apply rep.split_whole fits
  right
  rcases (rep.claim member).toLinked.getNewHeader_full mapRange sealed crowded with
    ⟨refused, -⟩ | ⟨k, next, t, found, mapped, -⟩
  · exact refused
  · rw [search] at found
    rcases failed with none | rfl
    · rw [none] at found
      cases found
    · cases mapped

/-- The split in a state whose pool is full, with the answers of the virtual manager. -/
theorem split_full {mapRange : MapRange} {vmm : Vmm Tables} (sound : Sound layout s.vmm.space)
    (grained : pageSize ∣ n) (short : n < (s.pmm.hdr i).size) (full : s.Full)
    (sealed : s.pmm.Sealed) (grown : Sound layout vmm.space)
    (answers : AnswersAt layout next ⟨s.pmm.claim i, s.vmm⟩ l mapRange vmm) :
    ∃ pmm, Split layout s i n pmm vmm ∧
      (s.pmm.claim i).splitHeaderAtLen mapRange i n = .ok pmm := by
  have fits := Nat.le_of_lt short
  have search := rep.find_claim member
  have crowded : s.pmm.slots.length ≤ l.length + 1 := by
    unfold System.Full at full
    rwa [rep.inUse, rep.allocated] at full
  rcases answers with ⟨spare, -⟩ | ⟨-, ⟨alone, rfl, rfl⟩ | ⟨k, result, virt, found, maps, outcome⟩⟩
  · exact absurd full (Nat.not_le.mpr spare)
  · rw [search] at alone
    exact ⟨_, .whole rep member free rfl grown (Or.inr ⟨short, full, Or.inl alone⟩),
      split_refused rep member fits sealed crowded (Or.inl alone)⟩
  rw [search] at found
  obtain ⟨listed, -, other⟩ := rep.firstOther_spec found
  have read : (s.pmm.claim i).hdr k = s.pmm.hdr k := Pmm.hdr_put_ne other
  simp only [read] at maps
  have chunk := mapRange_chunk sound (rep.memory_word listed) (rep.header_bounds listed).1 maps
  rcases outcome with ⟨success, rfl⟩ | ⟨failed, rfl⟩
  · obtain ⟨-, page, found', marked⟩ := chunk.resolve_right fun contrary => contrary.1 success
    obtain ⟨xs, ys, rfl⟩ := List.append_of_mem member
    obtain ⟨pmm, l', returned, reserved, takes⟩ :=
      rep.split_grown free grained short sealed crowded found
    refine ⟨pmm, .divided reserved grown ?_ ?_, returned⟩
    · rw [marked]
      unfold System.spaceAfter
      rw [if_pos ⟨Nat.ne_of_gt short, full, by simp [found]⟩, found']
    · rw [takes]
      unfold System.TakesNothing
      simp only [found, found', full, Option.some.injEq, exists_eq_left', Option.isSome_some,
        not_true_eq_false, false_or, true_and]
      refine and_congr_right fun zero => (or_iff_right ?_).symm
      omega
  · obtain ⟨-, none, same⟩ := chunk.resolve_left fun contrary => failed contrary.1
    exact ⟨_, .whole rep member free same grown (Or.inr ⟨short, full, Or.inr none⟩),
      split_refused rep member fits sealed crowded (Or.inr rfl)⟩

/-- The split of a claimed header returns in the states that the condition says, and leaves what
the condition says. -/
theorem split_outcome (next : Option Nat) (sound : Sound layout s.vmm.space) (grained : pageSize ∣ n)
    (fits : n ≤ (s.pmm.hdr i).size) :
    (¬ s.SplitReturns i n ∧ ∃ fault,
      System.splitHeaderAtLen layout next ⟨s.pmm.claim i, s.vmm⟩ i n = .error fault) ∨
    s.SplitReturns i n ∧ ∃ pmm vmm, Split layout s i n pmm vmm ∧
      System.splitHeaderAtLen layout next ⟨s.pmm.claim i, s.vmm⟩ i n = .ok ⟨pmm, vmm⟩ := by
  have claimed : Rep (s.pmm.claim i) l := rep.claim member
  obtain ⟨mapRange, vmm', answers, sim⟩ := @splitHeaderAtLen_exact layout next
    ⟨s.pmm.claim i, s.vmm⟩ l i n claimed sound member
  have read := rep.toLinked.hdr_claim member
  have size : ((s.pmm.claim i).hdr i).size = (s.pmm.hdr i).size := by rw [read]
  have grown := (answers.answers claimed).chunkMapped.grown sound
  simp only [size] at sim
  have fullIff : s.Full ↔ s.pmm.slots.length ≤ l.length + 1 := by
    unfold System.Full
    rw [rep.inUse, rep.allocated]
  obtain ⟨xs, ys, rfl⟩ := List.append_of_mem member
  by_cases exact : (s.pmm.hdr i).size = n
  · right
    rw [rep.split_whole fits (Or.inl exact), if_pos exact] at sim
    exact ⟨Or.inl exact, _, _, .whole rep member free rfl sound (Or.inl exact), sim⟩
  have short : n < (s.pmm.hdr i).size := Nat.lt_of_le_of_ne fits (Ne.symm exact)
  simp only [if_neg exact] at sim
  by_cases full : s.Full
  case neg =>
    have spare := Nat.lt_of_not_le (mt fullIff.mpr full)
    obtain ⟨pmm, l', returned, reserved, takes⟩ :=
      @Rep.split_spare s.pmm xs ys i n rep free mapRange grained short spare
    rw [returned] at sim
    have same : vmm' = s.vmm := by
      rcases answers with ⟨-, -, same⟩ | ⟨other, -⟩
      · exact same
      · exact absurd other full
    refine Or.inr ⟨Or.inr (Or.inl full), _, _, .divided reserved grown.sound ?_ ?_, sim⟩
    · rw [same]
      unfold System.spaceAfter
      rw [if_neg (by simp [full])]
    · rw [takes]
      unfold System.TakesNothing
      simp [full]
  case pos =>
  by_cases sealed : s.pmm.Sealed
  case neg =>
    left
    refine ⟨by simp [System.SplitReturns, exact, full, sealed], ?_⟩
    rcases rep.claim_split free fits grained mapRange with ⟨s', l', reserved, -⟩ | ⟨-, -, stops⟩
    · rcases reserved.ready with whole | follows | spare
      · exact absurd whole exact
      · exact absurd follows sealed
      · exact absurd spare (Nat.not_lt.mpr (fullIff.mp full))
    · rcases stops with stop | stop
      · exact ⟨_, by rw [sim, stop]; rfl⟩
      · exact ⟨_, by rw [sim, stop]; rfl⟩
  case pos =>
    obtain ⟨pmm, split, returned⟩ :=
      split_full rep member free sound grained short full sealed grown.sound answers
    rw [returned] at sim
    exact Or.inr ⟨Or.inr (Or.inr sealed), pmm, vmm', split, sim⟩

end Splits

/-! ## The calls -/

/-- The call leaves the free physical memory as it was unless it returns `mem_success`. -/
def Atomic (s : System) (outcome : Except Fault (MemResults × Nat × System)) : Prop :=
  ∀ result virt s', outcome = .ok (result, virt, s') → result ≠ .success → SameFree s.pmm s'.pmm

/-- The header that `get_mem` takes. -/
def System.firstFit (s : System) (len : Nat) : Option Nat :=
  s.pmm.chain.find? fun i => !(s.pmm.hdr i).inUse && decide (roundUpToPage len ≤ (s.pmm.hdr i).size)

/-- The header that `get_mem_from` takes: the first one that reaches the address, if it is free and
has the length. -/
def System.headerAt (s : System) (phys len : Nat) : Option Nat :=
  match s.pmm.reached s.pmm.chain phys with
  | none => none
  | some i => if (s.pmm.hdr i).inUse || decide ((s.pmm.hdr i).size < len) then none else some i

/-- What the two calls make of the answer of `map_range`, with what they do about permissions. -/
def afterMap (pmm : Pmm) (denied : Nat → Vmm Tables → Except Fault (MemResults × Nat × System)) :
    MapResults × Nat × Vmm Tables → Except Fault (MemResults × Nat × System)
  | (.success, virt, vmm) => .ok (.success, virt, ⟨pmm, vmm⟩)
  | (.noVirtmem, virt, vmm) => .ok (.noVirtmem, virt, ⟨pmm, vmm⟩)
  | (.noPerm, virt, vmm) | (.errKernelSpace, virt, vmm) => denied virt vmm
  | (.alreadyMapped, _, _) | (.notMapped, _, _) | (.noPhysmem, _, _) | (.invalidAlign, _, _)
  | (.invalidOption, _, _) => .error .abort

/-- A call that does not return leaves nothing. -/
theorem atomic_error {outcome : Except Fault (MemResults × Nat × System)} {fault : Fault}
    (stops : outcome = .error fault) : Atomic s outcome := by
  intro result virt s' returns
  rw [stops] at returns
  cases returns

/-- A call that maps what it has taken, and returns `mem_no_virtmem` when there is no virtual memory,
is all or nothing exactly where the condition holds, whatever it does about permissions. -/
theorem atomic_iff_covers {pmm : Pmm} {vmm : Vmm Tables} {phys len : Nat}
    {outcome : Except Fault (MemResults × Nat × System)}
    {denied : Nat → Vmm Tables → Except Fault (MemResults × Nat × System)} (split : Split layout s i n pmm vmm)
    (returns : s.SplitReturns i n) (word : phys < wordLimit)
    (follows : outcome = vmm.mapRange (mmu layout) phys len MapOpts.none >>= afterMap pmm denied) :
    Atomic s outcome ↔ s.Covers i n (wrap (len + pageOffset phys)) := by
  obtain ⟨result, virt, vmm', maps⟩ : ∃ result virt vmm',
      vmm.mapRange (mmu layout) phys len MapOpts.none = .ok (result, virt, vmm') :=
    Paging.mapRange_returns (mmu_models layout) (by decide) split.sound.agrees split.sound.window
      rfl word
  have room := Paging.mapRange_results maps
  rw [Paging.findFreeVirtmem_congr split.searchable] at room
  rw [maps, ok_bind] at follows
  rcases room with ⟨rfl, noRoom⟩ | ⟨found, room⟩
  · unfold System.Covers
    simp only [noRoom, returns, true_implies, ← split.takes]
    constructor
    · intro atomic
      exact atomic _ _ _ follows (by decide)
    · rintro same _ _ _ returned -
      rw [follows] at returned
      cases returned
      exact same
  · have covers : s.Covers i n (wrap (len + pageOffset phys)) := fun _ none => absurd none room
    refine iff_of_true ?_ covers
    rcases found with rfl | rfl | rfl
    · intro _ _ _ returned failed
      rw [follows] at returned
      cases returned
      exact absurd rfl failed
    · exact atomic_error follows
    · exact atomic_error follows

/-- `get_mem` leaves the free memory alone when it fails exactly where the condition holds for the
header it takes. -/
theorem getMem_atomic_iff (represented : Represented s.pmm) (sound : Sound layout s.vmm.space)
    (next : Option Nat) {len : Nat} (word : len < wordLimit) :
    Atomic s (s.getMem layout next len) ↔
      ∀ i, s.firstFit len = some i → s.Covers i (roundUpToPage len) len := by
  have rep := represented.rep
  have found : s.pmm.findFreePages (roundUpToPage len) = .ok (s.firstFit len) :=
    rep.toLinked.find_eq _
  cases fit : s.firstFit len with
  | none =>
    rw [fit] at found
    refine iff_of_true ?_ (by simp)
    intro result virt s' returned _
    simp only [System.getMem, System.getMemArea, Host.getMemAreaAny, System.host, found, ok_bind,
      pure, Except.pure, Except.ok.injEq, Prod.mk.injEq] at returned
    obtain ⟨-, -, rfl⟩ := returned
    exact fun _ => Iff.rfl
  | some i =>
    rw [fit] at found
    have passed := List.find?_some fit
    simp only [Bool.and_eq_true, Bool.not_eq_true', decide_eq_true_eq] at passed
    have member := List.mem_of_find?_eq_some fit
    have unfolded : s.pmm.put i { s.pmm.hdr i with inUse := true } = s.pmm.claim i := rfl
    have claims := rep.toLinked.claim_eq member passed.1
    rw [unfolded] at claims
    have whole : wrap (len + pageOffset (s.pmm.hdr i).memory) = len := by
      rw [show pageOffset (s.pmm.hdr i).memory = 0 from
        Nat.mod_eq_zero_of_dvd (rep.header_bounds member).1]
      exact wrap_of_lt word
    simp only [Option.some.injEq, forall_eq']
    rcases split_outcome rep member passed.1 next sound (pageSize_dvd_roundUpToPage len) passed.2 with
      ⟨stuck, fault, stops⟩ | ⟨returns, pmm, vmm, split, splits⟩
    · have stopped : s.getMem layout next len = .error fault := by
        simp only [System.getMem, System.getMemArea, Host.getMemAreaAny, System.host,
          System.host_splitHeaderAtLen, found, ok_bind, claims, if_true, stops, error_bind]
      exact iff_of_true (atomic_error stopped) fun returns => absurd returns stuck
    · obtain ⟨l', rep', member'⟩ := split.listed
      have follows : s.getMem layout next len =
          vmm.mapRange (mmu layout) (s.pmm.hdr i).memory len MapOpts.none >>=
            afterMap pmm fun virt vmm => .ok (.permDenied, virt, ⟨pmm, vmm⟩) := by
        simp only [System.getMem, System.getMemArea, Host.getMemAreaAny, System.host,
          System.host_splitHeaderAtLen, found, ok_bind, claims, if_true, splits,
          Pmm.header_eq (rep'.bound i member'), split.memory, pure_bind, Option.getD_some]
        refine bind_congr ?_
        rintro ⟨result, virt, vmm⟩
        cases result <;> rfl
      have core := atomic_iff_covers split returns (rep.memory_word member) follows
      rwa [whole] at core

/-- `get_mem_from` leaves the free memory alone when it fails exactly where the condition holds for
the header it takes. -/
theorem getMemFrom_atomic_iff (represented : Represented s.pmm) (sound : Sound layout s.vmm.space)
    (next : Option Nat) {phys len : Nat} (word : phys < wordLimit) :
    Atomic s (s.getMemFrom layout next phys len) ↔ ∀ i, s.headerAt phys len = some i →
      s.Covers i (roundUpToPage len) (wrap (len + pageOffset phys)) := by
  have rep := represented.rep
  have found : s.pmm.findHeaderForPage phys len = .ok (s.headerAt phys len) := by
    unfold Pmm.findHeaderForPage System.headerAt Pmm.reached
    rw [rep.toLinked.find_eq, ok_bind]
    cases reached : s.pmm.chain.find? fun i => Pmm.PhysMemHeader.reaches phys (s.pmm.hdr i) with
    | none => rfl
    | some i =>
      have member := List.mem_of_find?_eq_some reached
      simp only [Pmm.header_eq (rep.bound i member), ok_bind]
      rfl
  cases fit : s.headerAt phys len with
  | none =>
    rw [fit] at found
    refine iff_of_true ?_ (by simp)
    intro result virt s' returned _
    simp only [System.getMemFrom, System.getMemAreaAt, Host.getMemAreaAt, System.host, found, ok_bind,
      pure, Except.pure, Except.ok.injEq, Prod.mk.injEq] at returned
    obtain ⟨-, -, rfl⟩ := returned
    exact fun _ => Iff.rfl
  | some i =>
    rw [fit] at found
    obtain ⟨reached, free, fits⟩ : s.pmm.reached s.pmm.chain phys = some i ∧
        (s.pmm.hdr i).inUse = false ∧ len ≤ (s.pmm.hdr i).size := by
      unfold System.headerAt at fit
      split at fit
      · cases fit
      · split at fit
        · cases fit
        · cases fit
          rename_i reached fitting
          simp only [Bool.or_eq_true, decide_eq_true_eq, not_or, Nat.not_lt] at fitting
          exact ⟨reached, by simpa using fitting.1, fitting.2⟩
    obtain ⟨member, above, -⟩ := rep.reached_spec reached
    obtain ⟨-, aligned, bound⟩ := rep.header_bounds member
    have rounded : roundUpToPage len ≤ (s.pmm.hdr i).size := roundUpToPage_le (by omega) aligned fits
    have unfolded : s.pmm.put i { s.pmm.hdr i with inUse := true } = s.pmm.claim i := rfl
    have claims := rep.toLinked.claim_eq member free
    rw [unfolded] at claims
    -- The lookup has `header->memory <= addr`, so the front split is never taken.
    have back : ¬ phys < ((s.pmm.claim i).hdr i).memory := by
      rw [rep.toLinked.hdr_claim member]
      exact Nat.not_lt.mpr above
    have inside := (rep.claim member).bound i member
    simp only [Option.some.injEq, forall_eq']
    rcases split_outcome rep member free next sound (pageSize_dvd_roundUpToPage len) rounded with
      ⟨stuck, fault, stops⟩ | ⟨returns, pmm, vmm, split, splits⟩
    · have stopped : s.getMemFrom layout next phys len = .error fault := by
        simp only [System.getMemFrom, System.getMemAreaAt, Host.getMemAreaAt, System.host,
          System.host_splitHeaderAtLen, found, ok_bind, claims, if_true, Pmm.header_eq inside,
          if_neg back, pure_bind, stops, error_bind]
      exact iff_of_true (atomic_error stopped) fun returns => absurd returns stuck
    · have follows : s.getMemFrom layout next phys len =
          vmm.mapRange (mmu layout) phys len MapOpts.none >>=
            afterMap pmm fun _ _ => .error .abort := by
        simp only [System.getMemFrom, System.getMemAreaAt, Host.getMemAreaAt, System.host,
          System.host_splitHeaderAtLen, found, ok_bind, claims, if_true, Pmm.header_eq inside,
          if_neg back, pure_bind, splits]
        refine bind_congr ?_
        rintro ⟨result, virt, vmm⟩
        cases result <;> rfl
      exact atomic_iff_covers split returns word follows

/-- A request that fails leaves the free physical memory as it was exactly when virtual memory is
found for the header that it takes, or the header gives no memory. -/
theorem get_mem_atomic_iff (layout : Layout) (next : Option Nat) (s : System) (phys len : UInt32)
    (represented : Represented s.pmm) (sound : Sound layout s.vmm.space) :
    (Atomic s (s.getMem layout next len.toNat) ↔ ∀ i, s.firstFit len.toNat = some i →
      s.Covers i (roundUpToPage len.toNat) len.toNat) ∧
    (Atomic s (s.getMemFrom layout next phys.toNat len.toNat) ↔
      ∀ i, s.headerAt phys.toNat len.toNat = some i →
        s.Covers i (roundUpToPage len.toNat) (wrap (len.toNat + pageOffset phys.toNat))) :=
  ⟨getMem_atomic_iff represented sound next len.toNat_lt,
    getMemFrom_atomic_iff represented sound next phys.toNat_lt⟩

/-- Two free pages. -/
def twoPages : Pmm := Pmm.ofBlocks [⟨0x100000, 0x2000, false⟩]

/-- The two pages are represented. -/
theorem represented_twoPages : Represented twoPages :=
  (PhysMem.repInv_ofBlocks (by decide) (by decide)).1

/-- Requests for one of two pages after booting. -/
theorem get_mem_atomic_iff_boot : ∃ vmm, Paging.I386.setupPaging Paging.I386.exampleLayout = .ok vmm ∧
    let s : System := ⟨twoPages, vmm⟩
    (Atomic s (s.getMem Paging.I386.exampleLayout none (0x1000 : UInt32).toNat) ↔
      ∀ i, s.firstFit (0x1000 : UInt32).toNat = some i →
        s.Covers i (roundUpToPage (0x1000 : UInt32).toNat) (0x1000 : UInt32).toNat) ∧
    (Atomic s (s.getMemFrom Paging.I386.exampleLayout none (0x100000 : UInt32).toNat
        (0x1000 : UInt32).toNat) ↔
      ∀ i, s.headerAt (0x100000 : UInt32).toNat (0x1000 : UInt32).toNat = some i →
        s.Covers i (roundUpToPage (0x1000 : UInt32).toNat)
          (wrap ((0x1000 : UInt32).toNat + pageOffset (0x100000 : UInt32).toNat))) := by
  obtain ⟨vmm, setup, -⟩ := Paging.I386.setupPaging_returns Paging.I386.exampleLayout
  exact ⟨vmm, setup, get_mem_atomic_iff _ none ⟨twoPages, vmm⟩ 0x100000 0x1000 represented_twoPages
    (Paging.I386.setupPaging_sound setup)⟩

/-- The mapping state with every virtual page mapped. -/
def exhausted (vmm : Vmm Tables) : Vmm Tables :=
  { vmm with space := ⟨fun _ => true, { vmm.space.tables with pageTables := fun _ _ => 1 }⟩ }

/-- The exhausted mapping state is sound. -/
theorem sound_exhausted {vmm : Vmm Tables} (sound : Sound layout vmm.space) :
    Sound layout (exhausted vmm).space := by
  have well := sound.agrees.good
  refine ⟨⟨⟨well.there, well.table, well.window⟩, ?_⟩, fun _ _ _ => rfl⟩
  intro i _
  have present : (Paging.I386.entryView 1).isSome = true := by decide
  exact present.symm

/-- No page is found when all are mapped. -/
theorem findFreeVirtmem_exhausted (vmm : Vmm Tables) :
    (exhausted vmm).space.findFreeVirtmem 0x1000 = .ok none := by
  have ends : ∀ i, Paging.I386.windowPage ≤ i → i < Paging.pageCount →
      (exhausted vmm).space.searchable i = true := fun _ _ _ => rfl
  obtain ⟨answer, search⟩ : ∃ answer, (exhausted vmm).space.findFreeVirtmem 0x1000 = .ok answer :=
    Paging.findFreeVirtmem_returns ends (by decide)
  cases answer with
  | none => exact search
  | some virt =>
    obtain ⟨base, rfl, -, inside, accepts⟩ := Paging.findFreeVirtmem_page search
    have free : (exhausted vmm).space.searchable base = false :=
      Paging.freeFromHere_onePage inside (by decide) accepts
    cases free

/-- With no virtual memory left, requests for one of two pages fail and take the page. -/
theorem get_mem_leaks : ∃ vmm, Paging.I386.setupPaging Paging.I386.exampleLayout = .ok vmm ∧
    let s : System := ⟨twoPages, exhausted vmm⟩
    Represented s.pmm ∧ Sound Paging.I386.exampleLayout s.vmm.space ∧
      ¬ Atomic s (s.getMem Paging.I386.exampleLayout none 0x1000) ∧
      ¬ Atomic s (s.getMemFrom Paging.I386.exampleLayout none 0x100000 0x1000) := by
  obtain ⟨vmm, setup, -⟩ := Paging.I386.setupPaging_returns Paging.I386.exampleLayout
  have sound := sound_exhausted (Paging.I386.setupPaging_sound setup)
  have leaks : ¬ System.Covers ⟨twoPages, exhausted vmm⟩ 0 0x1000 0x1000 := by
    have spare : ¬ System.Full ⟨twoPages, exhausted vmm⟩ := by
      show ¬ twoPages.headersAllocated ≤ twoPages.headersInUse + 1
      decide +kernel
    have space : System.spaceAfter ⟨twoPages, exhausted vmm⟩ 0 0x1000 = (exhausted vmm).space := by
      unfold System.spaceAfter
      rw [if_neg (by simp [spare])]
    intro covers
    have nothing := covers (Or.inr (Or.inl spare)) (by rw [space]; exact findFreeVirtmem_exhausted vmm)
    exact absurd nothing.1 (by decide)
  refine ⟨vmm, setup, represented_twoPages, sound, ?_, ?_⟩
  · rw [getMem_atomic_iff represented_twoPages sound none (by decide)]
    intro covers
    have first : (twoPages.chain.find? fun i => !(twoPages.hdr i).inUse &&
        decide (roundUpToPage 0x1000 ≤ (twoPages.hdr i).size)) = some 0 := by decide +kernel
    unfold System.firstFit at covers
    rw [first] at covers
    exact leaks (covers 0 rfl)
  · rw [getMemFrom_atomic_iff represented_twoPages sound none (by decide)]
    intro covers
    refine leaks (covers 0 ?_)
    have reached : twoPages.reached twoPages.chain 0x100000 = some 0 := by decide +kernel
    have fits : ((twoPages.hdr 0).inUse || decide ((twoPages.hdr 0).size < 0x1000)) = false := by
      decide +kernel
    unfold System.headerAt
    simp only [reached, fits]
    rfl

end FelineOS.Mem
