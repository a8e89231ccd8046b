import FelineOS.Verif.MemManagers
import FelineOS.Verif.OwnMemory
import FelineOS.Verif.PmmRuns

/-!
# What a new chunk of headers costs

`get_header_chunk` needs one page. It asks `find_free_pages` for a length that rounds down to
nothing, so it takes the first free header whatever its size, claims it whole and maps the chunk at
its start. The claim is not followed by a split. So the free memory shrinks by one page exactly when
that header is one page long (`getHeaderChunk_onePage_iff`); where the boot has left headers that
overlap, the bytes that other free headers have as well decide.
-/

namespace FelineOS.PhysMem

open Library

variable {s s' : Pmm} {i j k c x : Nat} {l : List Nat} {mapRange : MapRange}

/-! ## The header that is taken -/

/-- The loops over the header list stop at a header in use that passes the test. -/
theorem findFrom_some {test : PhysMemHeader → Bool} {fuel : Nat} {cursor : Option Nat}
    (found : s.findFrom test fuel cursor = .ok (some i)) :
    (s.hdr i).headerInUse = true ∧ test (s.hdr i) = true := by
  induction fuel generalizing cursor with
  | zero => cases cursor <;> cases found
  | succ fuel ih =>
    cases cursor with
    | none => cases found
    | some j =>
      obtain ⟨h, read, body⟩ := of_bind_ok found
      obtain ⟨-, rfl⟩ := header_ok read
      obtain ⟨live, body⟩ := assert_ok body
      split at body
      · cases body
        exact ⟨live, by assumption⟩
      · exact ih body

/-- The header `k` is the one that `find_free_pages` gives to `get_header_chunk`, and the call has
only claimed it. -/
structure Taken (s s' : Pmm) (k : Nat) : Prop where
  /-- The search stops at it. -/
  found : s.findFreePages (pageFloor 1) = .ok (some k)
  /-- Every other header is as before. -/
  headers : ∀ j, s'.hdr j = if j = k then { s.hdr k with inUse := true } else s.hdr j

/-- The header controls memory that is free. -/
theorem Taken.free (taken : Taken s s' k) :
    (s.hdr k).headerInUse = true ∧ (s.hdr k).inUse = false := by
  obtain ⟨live, passed⟩ := findFrom_some taken.found
  simp only [Bool.and_eq_true, Bool.not_eq_true'] at passed
  exact ⟨live, passed.1⟩

/-- A call that returns a chunk has taken a header. -/
theorem getHeaderChunk_taken (returned : s.getHeaderChunk mapRange = .ok (some c, s')) :
    ∃ k, Taken s s' k := by
  unfold Pmm.getHeaderChunk Host.getHeaderChunk Pmm.host at returned
  obtain ⟨found, finds, body⟩ := of_bind_ok returned
  cases found with
  | none => cases body
  | some k =>
    obtain ⟨⟨result, claimed⟩, claims, body⟩ := of_bind_ok body
    obtain ⟨inside, rfl, -, rfl⟩ := internalClaimMemArea_ok claims
    simp only [bne_self_eq_false, Bool.false_eq_true, if_false, ok_bind] at body
    cases outcome : mapRange (s.put k { s.hdr k with inUse := true }) with
    | failed =>
      rw [outcome] at body
      obtain ⟨undone, -, last⟩ := of_bind_ok body
      cases last
    | mapped next =>
      rw [outcome] at body
      cases body
      exact ⟨k, finds, fun j => hdr_grow next inside⟩

/-- The free memory that is left is that of the other headers. -/
theorem Taken.freeIn (taken : Taken s s' k) : s'.FreeIn x ↔ s.FreeBeside k x := by
  have beside : ∀ j, j ≠ k → s'.face j = s.face j := by
    intro j different
    unfold Pmm.face
    rw [taken.headers j, if_neg different]
  constructor
  · rintro ⟨j, live, free, has⟩
    have different : j ≠ k := by
      rintro rfl
      unfold Pmm.face at free
      rw [taken.headers j, if_pos rfl] at free
      cases free
    rw [beside j different] at live free has
    exact ⟨j, different, live, free, has⟩
  · rintro ⟨j, different, live, free, has⟩
    rw [← beside j different] at live free has
    exact ⟨j, live, free, has⟩

/-- The free memory before the call was that of the header and of the others. -/
theorem Taken.freeBefore (taken : Taken s s' k) :
    s.FreeIn x ↔ (s.hdr k).block.Has x ∨ s.FreeBeside k x := by
  obtain ⟨live, free⟩ := taken.free
  constructor
  · rintro ⟨j, alive, unused, has⟩
    by_cases same : j = k
    · subst same
      exact .inl has
    · exact .inr ⟨j, same, alive, unused, has⟩
  · rintro (has | ⟨j, -, alive, unused, has⟩)
    · exact ⟨k, live, free, has⟩
    · exact ⟨j, alive, unused, has⟩

/-! ## One page -/

/-- The free memory has shrunk by the page at `place`, which lay in one free header. -/
structure OnePageTaken (s s' : Pmm) (place : Nat) : Prop where
  /-- It is a page. -/
  aligned : pageSize ∣ place
  /-- It lay wholly in a free header. -/
  within : ∃ j, (s.face j).live = true ∧ (s.face j).block.used = false ∧
    ∀ x, place ≤ x → x < place + pageSize → (s.face j).block.Has x
  /-- All other free memory is still free. -/
  left : ∀ x, s'.FreeIn x ↔ s.FreeIn x ∧ ¬ (place ≤ x ∧ x < place + pageSize)

/-- The first page of the header is in no other free header, and the rest of it is. -/
structure PageAlone (s : Pmm) (k : Nat) : Prop where
  /-- The header has a page. -/
  whole : pageSize ≤ (s.hdr k).size
  /-- No other free header has a byte of the page. -/
  alone : ∀ x, (s.hdr k).memory ≤ x → x < (s.hdr k).memory + pageSize → ¬ s.FreeBeside k x
  /-- What is behind the page is in other free headers as well. -/
  shared : ∀ x, s.Behind k pageSize x → s.FreeBeside k x

/-- The free header that holds the page of the chunk is the one that was taken. -/
theorem OnePageTaken.pageAlone (taken : Taken s s' k)
    (one : OnePageTaken s s' (s.hdr k).memory) : PageAlone s k := by
  have alone : ∀ x, (s.hdr k).memory ≤ x → x < (s.hdr k).memory + pageSize →
      ¬ s.FreeBeside k x := by
    intro x above below beside
    exact ((one.left x).mp (taken.freeIn.mpr beside)).2 ⟨above, below⟩
  refine ⟨?_, alone, ?_⟩
  · obtain ⟨j, live, free, holds⟩ := one.within
    by_cases same : j = k
    · subst same
      have last := (holds ((s.hdr j).memory + (pageSize - 1)) (Nat.le_add_right _ _)
        (Nat.add_lt_add_left (by decide) _)).2
      unfold Pmm.face PhysMemHeader.face PhysMemHeader.block Block.stop at last
      simp only at last
      omega
    · have first := holds (s.hdr k).memory (Nat.le_refl _) (Nat.lt_add_of_pos_right (by decide))
      exact absurd ⟨j, same, live, free, first⟩
        (alone _ (Nat.le_refl _) (Nat.lt_add_of_pos_right (by decide)))
  · rintro x ⟨behind, inside⟩
    have has : (s.hdr k).block.Has x := ⟨Nat.le_trans (Nat.le_add_right _ _) behind, inside⟩
    have outside : ¬ ((s.hdr k).memory ≤ x ∧ x < (s.hdr k).memory + pageSize) := by omega
    exact taken.freeIn.mp ((one.left x).mpr ⟨taken.freeBefore.mpr (.inl has), outside⟩)

/-- A first page of its own is all that is lost. -/
theorem PageAlone.onePageTaken (taken : Taken s s' k) (page : pageSize ∣ (s.hdr k).memory)
    (cut : PageAlone s k) : OnePageTaken s s' (s.hdr k).memory := by
  obtain ⟨live, free⟩ := taken.free
  have whole := cut.whole
  refine ⟨page, ⟨k, live, free, fun x above below => ⟨above, ?_⟩⟩, fun x => ?_⟩
  · show x < (s.hdr k).memory + (s.hdr k).size
    omega
  · rw [taken.freeIn, taken.freeBefore]
    constructor
    · intro beside
      exact ⟨.inr beside, fun inside => cut.alone x inside.1 inside.2 beside⟩
    · rintro ⟨has | beside, outside⟩
      · obtain ⟨above, below⟩ : (s.hdr k).memory ≤ x ∧ x < (s.hdr k).memory + (s.hdr k).size := has
        exact cut.shared x ⟨by omega, below⟩
      · exact beside

/-- In a represented state no other header has a byte of a header. -/
theorem Rep.not_freeBeside (rep : Rep s l) (member : k ∈ l) (has : (s.hdr k).block.Has x) :
    ¬ s.FreeBeside k x := by
  rintro ⟨j, different, live, -, other⟩
  have inside : j < s.slots.length := by
    by_contra outside
    unfold Pmm.face at live
    rw [hdr_of_length_le (Nat.le_of_not_lt outside)] at live
    cases live
  have listed := (rep.live j inside).mp live
  have apart : l.Pairwise fun i j => (s.hdr i).block.Apart (s.hdr j).block :=
    List.pairwise_map.mp rep.layout.apart
  have symmetric : Std.Symm fun i j => (s.hdr i).block.Apart (s.hdr j).block :=
    ⟨fun _ _ => Block.Apart.symm⟩
  exact apart.forall member listed different.symm x has other

/-- There the first page is alone exactly when it is the whole header. -/
theorem Rep.pageAlone_iff (rep : Rep s l) (member : k ∈ l) :
    PageAlone s k ↔ (s.hdr k).size = pageSize := by
  constructor
  · intro cut
    by_contra longer
    have whole := cut.whole
    have last : s.Behind k pageSize ((s.hdr k).memory + pageSize) :=
      ⟨Nat.le_refl _, Nat.add_lt_add_left (by omega) _⟩
    exact rep.not_freeBeside member ⟨Nat.le_add_right _ _, last.2⟩ (cut.shared _ last)
  · intro size
    refine ⟨Nat.le_of_eq size.symm, fun x above below => ?_, fun x behind => ?_⟩
    · refine rep.not_freeBeside member ⟨above, ?_⟩
      show x < (s.hdr k).memory + (s.hdr k).size
      omega
    · obtain ⟨above, below⟩ := behind
      omega

/-- The taken header of a represented state is listed. -/
theorem Rep.taken_mem (rep : Rep s l) (taken : Taken s s' k) : k ∈ l := by
  have found := taken.found
  rw [rep.toLinked.findFreePages_chunk] at found
  exact List.mem_of_find?_eq_some (Except.ok.inj found)

/-- A header that was claimed is linked, and the claim keeps the representation. -/
theorem Represented.claimed {result : PmmResult} (represented : Represented s)
    (claims : s.internalClaimMemArea i = .ok (result, s')) : Represented s' := by
  obtain ⟨l, rep⟩ := represented
  have live : (s.hdr i).headerInUse = true := by
    unfold Pmm.internalClaimMemArea at claims
    obtain ⟨h, read, body⟩ := of_bind_ok claims
    obtain ⟨-, rfl⟩ := header_ok read
    exact (assert_ok body).1
  obtain ⟨inside, -, -, rfl⟩ := internalClaimMemArea_ok claims
  exact ⟨l, rep.claim ((rep.live i inside).mp live)⟩

/-- The states in which `get_header_chunk` can be called: those after some calls of the manager, and
those with the header claimed that the next call is about to split. -/
def Reached (start s : Pmm) : Prop :=
  ∃ calls s₀, start.run calls = .ok s₀ ∧
    (s = s₀ ∨ ∃ i result, s₀.internalClaimMemArea i = .ok (result, s))

/-- Calls that returned keep a list represented. -/
theorem Represented.run {start : Pmm} {calls : List Call} (boot : Represented start)
    (ran : start.run calls = .ok s) : Represented s := by
  induction calls generalizing start with
  | nil =>
    cases ran
    exact boot
  | cons call calls ih =>
    obtain ⟨⟨result, stored, s₁⟩, step, rest⟩ := of_bind_ok ran
    exact ih (boot.exec step).represented rest

/-- So are the states in the middle of a call. -/
theorem Reached.represented {start : Pmm} (reached : Reached start s) (boot : Represented start) :
    Represented s := by
  obtain ⟨calls, s₀, ran, rfl | ⟨i, result, claims⟩⟩ := reached
  · exact boot.run ran
  · exact (boot.run ran).claimed claims

/-- With both managers the chunk is mapped at the start of the header that the search stops at. -/
theorem chunk_mapped_at {layout : Paging.I386.Layout} {next : Option Nat} (system : Mem.System)
    {after : Mem.System}
    (found : system.pmm.findFreePages (pageFloor 1) = .ok (some k))
    (grown : system.getHeaderChunk layout next = .ok (some c, after)) :
    ∃ virt, system.vmm.mapRange (Paging.I386.mmu layout) (system.pmm.hdr k).memory
      Mem.sizeofHeaderList Paging.MapOpts.none = .ok (.success, virt, after.vmm) := by
  unfold Mem.System.getHeaderChunk Host.getHeaderChunk Mem.System.host at grown
  dsimp only at grown
  rw [found, ok_bind] at grown
  obtain ⟨⟨result, claimed⟩, claims, body⟩ := of_bind_ok grown
  obtain ⟨inside, rfl, -, rfl⟩ := internalClaimMemArea_ok claims
  simp only [bne_self_eq_false, Bool.false_eq_true, if_false] at body
  obtain ⟨⟨mapped, s₁⟩, mapping, body⟩ := of_bind_ok body
  obtain ⟨h, read, mapping⟩ := of_bind_ok mapping
  obtain ⟨-, rfl⟩ := header_ok read
  rw [Pmm.hdr_put inside, if_pos rfl] at mapping
  obtain ⟨⟨results, virt, vmm⟩, maps, last⟩ := of_bind_ok mapping
  cases last
  by_cases success : results = .success
  · subst success
    cases body
    exact ⟨virt, maps⟩
  · simp only [if_neg success] at body
    obtain ⟨undone, -, last⟩ := of_bind_ok body
    cases last

/-- A call that returns a chunk has mapped it at the start of the first free header. It has cost
that page alone exactly when the rest of the header is in other free headers and the page is not;
after a boot with headers that share no byte, exactly when the header was one page long. -/
theorem getHeaderChunk_onePage_iff (returned : s.getHeaderChunk mapRange = .ok (some c, s')) :
    ∃ k, s.findFreePages (pageFloor 1) = .ok (some k) ∧
      (∀ layout next vmm after,
        Mem.System.getHeaderChunk layout next ⟨s, vmm⟩ = .ok (some c, after) →
        ∃ virt, vmm.mapRange (Paging.I386.mmu layout) (s.hdr k).memory Mem.sizeofHeaderList
          Paging.MapOpts.none = .ok (.success, virt, after.vmm)) ∧
      (pageSize ∣ (s.hdr k).memory → (OnePageTaken s s' (s.hdr k).memory ↔ PageAlone s k)) ∧
      ∀ start, Represented start → Reached start s →
        (OnePageTaken s s' (s.hdr k).memory ↔ (s.hdr k).size = pageSize) := by
  obtain ⟨k, taken⟩ := getHeaderChunk_taken returned
  have general : pageSize ∣ (s.hdr k).memory →
      (OnePageTaken s s' (s.hdr k).memory ↔ PageAlone s k) := fun page =>
    ⟨OnePageTaken.pageAlone taken, PageAlone.onePageTaken taken page⟩
  refine ⟨k, taken.found, ?_, general, fun start boot reached => ?_⟩
  · intro layout next vmm after grown
    exact chunk_mapped_at ⟨s, vmm⟩ taken.found grown
  · obtain ⟨l, rep⟩ := reached.represented boot
    have member := rep.taken_mem taken
    rw [general (rep.header_bounds member).1]
    exact rep.pageAlone_iff member

/-- A call whose result is known has left some state. -/
theorem of_chunk (result : (s.getHeaderChunk mapRange).map Prod.fst = .ok (some c)) :
    ∃ s', s.getHeaderChunk mapRange = .ok (some c, s') := by
  cases outcome : s.getHeaderChunk mapRange with
  | error fault =>
    rw [outcome] at result
    cases result
  | ok returned =>
    rw [outcome] at result
    exact ⟨returned.2, congrArg Except.ok (Prod.ext (Except.ok.inj result) rfl)⟩

/-- A page for a chunk can be mapped. -/
def mapsChunk : MapRange := fun _ => .mapped none

/-- With a single page in front the chunk costs that page. -/
theorem getHeaderChunk_onePage_front : ∃ s',
    (Pmm.ofBlocks [⟨0x100000, 0x1000, false⟩, ⟨0x200000, 0x4000, true⟩]).getHeaderChunk mapsChunk =
      .ok (some 1, s') ∧
    OnePageTaken (Pmm.ofBlocks [⟨0x100000, 0x1000, false⟩, ⟨0x200000, 0x4000, true⟩]) s'
      0x100000 := by
  have boot : RepInv (Pmm.ofBlocks [⟨0x100000, 0x1000, false⟩, ⟨0x200000, 0x4000, true⟩]) :=
    repInv_ofBlocks (by decide) (by decide)
  have result : ((Pmm.ofBlocks [⟨0x100000, 0x1000, false⟩, ⟨0x200000, 0x4000, true⟩]).getHeaderChunk
      mapsChunk).map Prod.fst = .ok (some 1) := by decide +kernel
  obtain ⟨s', returned⟩ := of_chunk result
  obtain ⟨k, found, -, -, exactly⟩ := getHeaderChunk_onePage_iff returned
  have first : (Pmm.ofBlocks [⟨0x100000, 0x1000, false⟩, ⟨0x200000, 0x4000, true⟩]).findFreePages
      (pageFloor 1) = .ok (some 0) := by decide +kernel
  obtain rfl : 0 = k := Option.some.inj (Except.ok.inj (first.symm.trans found))
  exact ⟨s', returned, (exactly _ boot.1 ⟨[], _, rfl, .inl rfl⟩).mpr (by decide +kernel)⟩

/-- A pool with one unused header: two pages and a larger region that are free, and pages that are
handed out. -/
def filledPool : List Block :=
  [⟨0x100000, 0x2000, false⟩, ⟨0x200000, 0x10000, false⟩] ++ takenPages 0x400000 143

/-- The manager when a request has claimed the larger region. -/
def claimedPool : Pmm :=
  (Pmm.ofBlocks filledPool).put 1 { (Pmm.ofBlocks filledPool).hdr 1 with inUse := true }

/-- A taken header that is longer than a page is more than any one page. -/
theorem Taken.not_onePageTaken (taken : Taken s s' k) (represented : Represented s)
    (long : pageSize < (s.hdr k).size) (place : Nat) : ¬ OnePageTaken s s' place := by
  intro one
  obtain ⟨l, rep⟩ := represented
  have lost : ∀ x, (s.hdr k).block.Has x → place ≤ x ∧ x < place + pageSize := by
    intro x has
    by_contra outside
    have still := (one.left x).mpr ⟨taken.freeBefore.mpr (.inl has), outside⟩
    exact rep.not_freeBeside (rep.taken_mem taken) has (taken.freeIn.mp still)
  have low := lost (s.hdr k).memory
    ⟨Nat.le_refl _, Nat.lt_add_of_pos_right (Nat.lt_of_le_of_lt (Nat.zero_le _) long)⟩
  have high := lost ((s.hdr k).memory + pageSize)
    ⟨Nat.le_add_right _ _, Nat.add_lt_add_left long _⟩
  omega

/-- A request for three pages claims the larger region and grows the pool for its split: the chunk
takes both pages in front. -/
theorem getHeaderChunk_twoPages : RepInv (Pmm.ofBlocks filledPool) ∧
    (Pmm.ofBlocks filledPool).findFreePages (roundUpToPage 0x3000) = .ok (some 1) ∧
    (Pmm.ofBlocks filledPool).internalClaimMemArea 1 = .ok (.success, claimedPool) ∧
    claimedPool.headersAllocated ≤ claimedPool.headersInUse + 1 ∧
    ∃ s', claimedPool.getHeaderChunk mapsChunk = .ok (some 1, s') ∧
      ∀ place, ¬ OnePageTaken claimedPool s' place := by
  have short : filledPool.length < headersPerChunk := by decide +kernel
  have boot : RepInv (Pmm.ofBlocks filledPool) :=
    repInv_ofBlocks short (layout_takenPages (by decide) (by decide) (by decide) (by decide))
  have claims : (Pmm.ofBlocks filledPool).internalClaimMemArea 1 = .ok (.success, claimedPool) :=
    (linked_ofBlocks short).claim_eq (List.mem_range.mpr (by decide +kernel)) (by decide +kernel)
  have result : (claimedPool.getHeaderChunk mapsChunk).map Prod.fst = .ok (some 1) := by
    decide +kernel
  have first : claimedPool.findFreePages (pageFloor 1) = .ok (some 0) := by decide +kernel
  have long : pageSize < (claimedPool.hdr 0).size := by decide +kernel
  refine ⟨boot, by decide +kernel, claims, by decide +kernel, ?_⟩
  obtain ⟨s', returned⟩ := of_chunk result
  obtain ⟨k, taken⟩ := getHeaderChunk_taken returned
  obtain rfl : 0 = k := Option.some.inj (Except.ok.inj (first.symm.trans taken.found))
  exact ⟨s', returned, taken.not_onePageTaken (boot.1.claimed claims) long⟩

end FelineOS.PhysMem
