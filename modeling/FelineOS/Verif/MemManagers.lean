import FelineOS.Kernel.Mem
import FelineOS.Verif.PagingI386
import FelineOS.Verif.PmmAreas

/-!
# The two managers together

`get_mem_area` with the state of both managers does to the physical one what `Kernel.PhysMem` says
it does when `map_range` answers as the virtual one does here, and to the virtual one at most one
call of `map_range` (`getMemArea_sim`). So what holds of each manager alone holds of the two.
-/

namespace FelineOS.Mem

open Library (Block FreeAt UsedAt Reserves Releases overlay_inside overlay_outside)
open PhysMem (Host PmmResult Pmm Rep Represented MapRange Reserved)
open Paging (Vmm Space MapResults MapOpts bytesToPages pageOffset pageCount pagesFor physPage)
open Paging.I386 (Layout Tables mmu mmu_models Sound WellFormed view windowPage)

variable {layout : Layout} {next : Option Nat} {s s' : System} {l : List Nat} {i len : Nat}

/-- The state of the virtual manager after at most one mapping of a page for a chunk. -/
def ChunkMapped (layout : Layout) (vmm vmm' : Vmm Tables) : Prop :=
  vmm' = vmm ∨ ∃ phys result virt, phys < wordLimit ∧
    vmm.mapRange (mmu layout) phys sizeofHeaderList MapOpts.none = .ok (result, virt, vmm')

/-- How `map_range` answers the physical manager during a call that leaves the virtual manager in
the state `vmm'`. With a spare header it is not asked; else the chunk reads `next`, or the virtual
manager has failed. -/
def Answers (layout : Layout) (next : Option Nat) (s : System) (mapRange : MapRange)
    (vmm' : Vmm Tables) : Prop :=
  (s.pmm.headersInUse + 1 < s.pmm.headersAllocated ∧ mapRange = (fun _ => .failed) ∧
    vmm' = s.vmm) ∨
  (s.pmm.headersAllocated ≤ s.pmm.headersInUse + 1 ∧ ChunkMapped layout s.vmm vmm' ∧
    (mapRange = (fun _ => .mapped next) ∨ mapRange = (fun _ => .failed) ∧
      ∃ phys result virt vmm', phys < wordLimit ∧ result ≠ .success ∧
        s.vmm.mapRange (mmu layout) phys sizeofHeaderList MapOpts.none = .ok (result, virt, vmm')))

/-- The virtual manager changes by at most one mapping. -/
theorem Answers.chunkMapped {mapRange : MapRange} {vmm' : Vmm Tables}
    (answers : Answers layout next s mapRange vmm') : ChunkMapped layout s.vmm vmm' := by
  rcases answers with ⟨-, -, same⟩ | ⟨-, mapped, -⟩
  · exact Or.inl same
  · exact mapped

/-- A call that asks for no header answers as one that does. -/
theorem Answers.unasked {mapRange : MapRange} {vmm' : Vmm Tables}
    (answers : Answers layout next s mapRange vmm') : Answers layout next s mapRange s.vmm := by
  rcases answers with ⟨spare, failed, -⟩ | ⟨full, -, rest⟩
  · exact Or.inl ⟨spare, failed, rfl⟩
  · exact Or.inr ⟨full, Or.inl rfl, rest⟩

/-- In a sound state the virtual manager answers. -/
theorem maps_chunk (sound : Sound layout s.vmm.space) {phys : Nat} (word : phys < wordLimit) :
    ∃ result virt vmm',
      s.vmm.mapRange (mmu layout) phys sizeofHeaderList MapOpts.none = .ok (result, virt, vmm') :=
  Paging.mapRange_returns (mmu_models layout) (by decide) sound.agrees sound.window rfl
    word

/-- The same in detail: a full pool asks for the page at the first free header, if there is one. -/
def AnswersAt (layout : Layout) (next : Option Nat) (s : System) (l : List Nat) (mapRange : MapRange)
    (vmm' : Vmm Tables) : Prop :=
  (s.pmm.headersInUse + 1 < s.pmm.headersAllocated ∧ mapRange = (fun _ => .failed) ∧
    vmm' = s.vmm) ∨
  (s.pmm.headersAllocated ≤ s.pmm.headersInUse + 1 ∧
    ((l.find? (fun i => !(s.pmm.hdr i).inUse) = none ∧ mapRange = (fun _ => .mapped next) ∧
        vmm' = s.vmm) ∨
      ∃ k result virt, l.find? (fun i => !(s.pmm.hdr i).inUse) = some k ∧
        s.vmm.mapRange (mmu layout) (s.pmm.hdr k).memory sizeofHeaderList MapOpts.none =
          .ok (result, virt, vmm') ∧
        (result = .success ∧ mapRange = (fun _ => .mapped next) ∨
          result ≠ .success ∧ mapRange = fun _ => .failed)))

/-- The detailed answers are answers. -/
theorem AnswersAt.answers {mapRange : MapRange} {vmm' : Vmm Tables} (rep : Rep s.pmm l)
    (answers : AnswersAt layout next s l mapRange vmm') : Answers layout next s mapRange vmm' := by
  rcases answers with spare | ⟨full, ⟨-, mapped, same⟩ | ⟨k, result, virt, found, maps, outcome⟩⟩
  · exact Or.inl spare
  · exact Or.inr ⟨full, Or.inl same, Or.inl mapped⟩
  · have word := rep.memory_word (List.mem_of_find?_eq_some found)
    refine Or.inr ⟨full, Or.inr ⟨_, _, _, word, maps⟩, ?_⟩
    rcases outcome with ⟨-, mapped⟩ | ⟨failed, refused⟩
    · exact Or.inl mapped
    · exact Or.inr ⟨refused, _, _, _, _, word, failed, maps⟩

/-- `get_header_chunk` with both managers. -/
theorem getHeaderChunk_sim (rep : Rep s.pmm l) (sound : Sound layout s.vmm.space)
    (full : s.pmm.headersAllocated ≤ s.pmm.headersInUse + 1) :
    ∃ mapRange vmm', AnswersAt layout next s l mapRange vmm' ∧
      s.getHeaderChunk layout next = (do
        let (chunk, pmm) ← s.pmm.getHeaderChunk mapRange
        pure (chunk, ⟨pmm, vmm'⟩)) := by
  unfold System.getHeaderChunk Pmm.getHeaderChunk Host.getHeaderChunk System.host Pmm.host
  dsimp only
  rw [rep.toLinked.findFreePages_chunk]
  cases found : l.find? fun i => !(s.pmm.hdr i).inUse with
  | none =>
    exact ⟨fun _ => .mapped next, s.vmm, Or.inr ⟨full, Or.inl ⟨found, rfl, rfl⟩⟩, rfl⟩
  | some i =>
    have member := List.mem_of_find?_eq_some found
    have free : (s.pmm.hdr i).inUse = false := by simpa using List.find?_some found
    have inside : i < (s.pmm.put i { s.pmm.hdr i with inUse := true }).slots.length := by
      rw [Pmm.put_length]
      exact rep.bound i member
    have read : (s.pmm.put i { s.pmm.hdr i with inUse := true }).hdr i =
        { s.pmm.hdr i with inUse := true } := rep.toLinked.hdr_claim member
    obtain ⟨result, virt, vmm', maps⟩ := maps_chunk sound (rep.memory_word member)
    simp only [ok_bind, rep.toLinked.claim_eq member free, Pmm.header_eq inside, read, maps]
    by_cases success : result = .success
    · subst success
      exact ⟨fun _ => .mapped next, vmm',
        Or.inr ⟨full, Or.inr ⟨_, _, _, found, maps, Or.inl ⟨rfl, rfl⟩⟩⟩, rfl⟩
    · refine ⟨fun _ => .failed, vmm',
        Or.inr ⟨full, Or.inr ⟨_, _, _, found, maps, Or.inr ⟨success, rfl⟩⟩⟩, ?_⟩
      simp only [bne_self_eq_false, Bool.false_eq_true, if_false, if_neg success, pure_bind, ok_bind,
        Pmm.modify_eq _ inside]

/-- `get_new_header` with both managers. -/
theorem getNewHeader_sim (rep : Rep s.pmm l) (sound : Sound layout s.vmm.space) :
    ∃ mapRange vmm', AnswersAt layout next s l mapRange vmm' ∧
      s.getNewHeader layout next = (do
        let (header, pmm) ← s.pmm.getNewHeader mapRange
        pure (header, ⟨pmm, vmm'⟩)) := by
  unfold System.getNewHeader Pmm.getNewHeader Host.getNewHeader System.host Pmm.host
  simp only [System.host_getHeaderChunk, Pmm.host_getHeaderChunk, bind_pair]
  by_cases full : s.pmm.headersAllocated ≤ s.pmm.headersInUse + 1
  · obtain ⟨mapRange, vmm', answers, sim⟩ := @getHeaderChunk_sim layout next s l rep sound full
    refine ⟨mapRange, vmm', answers, ?_⟩
    simp only [if_pos full, sim, bind_assoc, pure_bind]
  · refine ⟨fun _ => .failed, s.vmm, Or.inl ⟨by omega, rfl, rfl⟩, ?_⟩
    simp only [if_neg full, bind_assoc]

/-- `split_header_at_len` with both managers. A header that has the length already asks for
nothing. -/
theorem splitHeaderAtLen_exact (rep : Rep s.pmm l) (sound : Sound layout s.vmm.space)
    (member : i ∈ l) :
    ∃ mapRange vmm', AnswersAt layout next s l mapRange vmm' ∧
      s.splitHeaderAtLen layout next i len = (do
        let pmm ← s.pmm.splitHeaderAtLen mapRange i len
        pure ⟨pmm, if (s.pmm.hdr i).size = len then s.vmm else vmm'⟩) := by
  obtain ⟨mapRange, vmm', answers, sim⟩ := @getNewHeader_sim layout next s l rep sound
  refine ⟨mapRange, vmm', answers, ?_⟩
  unfold System.splitHeaderAtLen Pmm.splitHeaderAtLen Host.splitHeaderAtLen System.host Pmm.host
  simp only [System.host_getNewHeader, Pmm.host_getNewHeader, bind_pure]
  rw [Pmm.header_eq (rep.bound i member)]
  by_cases whole : (s.pmm.hdr i).size = len
  · simp only [ok_bind, if_pos whole, bind_assoc, pure_bind]
  · simp only [ok_bind, if_neg whole, sim, bind_assoc]
    -- The assertions are the same; behind `get_new_header` the page tables are not touched.
    iterate 5 refine bind_congr fun _ => ?_
    refine bind_congr ?_
    rintro ⟨_ | t, pmm⟩
    · rfl
    · simp only [pure_bind, bind_assoc]
      refine bind_congr fun temp => bind_congr fun _ => bind_congr fun _ => bind_congr fun h =>
        bind_congr fun memory => bind_congr fun size => ?_
      cases h.next with
      | none => simp only [bind_assoc]
      | some n => simp only [bind_assoc]

/-- `split_header_at_len` with both managers. -/
theorem splitHeaderAtLen_sim (rep : Rep s.pmm l) (sound : Sound layout s.vmm.space)
    (member : i ∈ l) :
    ∃ mapRange vmm', Answers layout next s mapRange vmm' ∧
      s.splitHeaderAtLen layout next i len = (do
        let pmm ← s.pmm.splitHeaderAtLen mapRange i len
        pure ⟨pmm, vmm'⟩) := by
  obtain ⟨mapRange, vmm', answers, sim⟩ :=
    @splitHeaderAtLen_exact layout next s l i len rep sound member
  by_cases whole : (s.pmm.hdr i).size = len
  · simp only [if_pos whole] at sim
    exact ⟨mapRange, s.vmm, (answers.answers rep).unasked, sim⟩
  · simp only [if_neg whole] at sim
    exact ⟨mapRange, vmm', answers.answers rep, sim⟩

/-- `get_mem_area` with both managers. -/
theorem getMemArea_sim (rep : Rep s.pmm l) (sound : Sound layout s.vmm.space) :
    ∃ mapRange vmm', Answers layout next s mapRange vmm' ∧
      s.getMemArea layout next len = (do
        let (result, stored, pmm) ← s.pmm.getMemAreaAny mapRange len
        pure (result, stored, ⟨pmm, vmm'⟩)) := by
  unfold System.getMemArea Pmm.getMemAreaAny Host.getMemAreaAny System.host Pmm.host
    Pmm.findFreePages
  simp only [System.host_splitHeaderAtLen, Pmm.host_splitHeaderAtLen]
  rw [rep.toLinked.find_eq]
  cases found : l.find? fun i => !(s.pmm.hdr i).inUse &&
      decide (roundUpToPage len ≤ (s.pmm.hdr i).size) with
  | none =>
    obtain ⟨mapRange, vmm', answers, -⟩ := @getNewHeader_sim layout next s l rep sound
    exact ⟨mapRange, s.vmm, (answers.answers rep).unasked, rfl⟩
  | some i =>
    have member := List.mem_of_find?_eq_some found
    have free : (s.pmm.hdr i).inUse = false := by
      have passed := List.find?_some found
      simp only [Bool.and_eq_true, Bool.not_eq_true'] at passed
      exact passed.1
    have claimed := rep.claim member
    obtain ⟨mapRange, vmm', answers, sim⟩ := @splitHeaderAtLen_sim layout next
      ⟨s.pmm.claim i, s.vmm⟩ l i (roundUpToPage len) claimed sound member
    refine ⟨mapRange, vmm', answers, ?_⟩
    unfold Pmm.claim at sim
    simp only [ok_bind, rep.toLinked.claim_eq member free, if_true, sim, bind_assoc, pure_bind]

/-- A tidy call makes no chunk that reads other than null. -/
theorem Answers.clean {mapRange : MapRange} {vmm' : Vmm Tables}
    (answers : Answers layout next s mapRange vmm')
    (tidy : s.pmm.headersAllocated ≤ s.pmm.headersInUse + 1 → next = none) : mapRange.Clean := by
  intro pmm read maps
  rcases answers with ⟨-, rfl, -⟩ | ⟨full, -, rfl | ⟨rfl, -⟩⟩
  · cases maps
  · cases maps
    exact tidy full
  · cases maps

/-! ## The page tables -/

/-- Pages that are mapped stay mapped to the same place. -/
structure Extends (layout : Layout) (s s' : Space Tables) : Prop where
  /-- The new state is sound. -/
  sound : Sound layout s'
  /-- The mappings of the old state are there. -/
  shown : ∀ {i q}, view s.tables i = some q → view s'.tables i = some q

/-- Nothing changed. -/
theorem Extends.refl {s : Space Tables} (sound : Sound layout s) : Extends layout s s :=
  ⟨sound, id⟩

/-- Two changes after each other. -/
theorem Extends.trans {s s₁ s₂ : Space Tables} (first : Extends layout s s₁)
    (second : Extends layout s₁ s₂) : Extends layout s s₂ :=
  ⟨second.sound, fun shows => second.shown (first.shown shows)⟩

section Mapping

variable {vmm vmm' : Vmm Tables} {phys virt : Nat} {result : MapResults}

/-- `map_range` only adds mappings. -/
theorem extends_mapRange (sound : Sound layout vmm.space) (word : phys < wordLimit)
    (maps : vmm.mapRange (mmu layout) phys len MapOpts.none = .ok (result, virt, vmm')) :
    Extends layout vmm.space vmm'.space := by
  refine ⟨sound.kept (Paging.mapRange_kept (mmu_models layout) sound.agrees word maps), ?_⟩
  intro i q shows
  rcases Paging.mapRange_cases (mmu_models layout) sound.agrees rfl word maps with
    ⟨-, same⟩ | ⟨-, base, -, -, mapped⟩
  · rw [same.view]
    exact shows
  · rw [mapped.view]
    by_cases inside : base ≤ i ∧ i < base + pagesFor phys len
    · rw [(mapped.free i inside.1 inside.2).2] at shows
      cases shows
    · rw [overlay_outside (by omega)]
      exact shows

/-- A page for a chunk is one more mapping. -/
theorem ChunkMapped.grown (mapped : ChunkMapped layout vmm vmm')
    (sound : Sound layout vmm.space) : Extends layout vmm.space vmm'.space := by
  rcases mapped with rfl | ⟨phys, result, virt, word, maps⟩
  · exact Extends.refl sound
  · exact extends_mapRange sound word maps

/-- The pages that `map_range` adds for whole pages of physical memory. -/
theorem mapRange_pages (sound : Sound layout vmm.space) (aligned : pageSize ∣ phys)
    (physWord : phys < wordLimit) (lenWord : len < wordLimit)
    (maps : vmm.mapRange (mmu layout) phys len MapOpts.none = .ok (.success, virt, vmm')) :
    ∃ base, 0 < base ∧ virt = base * pageSize ∧
      (bytesToPages len = 0 ∨ base + bytesToPages len ≤ windowPage) ∧
      ∀ i < bytesToPages len, view vmm.space.tables (base + i) = none ∧
        (phys / pageSize + i < pageCount →
          view vmm'.space.tables (base + i) = some (phys / pageSize + i)) := by
  have offset : pageOffset phys = 0 := Nat.mod_eq_zero_of_dvd aligned
  have pages : pagesFor phys len = bytesToPages len := by
    unfold pagesFor
    rw [offset, Nat.add_zero, wrap_of_lt lenWord]
  rcases Paging.mapRange_cases (mmu_models layout) sound.agrees rfl physWord maps with
    ⟨failed, -⟩ | ⟨-, base, positive, found, mapped⟩
  · exact absurd rfl failed
  · rw [offset, Nat.add_zero] at found
    rw [pages] at mapped
    refine ⟨base, positive, found, mapped.below, ?_⟩
    intro i inside
    refine ⟨(mapped.free _ (Nat.le_add_right _ _) (Nat.add_lt_add_left inside _)).2, ?_⟩
    intro fits
    rw [mapped.view, overlay_inside (by omega) (by omega), Nat.add_sub_cancel_left,
      Paging.physPage_eq fits]

end Mapping

/-! ## Blocks -/

/-- The pages of a length that can be rounded. -/
theorem roundUpToPage_eq_pages (small : len ≤ roundLimit) :
    roundUpToPage len = bytesToPages len * pageSize := by
  unfold roundUpToPage
  rw [wrap_roundUp small, Paging.bytesToPages_eq small]
  rfl

/-- A length whose pages end before the window can be rounded. -/
theorem len_le_of_pages (below : bytesToPages len ≤ windowPage) : len ≤ roundLimit := by
  unfold bytesToPages at below
  unfold windowPage uintptrMax pageSize at below
  unfold roundLimit
  split at below <;> omega

/-- The number of pages of a block. -/
def MemBlock.pages (b : MemBlock) : Nat := bytesToPages b.len

/-- A virtual page of a block. -/
def MemBlock.page (b : MemBlock) (i : Nat) : Nat := b.virt / pageSize + i

/-- The pages of the block are mapped to memory at the start of a header that is handed out. -/
structure Backed (s : System) (b : MemBlock) : Prop where
  /-- The block starts at a page. -/
  aligned : pageSize ∣ b.virt
  /-- It is not the null pointer. -/
  nonzero : b.virt ≠ 0
  /-- It is not empty. -/
  filled : 0 < b.len
  /-- It ends before the window. -/
  below : b.virt / pageSize + b.pages ≤ windowPage
  /-- Its pages are those of one header, in order. -/
  header : ∃ first size, (⟨first * pageSize, size, true⟩ : Block) ∈ s.pmm.blocks ∧
    b.pages * pageSize ≤ size ∧
    ∀ i < b.pages, view s.vmm.space.tables (b.page i) = some (first + i)

/-- The block has a page. -/
theorem Backed.pages_pos {b : MemBlock} (backed : Backed s b) : 0 < b.pages := by
  have filled := backed.filled
  unfold MemBlock.pages bytesToPages uintptrMax pageSize
  split <;> omega

/-- The pages of the block have its bytes. -/
theorem Backed.len_le_pages {b : MemBlock} (backed : Backed s b) : b.len ≤ b.pages * pageSize := by
  have small := len_le_of_pages (Nat.le_trans (Nat.le_add_left _ _) backed.below)
  unfold MemBlock.pages
  rw [← roundUpToPage_eq_pages small]
  exact (roundUpToPage_spec small).2.1

/-- A call that leaves what is handed out and what is mapped. -/
structure Keeps (layout : Layout) (s s' : System) : Prop where
  /-- The header list is well formed. -/
  represented : Represented s'.pmm
  /-- The header blocks that were handed out are. -/
  held : ∀ {c : Block}, c ∈ s.pmm.blocks → c.used = true → c ∈ s'.pmm.blocks
  /-- The mappings are there. -/
  grown : Extends layout s.vmm.space s'.vmm.space

/-- A block that a call handed out: neither its pages nor its memory were in use. -/
structure Given (s s' : System) (b : MemBlock) : Prop where
  /-- The block has its memory. -/
  backed : Backed s' b
  /-- Its pages were not mapped. -/
  unmapped : ∀ i < b.pages, view s.vmm.space.tables (b.page i) = none
  /-- Its memory was free. -/
  free : ∀ i q, i < b.pages → view s'.vmm.space.tables (b.page i) = some q →
    FreeAt s.pmm.blocks (q * pageSize)

/-! ## `get_mem` -/

/-- What `get_mem` makes of the answer of `map_range`. -/
theorem getMem_of_maps {stored : Option Nat} {s₁ : System} {result : MapResults} {virt : Nat}
    {vmm : Vmm Tables} (gets : s.getMemArea layout next len = .ok (.success, stored, s₁))
    (maps : s₁.vmm.mapRange (mmu layout) (stored.getD 0) len MapOpts.none =
      .ok (result, virt, vmm)) :
    (result ≠ .success ∧ result ≠ .noVirtmem ∧ s.getMem layout next len = .error .abort) ∨
    ∃ answer, s.getMem layout next len = .ok (answer, virt, ⟨s₁.pmm, vmm⟩) ∧
      (answer = .success ↔ result = .success) := by
  unfold System.getMem
  rw [gets, ok_bind]
  simp only [maps, ok_bind]
  cases result with
  | success => exact Or.inr ⟨.success, rfl, by decide⟩
  | noVirtmem => exact Or.inr ⟨.noVirtmem, rfl, by decide⟩
  | noPerm => exact Or.inr ⟨.permDenied, rfl, by decide⟩
  | errKernelSpace => exact Or.inr ⟨.permDenied, rfl, by decide⟩
  | alreadyMapped => exact Or.inl ⟨by decide, by decide, rfl⟩
  | notMapped => exact Or.inl ⟨by decide, by decide, rfl⟩
  | noPhysmem => exact Or.inl ⟨by decide, by decide, rfl⟩
  | invalidAlign => exact Or.inl ⟨by decide, by decide, rfl⟩
  | invalidOption => exact Or.inl ⟨by decide, by decide, rfl⟩

/-- The block that `get_mem` hands out, from the header that was reserved. -/
theorem given_of_reserved {mapRange : MapRange} {l' : List Nat} {virt : Nat} {pmm : Pmm}
    {vmm₁ vmm : Vmm Tables} (rep : Rep s.pmm l) (member : i ∈ l) (free : (s.pmm.hdr i).inUse = false)
    (reserved : Reserved mapRange s.pmm l i (roundUpToPage len) pmm l')
    (grown : Extends layout s.vmm.space vmm₁.space) (positive : 0 < len) (word : len < wordLimit)
    (maps : vmm₁.mapRange (mmu layout) (s.pmm.hdr i).memory len MapOpts.none =
      .ok (.success, virt, vmm)) : Given s ⟨pmm, vmm⟩ ⟨virt, len⟩ := by
  obtain ⟨startAligned, sizeAligned, bound⟩ := rep.header_bounds member
  have physWord := rep.memory_word member
  obtain ⟨base, nonzero, rfl, fits, shows⟩ := mapRange_pages grown.sound startAligned physWord word maps
  have below : base + bytesToPages len ≤ windowPage := by
    refine fits.resolve_left fun none => ?_
    unfold bytesToPages pageSize uintptrMax at none
    split at none <;> omega
  have small := len_le_of_pages (Nat.le_trans (Nat.le_add_left _ _) below)
  have rounded := roundUpToPage_eq_pages small
  have enough := reserved.enough
  have within := reserved.within
  obtain ⟨first, start⟩ := startAligned
  rw [Nat.mul_comm] at start
  have quotient : base * pageSize / pageSize = base := Paging.page_div base
  have index : ∀ k < bytesToPages len, first + k < pageCount ∧
      (s.pmm.hdr i).block.Has ((first + k) * pageSize) := by
    intro k inside
    simp only [PhysMem.PhysMemHeader.block, Block.Has, Block.stop]
    rw [rounded] at enough
    unfold pageCount Paging.maxVirtMem
    unfold roundLimit at bound
    unfold pageSize at *
    omega
  have mapped : ∀ k < bytesToPages len, view vmm.space.tables (base + k) = some (first + k) := by
    intro k inside
    have shown := (shows k inside).2
    rw [start, Paging.page_div] at shown
    exact shown (index k inside).1
  refine ⟨⟨Nat.dvd_mul_left _ _, ?_, positive, ?_, first, (pmm.hdr i).size, ?_, ?_, ?_⟩, ?_, ?_⟩
  · exact Nat.ne_of_gt (Nat.mul_pos nonzero (by decide))
  · rw [quotient]
    exact below
  · rw [reserved.rep.blocks_eq, ← start, ← reserved.memory, ← reserved.inUse]
    exact List.mem_map_of_mem reserved.member
  · rw [rounded] at enough
    exact enough
  · unfold MemBlock.page
    rw [quotient]
    exact mapped
  · intro k inside
    unfold MemBlock.page
    rw [quotient]
    by_contra other
    obtain ⟨q, shown⟩ := Option.ne_none_iff_exists'.mp other
    have later := grown.shown shown
    rw [(shows k inside).1] at later
    cases later
  · intro k q inside shown
    unfold MemBlock.page at shown
    rw [quotient, mapped k inside] at shown
    cases shown
    rw [rep.blocks_eq]
    exact ⟨_, List.mem_map_of_mem member, free, (index k inside).2⟩

/-- The ways through `get_mem`, from the state `vmm₁` that `get_mem_area` leaves of the virtual
manager. -/
inductive Got (layout : Layout) (next : Option Nat) (s : System) (l : List Nat) (len : Nat)
    (mapRange : MapRange) (vmm₁ : Vmm Tables) : Prop where
  | refused (found : s.pmm.getMemAreaAny mapRange len = .ok (.nomem, none, s.pmm))
      (returns : s.getMem layout next len = .ok (.noPhysmem, 0, ⟨s.pmm, vmm₁⟩))
  | stuck (unsealed : ¬ s.pmm.Sealed) (fault : Fault)
      (found : s.pmm.getMemAreaAny mapRange len = .error fault)
      (stops : s.getMem layout next len = .error fault)
  | reserved (i : Nat) (member : i ∈ l) (free : (s.pmm.hdr i).inUse = false)
      (physWord : (s.pmm.hdr i).memory < wordLimit) (pmm : Pmm) (l' : List Nat)
      (reserved : Reserved mapRange s.pmm l i (roundUpToPage len) pmm l')
      (found : s.pmm.getMemAreaAny mapRange len = .ok (.success, some (s.pmm.hdr i).memory, pmm))
      (result : MapResults) (virt : Nat) (vmm : Vmm Tables)
      (maps : vmm₁.mapRange (mmu layout) (s.pmm.hdr i).memory len MapOpts.none =
        .ok (result, virt, vmm))
      (outcome : (result ≠ .success ∧ result ≠ .noVirtmem ∧
          s.getMem layout next len = .error .abort) ∨
        ∃ answer, s.getMem layout next len = .ok (answer, virt, ⟨pmm, vmm⟩) ∧
          (answer = .success ↔ result = .success))

/-- Every call of `get_mem` in a sound state is one of these. -/
theorem getMem_spec (next : Option Nat) (len : Nat) (rep : Rep s.pmm l)
    (sound : Sound layout s.vmm.space) :
    ∃ mapRange vmm₁, Answers layout next s mapRange vmm₁ ∧
      Extends layout s.vmm.space vmm₁.space ∧ Got layout next s l len mapRange vmm₁ := by
  obtain ⟨mapRange, vmm₁, answers, sim⟩ := @getMemArea_sim layout next s l len rep sound
  have grown := answers.chunkMapped.grown sound
  refine ⟨mapRange, vmm₁, answers, grown, ?_⟩
  rcases rep.getMemAreaAny_spec mapRange len with
    ⟨-, found⟩ | ⟨i, member, fits, ⟨pmm, l', reserved, found⟩ | ⟨unsealed, -, stop⟩⟩
  · refine .refused found ?_
    unfold System.getMem
    rw [sim, found]
    rfl
  · have physWord := rep.memory_word member
    have gets : s.getMemArea layout next len =
        .ok (.success, some (s.pmm.hdr i).memory, ⟨pmm, vmm₁⟩) := by
      rw [sim, found]
      rfl
    obtain ⟨result, virt, vmm, maps⟩ : ∃ result virt vmm, vmm₁.mapRange (mmu layout)
        (s.pmm.hdr i).memory len MapOpts.none = .ok (result, virt, vmm) :=
      Paging.mapRange_returns (mmu_models layout) (by decide) grown.sound.agrees grown.sound.window
        rfl physWord
    exact .reserved i member fits.1 physWord pmm l' reserved found result virt vmm maps
      (getMem_of_maps gets maps)
  · obtain ⟨fault, found⟩ : ∃ fault, s.pmm.getMemAreaAny mapRange len = .error fault := by
      rcases stop with stop | stop
      · exact ⟨_, stop⟩
      · exact ⟨_, stop⟩
    refine .stuck unsealed fault found ?_
    unfold System.getMem
    rw [sim, found]
    rfl

/-- What `get_mem` does in a state whose chunk chain ends: it returns, or stops at an explicit
abort. -/
theorem getMem_cases (rep : Rep s.pmm l) (sealed : s.pmm.Sealed) (sound : Sound layout s.vmm.space)
    (positive : 0 < len) (word : len < wordLimit)
    (tidy : s.pmm.headersAllocated ≤ s.pmm.headersInUse + 1 → next = none) :
    (∃ result virt s', s.getMem layout next len = .ok (result, virt, s') ∧ Keeps layout s s' ∧
      (result = .success → Given s s' ⟨virt, len⟩) ∧ s'.pmm.Sealed) ∨
    s.getMem layout next len = .error .abort := by
  obtain ⟨mapRange, vmm₁, answers, grown, got⟩ := getMem_spec next len rep sound
  cases got with
  | refused found returns =>
    left
    refine ⟨.noPhysmem, 0, ⟨s.pmm, vmm₁⟩, returns, ⟨⟨l, rep⟩, fun member _ => member, grown⟩, ?_,
      sealed⟩
    intro contrary
    cases contrary
  | stuck unsealed fault found stops => exact absurd sealed unsealed
  | reserved i member free physWord pmm l' reserved found result virt vmm maps outcome =>
    have more := grown.trans (extends_mapRange grown.sound physWord maps)
    rcases outcome with ⟨-, -, stopped⟩ | ⟨answer, returns, agree⟩
    · exact Or.inr stopped
    · left
      refine ⟨answer, virt, ⟨pmm, vmm⟩, returns, ⟨⟨l', reserved.rep⟩, ?_, more⟩, ?_, ?_⟩
      · intro c listed used
        rw [rep.blocks_eq] at listed
        rw [reserved.rep.blocks_eq]
        exact reserved.reserves.mem_of_used listed used
      · intro success
        rw [agree.mp success] at maps
        exact given_of_reserved rep member free reserved grown positive word maps
      · exact reserved.keepsSeal (answers.clean tidy) sealed

/-! ## `free_mem` -/

/-- `free_mem` of a block that has its memory: the pages of the block are free, and so is the
header behind them. -/
theorem freeMem_backed {b : MemBlock} (rep : Rep s.pmm l) (sound : Sound layout s.vmm.space)
    (backed : Backed s b) :
    ∃ s' first size, s.freeMem layout b.virt b.len = .ok (.success, s') ∧
      view s.vmm.space.tables (b.page 0) = some first ∧ Represented s'.pmm ∧
      s'.pmm.chunkNext = s.pmm.chunkNext ∧
      Releases ⟨first * pageSize, size, true⟩ s.pmm.blocks s'.pmm.blocks ∧
      Paging.Unmapped (WellFormed layout) view s.vmm.space s'.vmm.space (b.virt / pageSize) b.pages := by
  obtain ⟨first, size, listed, fits, shows⟩ := backed.header
  have below := backed.below
  have some : 0 < b.pages := backed.pages_pos
  have windowLt : windowPage < pageCount := by decide
  rw [rep.blocks_eq] at listed
  obtain ⟨i, member, same⟩ := List.mem_map.mp listed
  have used : (s.pmm.hdr i).inUse = true := congrArg Block.used same
  have within : PhysMem.Area.Within ⟨first * pageSize, b.len⟩ (s.pmm.hdr i).block := by
    have short := backed.len_le_pages
    rw [same]
    simp only [PhysMem.Area.Within, Block.stop]
    omega
  obtain ⟨pmm, l', frees, rep', chunks, releases⟩ :=
    rep.freeMemArea_within member used backed.filled within
  rw [same, ← rep.blocks_eq, ← rep'.blocks_eq] at releases
  have walks : s.vmm.space.tables.virtToPhys layout b.virt = .ok (first * pageSize) :=
    sound.agrees.good.virtToPhys_eq (Nat.lt_of_lt_of_le (by omega) below) (shows 0 some)
  have all : ∀ k, b.virt / pageSize ≤ k → k < b.virt / pageSize + b.pages →
      s.vmm.space.searchable k = true := by
    intro k above inside
    have shown := shows (k - b.virt / pageSize) (by omega)
    unfold MemBlock.page at shown
    rw [Nat.add_sub_cancel' above] at shown
    rw [sound.agrees.agrees k (Nat.lt_of_lt_of_le inside below), shown]
    rfl
  have virtWord : b.virt < wordLimit := by
    unfold windowPage at below
    unfold pageSize at below
    unfold wordLimit
    omega
  have taken : System.physAddrAuto.physAddrAuto = true → ∃ phys,
      s.vmm.space.tables.virtToPhys layout b.virt = .ok phys ∧
      s.pmmCalls.freeMemArea s.vmm.space phys b.len = .ok .success := by
    intro _
    refine ⟨first * pageSize, walks, ?_⟩
    simp only [System.pmmCalls, frees, ok_bind]
    rfl
  obtain ⟨vmm, unmaps, unmapped⟩ := Paging.I386.unmapRange_mapped sound.agrees.good
    (Or.inr below) virtWord all taken
  have mapped : s.vmm.space.allMapped (bytesToPages b.len) (pageFloor b.virt) = true :=
    (Paging.allMapped_iff (Nat.lt_of_le_of_lt below windowLt)).mpr all
  refine ⟨⟨pmm, vmm⟩, first, size, ?_, shows 0 some, ⟨l', rep'⟩, chunks, releases, unmapped⟩
  unfold System.freeMem System.pmmAfter
  simp only [if_neg backed.nonzero, unmaps, ok_bind, mapped, if_true, walks, frees]
  rfl

end FelineOS.Mem
