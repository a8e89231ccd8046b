import FelineOS.Verif.PagingI386
import FelineOS.Verif.PagingArm

/-!
# Calls of the virtual memory manager

Two results about both architectures. The lock `modifying_page_tables` is released on every path
but those that run out of virtual memory with a physical address given, and on ARM two more
(`lock_balanced_iff`). And `unmap_range` undoes `map_range` exactly when the range has as many
pages without the offset of its first byte as with it (`unmap_undoes_map_iff`).
-/

namespace FelineOS.Paging

open PhysMem (PmmResult)

variable {τ : Type} {mmu : Mmu τ} {phys len virt : Nat} {opts : MapOpts} {result : MapResults}

/-! ## The lock -/

/-- Between two states the lock was released as often as it was acquired. -/
def Vmm.Balanced (s s' : Vmm τ) : Prop := s'.acquired + s.released = s'.released + s.acquired

/-- One acquisition and one release. -/
theorem Vmm.balanced_of_pair {s s' : Vmm τ} (acquired : s'.acquired = s.acquired + 1)
    (released : s'.released = s.released + 1) : s.Balanced s' := by
  unfold Vmm.Balanced
  omega

/-- One acquisition and no release. -/
theorem Vmm.not_balanced_acquireLock (s : Vmm τ) : ¬ s.Balanced s.acquireLock := by
  unfold Vmm.Balanced Vmm.acquireLock
  simp only
  omega

/-- `map_range` with a physical address keeps the lock when it finds no virtual memory. -/
theorem mapRange_balanced_iff {s s' : Vmm τ}
    (returns : s.mapRange mmu phys len opts = .ok (result, virt, s')) :
    s.Balanced s' ↔ s.space.findFreeVirtmem (wrap (len + pageOffset phys)) ≠ .ok none := by
  rcases mapRange_inv returns with ⟨-, -, rfl, search⟩ | ⟨base, -, -, -, search, -, acquired, released⟩
  · rw [search]
    exact iff_of_false s.not_balanced_acquireLock (by simp)
  · rw [search]
    exact iff_of_true (Vmm.balanced_of_pair acquired released) (by simp)

/-- On i386 `map_range` without a physical address releases the lock on every path. -/
theorem I386.mapRangeAny_balanced {layout : I386.Layout} {pmm : PmmCalls I386.Tables}
    {s s' : Vmm I386.Tables} {caller : Nat}
    (returns : I386.mapRangeAny layout pmm s len caller opts = .ok (result, s')) :
    s.Balanced s' := by
  rcases I386.mapRangeAny_inv returns with ⟨rfl, -⟩ | ⟨_, _, _, -, acquired, released, -⟩
  · exact Vmm.balanced_of_pair rfl rfl
  · exact Vmm.balanced_of_pair acquired released

/-- On i386 `unmap_range` releases the lock on every path. -/
theorem I386.unmapRange_balanced {layout : I386.Layout} {pmm : PmmCalls I386.Tables}
    {s s' : Vmm I386.Tables}
    (returns : I386.unmapRange layout pmm s virt len opts = .ok (result, s')) :
    s.Balanced s' := by
  rcases I386.unmapRange_inv returns with
    ⟨-, rfl, -⟩ | ⟨-, rfl, -, -⟩ | ⟨-, -, -, acquired, released, -⟩
  · exact Vmm.balanced_of_pair rfl rfl
  · exact Vmm.balanced_of_pair rfl rfl
  · exact Vmm.balanced_of_pair acquired released

/-- On ARM `map_range` without a physical address keeps the lock when it finds no virtual memory. -/
theorem Arm.mapRangeAny_balanced_iff {layout : Arm.Layout} {pmm : PmmCalls Arm.Tables}
    {s s' : Vmm Arm.Tables} {caller : Nat}
    (returns : Arm.mapRangeAny layout pmm s len caller opts = .ok (result, s')) :
    s.Balanced s' ↔ s.space.findFreeVirtmem len ≠ .ok none := by
  rcases Arm.mapRangeAny_inv returns with
    ⟨rfl, search⟩ | ⟨⟨found, search⟩, _, _, -, acquired, released, -⟩
  · rw [search]
    exact iff_of_false s.not_balanced_acquireLock (by simp)
  · rw [search]
    exact iff_of_true (Vmm.balanced_of_pair acquired released) (by simp)

/-- The physical memory manager refuses to take the memory of a mapped range back. -/
def Arm.Refused (layout : Arm.Layout) (pmm : PmmCalls Arm.Tables) (s : Space Arm.Tables)
    (virt len : Nat) (opts : MapOpts) : Prop :=
  s.allMapped (bytesToPages len) (pageFloor virt) = true ∧ opts.physAddrAuto = true ∧
  ∃ phys attempt, s.tables.virtToPhys layout virt = .ok phys ∧
    pmm.freeMemArea s phys len = .ok attempt ∧
    (attempt = PmmResult.invalid ∨ attempt = PmmResult.null)

/-- On ARM `unmap_range` keeps the lock when the physical memory is refused. -/
theorem Arm.unmapRange_balanced_iff {layout : Arm.Layout} {pmm : PmmCalls Arm.Tables}
    {s s' : Vmm Arm.Tables}
    (returns : Arm.unmapRange layout pmm s virt len opts = .ok (result, s')) :
    s.Balanced s' ↔ ¬ Arm.Refused layout pmm s.space virt len opts := by
  unfold Arm.Refused
  rcases Arm.unmapRange_inv returns with
    ⟨-, rfl, all⟩ | ⟨-, rfl, all, auto, refused⟩ | ⟨-, all, -, acquired, released, freed⟩
  · refine iff_of_true (Vmm.balanced_of_pair rfl rfl) ?_
    rw [all]
    simp
  · exact iff_of_false s.not_balanced_acquireLock (not_not.mpr ⟨all, auto, refused⟩)
  · refine iff_of_true (Vmm.balanced_of_pair acquired released) ?_
    rintro ⟨-, auto, phys, attempt, walks, frees, refused⟩
    obtain ⟨phys', attempt', walks', frees', notInvalid, notNull⟩ := freed auto
    rw [walks] at walks'
    cases walks'
    rw [frees] at frees'
    cases frees'
    rcases refused with invalid | null
    · exact notInvalid invalid
    · exact notNull null

/-- A range that `map_range` mapped can be unmapped again, which restores the map exactly when the
range has as many pages without its offset as with it. -/
theorem Mapped.undo {limit base : Nat} {good : τ → Prop} {view : τ → Nat → Option Nat}
    {s s' : Space τ} (models : mmu.Models limit good view) (nonzero : 0 < base)
    (positive : 0 < len) (bounded : phys + len < wordLimit)
    (mapped : Mapped limit good view s s' base (pagesFor phys len) (physPage phys)) :
    (base * pageSize + pageOffset phys < wordLimit ∧
      (base * pageSize + pageOffset phys) / pageSize = base) ∧
    base + bytesToPages len ≤ limit ∧
    (∀ i, base ≤ i → i < base + bytesToPages len → s'.searchable i = true) ∧
    ∀ s'', Unmapped good view s' s'' base (bytesToPages len) →
      (s''.searchable = s.searchable ↔ pageOffset phys + (len - 1) % pageSize < pageSize) := by
  have limitLt := models.limit_lt
  have below := mapped.below
  have small : pagesFor phys len + 1 < pageCount := by
    have two : 1 < pageCount := by decide
    omega
  obtain ⟨fewer, same⟩ := pages_eq_iff positive bounded small
  have some : 0 < pagesFor phys len := by
    rw [pagesFor_eq bounded small]
    unfold pageSize
    omega
  refine ⟨found_word (by omega) (pageOffset_lt phys), by omega, ?_, ?_⟩
  · intro i first last
    rw [mapped.searchable, Library.overlay_inside first (by omega)]
  · intro s'' unmapped
    rw [mapped.restored_iff unmapped fewer, same]

/-- What holds of the state after a call that succeeded. -/
theorem exists_success_iff {call : Except Fault (MapResults × Vmm τ)} {s : Vmm τ}
    {property : Vmm τ → Prop} (succeeds : call = .ok (.success, s)) :
    (∃ s', call = .ok (.success, s') ∧ property s') ↔ property s := by
  constructor
  · rintro ⟨other, returns, holds⟩
    rw [succeeds] at returns
    cases returns
    exact holds
  · intro holds
    exact ⟨s, succeeds, holds⟩

/-- On i386 unmapping restores the map exactly when the counts of pages agree. -/
theorem I386.undone_iff {layout : I386.Layout} {pmm : PmmCalls I386.Tables}
    {s s' : Vmm I386.Tables} (reachable : I386.Reachable layout s) (positive : 0 < len)
    (bounded : phys + len < wordLimit)
    (maps : s.mapRange (I386.mmu layout) phys len MapOpts.none = .ok (.success, virt, s')) :
    (∃ s'', I386.unmapRange layout pmm s' virt len MapOpts.none = .ok (.success, s'') ∧
      s''.space.searchable = s.space.searchable) ↔
      pageOffset phys + (len - 1) % pageSize < pageSize := by
  rcases mapRange_cases (I386.mmu_models layout) reachable.sound.agrees rfl (by omega) maps with
    ⟨failed, -⟩ | ⟨-, base, nonzero, rfl, mapped⟩
  · exact absurd rfl failed
  · obtain ⟨found, below, all, restores⟩ :=
      mapped.undo (I386.mmu_models layout) nonzero positive bounded
    obtain ⟨s'', unmaps, unmapped⟩ := @I386.unmapRange_mapped layout
      (base * pageSize + pageOffset phys) len s' pmm MapOpts.none mapped.good
      (Or.inr (by rw [found.2]; exact below)) found.1 (by rw [found.2]; exact all)
      (fun auto => absurd auto (by decide))
    rw [found.2] at unmapped
    rw [← restores s''.space unmapped]
    exact exists_success_iff unmaps

/-- On ARM unmapping restores the map exactly when the counts of pages agree. -/
theorem Arm.undone_iff {layout : Arm.Layout} {pmm : PmmCalls Arm.Tables}
    {s s' : Vmm Arm.Tables} (reachable : Arm.Reachable layout s) (positive : 0 < len)
    (bounded : phys + len < wordLimit)
    (maps : s.mapRange (Arm.mmu layout) phys len MapOpts.none = .ok (.success, virt, s')) :
    (∃ s'', Arm.unmapRange layout pmm s' virt len MapOpts.none = .ok (.success, s'') ∧
      s''.space.searchable = s.space.searchable) ↔
      pageOffset phys + (len - 1) % pageSize < pageSize := by
  rcases mapRange_cases (Arm.mmu_models layout) reachable.sound.agrees rfl (by omega) maps with
    ⟨failed, -⟩ | ⟨-, base, nonzero, rfl, mapped⟩
  · exact absurd rfl failed
  · obtain ⟨found, below, all, restores⟩ :=
      mapped.undo (Arm.mmu_models layout) nonzero positive bounded
    obtain ⟨s'', unmaps, unmapped⟩ := @Arm.unmapRange_mapped layout
      (base * pageSize + pageOffset phys) len s' pmm mapped.good
      (Or.inr (by rw [found.2]; exact below)) found.1 (by rw [found.2]; exact all)
    rw [found.2] at unmapped
    rw [← restores s''.space unmapped]
    exact exists_success_iff unmaps

/-- On both architectures, from every reachable state, `unmap_range` of what `map_range` mapped
succeeds and restores the set of mapped pages exactly when the offset of the range and the offset
of its last byte from its first do not cross a page together. -/
theorem unmap_undoes_map_iff (phys len virt : Nat) (positive : 0 < len)
    (bounded : phys + len < wordLimit) :
    (∀ layout pmm (s s' : Vmm I386.Tables), I386.Reachable layout s →
      s.mapRange (I386.mmu layout) phys len MapOpts.none = .ok (.success, virt, s') →
      ((∃ s'', I386.unmapRange layout pmm s' virt len MapOpts.none = .ok (.success, s'') ∧
        s''.space.searchable = s.space.searchable) ↔
        pageOffset phys + (len - 1) % pageSize < pageSize)) ∧
    ∀ layout pmm (s s' : Vmm Arm.Tables), Arm.Reachable layout s →
      s.mapRange (Arm.mmu layout) phys len MapOpts.none = .ok (.success, virt, s') →
      ((∃ s'', Arm.unmapRange layout pmm s' virt len MapOpts.none = .ok (.success, s'') ∧
        s''.space.searchable = s.space.searchable) ↔
        pageOffset phys + (len - 1) % pageSize < pageSize) := by
  constructor
  · intro layout pmm s s' reachable maps
    exact I386.undone_iff reachable positive bounded maps
  · intro layout pmm s s' reachable maps
    exact Arm.undone_iff reachable positive bounded maps

/-- A physical memory manager that refuses everything. -/
def refusingPmm : PmmCalls τ where
  getMemArea _ _ := .error .abort
  getMemAreaAt _ _ _ := .error .abort
  freeMemArea _ _ _ := .ok .invalid

/-- A page is mapped and unmapped after booting on both architectures. -/
theorem unmap_undoes_map_iff_boot :
    (∃ s s' s'' : Vmm I386.Tables, I386.Reachable I386.exampleLayout s ∧
      s.mapRange (I386.mmu I386.exampleLayout) 0x3000 0x1000 MapOpts.none =
        .ok (.success, 0x1000, s') ∧
      I386.unmapRange I386.exampleLayout refusingPmm s' 0x1000 0x1000 MapOpts.none =
        .ok (.success, s'') ∧ s''.space.searchable = s.space.searchable) ∧
    ∃ s s' s'' : Vmm Arm.Tables, Arm.Reachable Arm.exampleLayout s ∧
      s.mapRange (Arm.mmu Arm.exampleLayout) 0x3000 0x1000 MapOpts.none =
        .ok (.success, 0x1000, s') ∧
      Arm.unmapRange Arm.exampleLayout refusingPmm s' 0x1000 0x1000 MapOpts.none =
        .ok (.success, s'') ∧ s''.space.searchable = s.space.searchable := by
  constructor
  · obtain ⟨s, s', reachable, maps⟩ := I386.exists_first_mapping
      (show 0x3000 < wordLimit by decide) (show 0x1000 + _ ≤ _ by decide) (by decide)
    obtain ⟨s'', unmaps, restores⟩ := ((unmap_undoes_map_iff _ _ _ (by decide)
      (by decide)).1 _ refusingPmm _ _ reachable maps).mpr (by decide)
    exact ⟨s, s', s'', reachable, maps, unmaps, restores⟩
  · obtain ⟨s, s', reachable, maps⟩ := Arm.exists_first_mapping
      (show 0x3000 < wordLimit by decide) (show 0x1000 + _ ≤ _ by decide) (by decide)
    obtain ⟨s'', unmaps, restores⟩ := ((unmap_undoes_map_iff _ _ _ (by decide)
      (by decide)).2 _ refusingPmm _ _ reachable maps).mpr (by decide)
    exact ⟨s, s', s'', reachable, maps, unmaps, restores⟩

/-- A byte pair that crosses a page is mapped to two pages, and only one of them is unmapped. -/
theorem unmap_leaves_page : ∃ s s' : Vmm I386.Tables, I386.Reachable I386.exampleLayout s ∧
    s.mapRange (I386.mmu I386.exampleLayout) 0x1fff 2 MapOpts.none = .ok (.success, 0x1fff, s') ∧
    ¬ ∃ s'', I386.unmapRange I386.exampleLayout refusingPmm s' 0x1fff 2 MapOpts.none =
      .ok (.success, s'') ∧ s''.space.searchable = s.space.searchable := by
  obtain ⟨s, s', reachable, maps⟩ := I386.exists_first_mapping
    (show 0x1fff < wordLimit by decide) (show 2 + _ ≤ _ by decide) (by decide)
  refine ⟨s, s', reachable, maps, ?_⟩
  intro undone
  have fits := (I386.undone_iff reachable (by decide) (by decide) maps).mp undone
  exact absurd fits (by decide)

end FelineOS.Paging
