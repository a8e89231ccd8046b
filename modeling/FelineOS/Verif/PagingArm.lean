import FelineOS.Kernel.PagingArm
import FelineOS.Verif.PagingSearch

/-!
# The page tables of ARM

What the first-level descriptors of `setup_paging` are: the number of the section goes into the
address twice, so the descriptor of section `n` names the second-level table `n + n / 256` and
carries `n % 256` in its low bits (`descriptor_row`, `descriptor_low`). No two sections share a
table, so the two copies of the mapping state still agree below section 4081 (`mmu_models`), where
the tables named run out of the array.
-/

namespace FelineOS.Paging.Arm

open Library

variable {layout : Layout} {t : Tables} {virt phys len : Nat} {s s' : Vmm Tables}
  {pmm : PmmCalls Tables} {opts : MapOpts} {result : MapResults}

/-! ## First-level descriptors -/

/-- The second-level table that the descriptor of a section names. -/
def rowOf (number : Nat) : Nat := number + number / 256

/-- Different sections have different tables. -/
theorem rowOf_injective {a b : Nat} (same : rowOf a = rowOf b) : a = b := by
  unfold rowOf at same
  omega

/-- The address in the descriptor of a section. -/
theorem descriptor_base {number : Nat} (inside : number < 4096) :
    (descriptor layout number &&& ~~~0x3ff).toNat = layout.tables + 1024 * rowOf number := by
  have bounded := layout.tables_bounded
  obtain ⟨k, aligned⟩ := layout.tables_aligned
  have word : layout.tables + 1024 * number + 4 * number < UInt32.size := by
    change layout.tables + 1024 * number + 4 * number < wordLimit
    omega
  have mask : domain &&& ~~~0x3ff = 0 ∧ pageTableType &&& ~~~0x3ff = 0 := by decide
  unfold descriptor
  rw [or_and_mask, or_and_mask, mask.1, mask.2, UInt32.or_zero, UInt32.or_zero,
    clearLow_toNat _ _ 10 (by decide) rfl, UInt32.toNat_ofNat_of_lt' word]
  unfold rowOf
  omega

/-- The low bits of the descriptor of a section. -/
theorem descriptor_low {number : Nat} (inside : number < 4096) :
    descriptor layout number &&& 0x3ff = UInt32.ofNat (4 * (number % 256)) ||| pageTableType := by
  have bounded := layout.tables_bounded
  obtain ⟨k, aligned⟩ := layout.tables_aligned
  have word : layout.tables + 1024 * number + 4 * number < UInt32.size := by
    change layout.tables + 1024 * number + 4 * number < wordLimit
    omega
  have mask : domain &&& 0x3ff = 0 ∧ pageTableType &&& 0x3ff = pageTableType := by decide
  have low : UInt32.ofNat (layout.tables + 1024 * number + 4 * number) &&& 0x3ff =
      UInt32.ofNat (4 * (number % 256)) := by
    apply UInt32.toNat_inj.mp
    have small : 4 * (number % 256) < UInt32.size := by
      change 4 * (number % 256) < 4294967296
      omega
    rw [UInt32.toNat_and, UInt32.toNat_ofNat_of_lt' word, UInt32.toNat_ofNat_of_lt' small]
    change _ &&& (2 ^ 10 - 1) = _
    rw [Nat.and_two_pow_sub_one_eq_mod]
    omega
  unfold descriptor
  rw [or_and_mask, or_and_mask, mask.1, mask.2, low, UInt32.or_zero]

/-- The tables named by the descriptors run out of the array. -/
theorem rowAt_row {row : Nat} : Tables.rowAt layout (layout.tables + 1024 * row) =
    if row < 4096 then some row else none := by
  unfold Tables.rowAt
  by_cases inside : row < 4096
  · rw [if_pos inside, if_pos (by omega), Nat.add_sub_cancel_left,
      Nat.mul_div_cancel_left _ (by decide)]
  · rw [if_neg inside, if_neg (by omega)]

/-- The table that a section leads to. -/
theorem tableOf_descriptor {number : Nat} (inside : number < 4096) :
    Tables.tableOf layout (descriptor layout number) =
      if rowOf number < 4096 then .ok (rowOf number) else .error .undefined := by
  unfold Tables.tableOf
  rw [descriptor_base inside, rowAt_row]
  by_cases fits : rowOf number < 4096
  · rw [if_pos fits, if_pos fits]
  · rw [if_neg fits, if_neg fits]

/-! ## The tables -/

/-- The first page whose section leads out of the array. -/
def tableEnd : Nat := 4081 * 256

/-- The first-level table is as `setup_paging` left it. -/
def WellFormed (layout : Layout) (t : Tables) : Prop := t.firstLevel = initialFirstLevel layout

/-- What a second-level descriptor says. -/
def entryView (entry : UInt32) : Option Nat :=
  if isSmallPage entry then some ((entry &&& ~~~0xfff).toNat / pageSize) else none

/-- The physical page behind a virtual page, read from the tables. -/
def view (t : Tables) (page : Nat) : Option Nat :=
  entryView (t.secondLevel (rowOf (page / 256)) (page % 256))

/-- The section of a page. -/
theorem sectionTableOffset_eq (virt : Nat) : sectionTableOffset virt = virt / pageSize / 256 := by
  unfold sectionTableOffset sectionSize pageSize
  omega

/-- The place of a page in its section. -/
theorem secondLevelOffset_eq (virt : Nat) : secondLevelOffset virt = virt / pageSize % 256 := by
  unfold secondLevelOffset sectionSize pageSize
  omega

/-- The descriptor that `map_page` writes. -/
theorem entryView_write (word : phys < wordLimit) :
    entryView (UInt32.ofNat phys ||| defaultOpts ||| attributes opts) = some (phys / pageSize) := by
  have flags : (defaultOpts ||| attributes opts) &&& ~~~0xfff = 0 ∧
      (defaultOpts ||| attributes opts) &&& smallPage = smallPage := by
    unfold attributes
    cases opts.device with
    | true => decide
    | false => decide
  have small : isSmallPage (UInt32.ofNat phys ||| defaultOpts ||| attributes opts) = true := by
    unfold isSmallPage
    rw [UInt32.or_assoc, or_and_mask, flags.2, bne_iff_ne]
    intro zero
    have bit := congrArg (· &&& smallPage) zero
    simp only [or_and_mask, UInt32.and_assoc, UInt32.and_self, UInt32.zero_and] at bit
    have second := congrArg (fun word : UInt32 => word.toBitVec.getLsbD 1) bit
    simp [smallPage] at second
  unfold entryView
  rw [if_pos small, UInt32.or_assoc, or_and_mask, flags.1, UInt32.or_zero, pageFloor_ofNat word]
  unfold pageFloor
  rw [page_div]

/-- A write shows at one page. -/
theorem view_write (page : Nat) (entry : UInt32) :
    view (t.write (rowOf (page / 256)) (page % 256) entry) =
      Function.update (view t) page (entryView entry) := by
  funext other
  rw [Function.update_apply]
  unfold view Tables.write
  simp only [Function.update_apply]
  by_cases same : other = page
  · subst same
    simp
  · rw [if_neg same]
    by_cases row : rowOf (other / 256) = rowOf (page / 256)
    · have number := rowOf_injective row
      have column : other % 256 ≠ page % 256 := by omega
      simp [row, column]
    · simp [row]

/-- The table of an address below the end of the tables. -/
theorem WellFormed.tableOf (well : WellFormed layout t) (below : virt / pageSize < tableEnd) :
    Tables.tableOf layout (t.firstLevel (sectionTableOffset virt)) =
      .ok (rowOf (virt / pageSize / 256)) := by
  unfold tableEnd at below
  have number : virt / pageSize / 256 < 4081 := by omega
  have fits : rowOf (virt / pageSize / 256) < 4096 := by
    unfold rowOf
    omega
  rw [well, sectionTableOffset_eq]
  unfold initialFirstLevel
  rw [if_pos (by omega), tableOf_descriptor (by omega), if_pos fits]

/-- A descriptor of a section is one of a page table, and its other bits below the address are
those of the number of the section. -/
theorem descriptor_fields {number : Nat} (inside : number < 4096) :
    descriptor layout number &&& 0b11 = pageTableType ∧
    (domainField (descriptor layout number) = 0 ∧
      otherLowBits (descriptor layout number) = pageTableType ↔ number % 256 = 0) := by
  have low : ∀ m : Fin 256, (UInt32.ofNat (4 * m.val) ||| pageTableType) &&& 0b11 = pageTableType ∧
      ((UInt32.ofNat (4 * m.val) ||| pageTableType) &&& 0b0111100000 = 0 ∧
        (UInt32.ofNat (4 * m.val) ||| pageTableType) &&& 0b1000011111 = pageTableType ↔
          m.val = 0) := by
    decide +kernel
  have masked : ∀ mask : UInt32, 0x3ff &&& mask = mask → descriptor layout number &&& mask =
      (UInt32.ofNat (4 * (number % 256)) ||| pageTableType) &&& mask := by
    intro mask small
    rw [← descriptor_low inside, UInt32.and_assoc, small]
  unfold domainField otherLowBits
  rw [masked _ (by decide), masked _ (by decide), masked _ (by decide)]
  exact low ⟨number % 256, Nat.mod_lt _ (by decide)⟩

/-- The tables of ARM keep what the common part needs. -/
theorem mmu_models (layout : Layout) : (mmu layout).Models tableEnd (WellFormed layout) view where
  limit_lt := by decide
  set_ok := by
    intro t phys virt opts well word below
    refine ⟨t.write (rowOf (virt / pageSize / 256)) (virt / pageSize % 256)
      (UInt32.ofNat phys ||| defaultOpts ||| attributes opts), ?_, well, ?_⟩
    · have number : sectionTableOffset virt < 4095 := by
        rw [sectionTableOffset_eq]
        unfold tableEnd at below
        omega
      have isTable : t.firstLevel (sectionTableOffset virt) &&& pageTableType ≠ 0 := by
        rw [well]
        unfold initialFirstLevel
        rw [if_pos number]
        intro zero
        have kind := (@descriptor_fields layout _ (Nat.lt_succ_of_lt number)).1
        have low := congrArg (· &&& pageTableType) kind
        simp only [UInt32.and_assoc] at low
        have mask : (0b11 : UInt32) &&& pageTableType = pageTableType := by decide
        rw [mask, zero] at low
        exact absurd low (by decide)
      show t.setEntry layout phys virt opts = _
      unfold Tables.setEntry
      simp only [if_neg isTable, well.tableOf below, ok_bind, secondLevelOffset_eq]
    · rw [view_write, entryView_write word]
  set_beyond := by
    intro t phys virt opts well beyond word
    show ∃ fault, t.setEntry layout phys virt opts = .error fault
    unfold Tables.setEntry
    simp only
    by_cases isTable : t.firstLevel (sectionTableOffset virt) &&& pageTableType = 0
    · rw [if_pos isTable]
      exact ⟨.abort, rfl⟩
    · rw [if_neg isTable]
      have number : sectionTableOffset virt < 4095 := by
        by_contra last
        apply isTable
        rw [well]
        unfold initialFirstLevel
        rw [if_neg last, UInt32.zero_and]
      have outside : ¬ rowOf (sectionTableOffset virt) < 4096 := by
        rw [sectionTableOffset_eq] at *
        unfold tableEnd at beyond
        unfold rowOf
        omega
      rw [well]
      unfold initialFirstLevel
      rw [if_pos number, tableOf_descriptor (by omega), if_neg outside]
      exact ⟨.undefined, rfl⟩
  clear_ok := by
    intro t virt well below
    refine ⟨t.write (rowOf (virt / pageSize / 256)) (virt / pageSize % 256) 0, ?_, well, ?_⟩
    · show t.clearEntry layout virt = _
      unfold Tables.clearEntry
      rw [well.tableOf below, ok_bind, secondLevelOffset_eq]
    · rw [view_write]
      rfl

/-! ## Unmapping -/

/-- The second loop of `unmap_range` clears both copies. -/
theorem unmapPages_spec {s₀ s : Space Tables} {base count done : Nat}
    (before : Unmapped (WellFormed layout) view s₀ s base done)
    (all : ∀ i, base ≤ i → i < base + (done + count) → s₀.searchable i = true)
    (below : count = 0 ∨ base + (done + count) ≤ tableEnd) :
    ∃ s', unmapPages layout count s ((base + done) * pageSize) = .ok s' ∧
      Unmapped (WellFormed layout) view s₀ s' base (done + count) := by
  have endLt : tableEnd < pageCount := by decide
  induction count generalizing s done with
  | zero => exact ⟨s, rfl, before⟩
  | succ count ih =>
    have mapped : s.isMapped ((base + done) * pageSize) = true := by
      unfold Space.isMapped
      rw [page_div, before.searchable, overlay_outside (Or.inr (Nat.le_refl _))]
      exact all _ (by omega) (by omega)
    obtain ⟨s₁, unmaps, well, marks, shows⟩ := unmapPage_mapped (mmu_models layout) before.good
      (by rw [page_div]; omega) mapped
    rw [page_div] at marks shows
    have next := before.succ well marks shows
    obtain ⟨s', unmapped, done'⟩ := ih next (fun i first last => all i first (by omega)) (by omega)
    refine ⟨s', ?_, by rwa [Nat.add_right_comm, Nat.add_assoc] at done'⟩
    rw [unmapPages, unmaps, ok_bind]
    simp only
    rw [pageIncr_page (by omega)]
    exact unmapped

/-- Inversion of a call of `unmap_range` that returned. -/
theorem unmapRange_inv (unmaps : unmapRange layout pmm s virt len opts = .ok (result, s')) :
    (result = .notMapped ∧ s' = s.acquireLock.releaseLock ∧
      s.space.allMapped (bytesToPages len) (pageFloor virt) = false) ∨
    (result = .invalidOption ∧ s' = s.acquireLock ∧
      s.space.allMapped (bytesToPages len) (pageFloor virt) = true ∧ opts.physAddrAuto = true ∧
      ∃ phys attempt, s.space.tables.virtToPhys layout virt = .ok phys ∧
        pmm.freeMemArea s.space phys len = .ok attempt ∧ (attempt = .invalid ∨ attempt = .null)) ∨
    (result = .success ∧ s.space.allMapped (bytesToPages len) (pageFloor virt) = true ∧
      unmapPages layout (bytesToPages len) s.space (pageFloor virt) = .ok s'.space ∧
      s'.acquired = s.acquired + 1 ∧ s'.released = s.released + 1 ∧
      (opts.physAddrAuto = true → ∃ phys attempt, s.space.tables.virtToPhys layout virt = .ok phys ∧
        pmm.freeMemArea s.space phys len = .ok attempt ∧ attempt ≠ .invalid ∧ attempt ≠ .null)) := by
  exact Vmm.unmapLocked_inv unmaps

/-- The invariant of the page tables. -/
structure Sound (layout : Layout) (s : Space Tables) : Prop where
  /-- The two copies agree below the end of the tables. -/
  agrees : s.Agrees tableEnd (WellFormed layout) view
  /-- No page behind it is mapped. -/
  beyond : ∀ i, tableEnd ≤ i → s.searchable i = false

/-- A change that keeps the two copies in agreement keeps the invariant. -/
theorem Sound.kept {s s' : Space Tables} (sound : Sound layout s)
    (kept : s.Kept tableEnd (WellFormed layout) view s') : Sound layout s' :=
  ⟨kept.agrees, fun i above => (kept.beyond i above).trans (sound.beyond i above)⟩

/-- A range of mapped pages ends with the tables. -/
theorem Sound.allMapped_below {s : Space Tables} {base count : Nat} (sound : Sound layout s)
    (all : s.allMapped count (base * pageSize) = true) : count = 0 ∨ base + count ≤ tableEnd := by
  have endLt : tableEnd + 1 < pageCount := by decide
  induction count generalizing base with
  | zero => exact Or.inl rfl
  | succ count ih =>
    rw [Space.allMapped, Bool.and_eq_true] at all
    have below : base < tableEnd := by
      by_contra outside
      have free := sound.beyond base (by omega)
      have mapped : s.searchable (base * pageSize / pageSize) = true := all.1
      rw [page_div, free] at mapped
      cases mapped
    have rest := all.2
    rw [pageIncr_page (by omega)] at rest
    rcases ih rest with none | fits
    · omega
    · omega

/-- What a call of `unmap_range` does. -/
theorem unmapRange_cases (sound : Sound layout s.space)
    (unmaps : unmapRange layout pmm s virt len opts = .ok (result, s')) :
    (result ≠ .success ∧ s'.space = s.space) ∨
    (result = .success ∧
      (bytesToPages len = 0 ∨ virt / pageSize + bytesToPages len ≤ tableEnd) ∧
      Unmapped (WellFormed layout) view s.space s'.space (virt / pageSize) (bytesToPages len)) := by
  rcases unmapRange_inv unmaps with
    ⟨rfl, rfl, -⟩ | ⟨rfl, rfl, -, -, -⟩ | ⟨rfl, all, clears, -, -, -⟩
  · exact Or.inl ⟨by decide, rfl⟩
  · exact Or.inl ⟨by decide, rfl⟩
  · have below := sound.allMapped_below all
    have start : Unmapped (WellFormed layout) view s.space s.space (virt / pageSize) 0 :=
      Unmapped.start sound.agrees.good
    obtain ⟨space, clears', unmapped⟩ := unmapPages_spec start
      (by
        rw [Nat.zero_add]
        intro i first last
        have endLt : tableEnd < pageCount := by decide
        exact (allMapped_iff (by omega)).mp all i first last)
      (by rw [Nat.zero_add]; exact below)
    rw [Nat.zero_add] at unmapped
    have same : Except.ok s'.space = (Except.ok space : Except Fault _) := clears.symm.trans clears'
    cases same
    exact Or.inr ⟨rfl, below, unmapped⟩

/-- Inversion of a call of `map_range` without a physical address that returned. -/
theorem mapRangeAny_inv {caller : Nat}
    (maps : mapRangeAny layout pmm s len caller opts = .ok (result, s')) :
    (s' = s.acquireLock ∧ s.space.findFreeVirtmem len = .ok none) ∨
    ((∃ virt, s.space.findFreeVirtmem len = .ok (some virt)) ∧
      ∃ attempt space, pmm.getMemAreaAt s.space 0 len = .ok (attempt, space) ∧
        s'.acquired = s.acquired + 1 ∧ s'.released = s.released + 1 ∧
        (s'.space = space ∨ space.internalMapRange (mmu layout) 0 len caller opts =
          .ok (result, s'.space))) := by
  have same : s.acquireLock.space = s.space := rfl
  unfold mapRangeAny at maps
  obtain ⟨answer, search, maps⟩ := of_bind_ok maps
  rw [same] at search
  cases answer with
  | none =>
    cases maps
    exact Or.inl ⟨rfl, search⟩
  | some virt =>
    obtain ⟨⟨attempt, space⟩, gets, maps⟩ := of_bind_ok maps
    refine Or.inr ⟨⟨virt, search⟩, attempt, space, gets, ?_⟩
    simp only at maps
    by_cases out : attempt = .nomem
    · rw [if_pos out] at maps
      cases maps
      exact ⟨rfl, rfl, Or.inl rfl⟩
    · rw [if_neg out] at maps
      obtain ⟨⟨attempt, space⟩, inner, maps⟩ := of_bind_ok maps
      cases maps
      exact ⟨rfl, rfl, Or.inr inner⟩

/-- `unmap_range` without options unmaps a range of mapped pages. -/
theorem unmapRange_mapped (well : WellFormed layout s.space.tables)
    (pages : bytesToPages len = 0 ∨ virt / pageSize + bytesToPages len ≤ tableEnd)
    (word : virt < wordLimit)
    (all : ∀ i, virt / pageSize ≤ i → i < virt / pageSize + bytesToPages len →
      s.space.searchable i = true) :
    ∃ s', unmapRange layout pmm s virt len MapOpts.none = .ok (.success, s') ∧
      Unmapped (WellFormed layout) view s.space s'.space (virt / pageSize) (bytesToPages len) := by
  have inside : virt / pageSize + bytesToPages len < pageCount := by
    have endLt : tableEnd < pageCount := by decide
    unfold wordLimit at word
    unfold pageCount maxVirtMem pageSize at *
    omega
  have mapped : s.space.allMapped (bytesToPages len) (pageFloor virt) = true :=
    (allMapped_iff inside).mpr all
  have start : Unmapped (WellFormed layout) view s.space s.space (virt / pageSize) 0 :=
    Unmapped.start well
  obtain ⟨space, clears, unmapped⟩ := unmapPages_spec start (by rw [Nat.zero_add]; exact all)
    (by rw [Nat.zero_add]; exact pages)
  rw [Nat.zero_add] at unmapped
  have clears' : unmapPages layout (bytesToPages len) s.space (pageFloor virt) =
      .ok space := clears
  have same : s.acquireLock.space = s.space := rfl
  have auto : MapOpts.none.physAddrAuto = false := rfl
  unfold unmapRange
  simp only [same, mapped, Bool.not_true, Bool.false_eq_true, if_false, auto, ok_bind,
    Bool.false_and, clears']
  exact ⟨_, rfl, unmapped⟩

/-! ## Setting up -/

/-- `setup_paging` comes back with the pages of the kernel mapped, when the kernel is linked as it
is loaded and does not end at a page boundary. -/
theorem setupPaging_returns (layout : Layout) (base count : Nat)
    (start : layout.kernelStart = base * pageSize) (aligned : pageOffset layout.physKernelStart = 0)
    (pages : bytesToPages (wrapSub layout.physKernelEnd layout.physKernelStart) = count)
    (some : 0 < count) (last : layout.kernelEnd / pageSize = base + count - 1)
    (below : base + count ≤ tableEnd) :
    ∃ s, setupPaging layout = .ok s ∧
      s.space.searchable = overlay (fun _ => false) base count fun _ => true := by
  have offset : pageOffset layout.physKernelStart = pageOffset layout.kernelStart := by
    rw [aligned, start]
    exact (Nat.mul_mod_left _ _).symm
  have floor : pageFloor layout.kernelStart = base * pageSize := by
    rw [start]
    exact pageFloor_of_dvd (Nat.dvd_mul_left _ _)
  obtain ⟨s', maps, marks⟩ : ∃ s', Space.mapPages (mmu layout) layout.kernelStart
      ⟨false, true, false⟩ count
      ⟨fun _ => false, ⟨initialFirstLevel layout, fun _ _ => 0⟩⟩ (base * pageSize)
      (pageFloor layout.physKernelStart) = .ok (.success, s') ∧ _ :=
    mapPages_free (mmu_models layout) rfl
      (Nat.lt_of_le_of_lt (pageFloor_le _) layout.physKernelStart_word) below fun _ _ _ => rfl
  have startMapped : s'.isMapped layout.kernelStart = true := by
    unfold Space.isMapped
    rw [start, page_div, marks, overlay_inside (Nat.le_refl _) (by omega)]
  have endMapped : s'.isMapped layout.kernelEnd = true := by
    unfold Space.isMapped
    rw [last, marks, overlay_inside (by omega) (by omega)]
  unfold setupPaging Space.internalMapRange
  simp only [offset, ne_eq, not_true_eq_false, if_false, if_true, ok_bind, pages, floor, maps,
    startMapped, endMapped, assert_true]
  exact ⟨_, rfl, marks⟩

/-! ## Reachable states -/

/-- Every call keeps the two copies in agreement. -/
theorem Step.kept (sound : Sound layout s.space) (step : Step layout pmm s s') :
    s.space.Kept tableEnd (WellFormed layout) view s'.space := by
  cases step with
  | map physWord lenWord returns =>
    exact mapRange_kept (mmu_models layout) sound.agrees physWord returns
  | mapAny lenWord callerWord honest returns =>
    rcases mapRangeAny_inv returns with ⟨rfl, -⟩ | ⟨-, attempt, space, gets, -, -, rest⟩
    · exact Space.Kept.refl sound.agrees
    · have grown := (honest attempt space gets).kept (mmu_models layout) sound.agrees
      rcases rest with rfl | inner
      · exact grown
      · exact grown.trans
          (internalMapRange_kept (mmu_models layout) grown.agrees (by decide) callerWord inner)
  | unmap virtWord lenWord returns =>
    rcases unmapRange_cases sound returns with ⟨-, same⟩ | ⟨-, below, unmapped⟩
    · rw [same]
      exact Space.Kept.refl sound.agrees
    · exact unmapped.kept sound.agrees below

/-- The invariant after `setup_paging`. -/
theorem setupPaging_sound (returns : setupPaging layout = .ok s) : Sound layout s.space := by
  have blank : (entryView 0).isSome = false := by decide
  have sound : Sound layout ⟨fun _ => false, ⟨initialFirstLevel layout, fun _ _ => 0⟩⟩ :=
    ⟨⟨rfl, fun _ _ => blank.symm⟩, fun _ _ => rfl⟩
  unfold setupPaging at returns
  obtain ⟨⟨kernelMapping, space⟩, maps, returns⟩ := of_bind_ok returns
  have kept := internalMapRange_kept (mmu_models layout) sound.agrees layout.physKernelStart_word
    layout.kernelStart_word maps
  by_cases failed : kernelMapping ≠ .success
  · simp only [if_pos failed] at returns
    cases returns
  · simp only [if_neg failed] at returns
    obtain ⟨-, returns⟩ := assert_ok returns
    obtain ⟨-, returns⟩ := assert_ok returns
    cases returns
    exact sound.kept kept

/-- The invariant holds in every reachable state. -/
theorem Reachable.sound (reachable : Reachable layout s) : Sound layout s.space := by
  induction reachable with
  | setup returns => exact setupPaging_sound returns
  | step before step ih => exact ih.kept (step.kept ih)

/-! ## The walk of the processor -/

/-- What the walk for an address should find: its descriptor is in the array and no other page has
it, it is one of a small page exactly when the page is mapped, and the first-level descriptor on
the way is of domain zero and has no bits below the address of its table but those of its type. -/
structure WalksWell (layout : Layout) (s : Space Tables) (virt : Nat) : Prop where
  /-- The descriptor is in the array, of this page only, and valid when the page is mapped. -/
  lands : ∃ place, s.tables.walk layout virt = some place ∧
    (∀ other < wordLimit, s.tables.walk layout other = some place →
      other / pageSize = virt / pageSize) ∧
    isSmallPage (s.tables.secondLevel place.1 place.2) = s.isMapped virt
  /-- The section is of domain zero. -/
  domain : domainField (s.tables.firstLevel (sectionTableOffset virt)) = 0
  /-- The other low bits are the type. -/
  low : otherLowBits (s.tables.firstLevel (sectionTableOffset virt)) = pageTableType

/-- The walk in well-formed tables. -/
theorem WellFormed.walk (well : WellFormed layout t) (word : virt < wordLimit) :
    t.walk layout virt = if virt / pageSize / 256 < 4081 then
      some (rowOf (virt / pageSize / 256), virt / pageSize % 256) else none := by
  have number : virt / 0x100000 = virt / pageSize / 256 := sectionTableOffset_eq virt
  have inside : virt / pageSize / 256 < 4096 := by
    unfold wordLimit at word
    unfold pageSize
    omega
  unfold Tables.walk
  rw [number, well]
  unfold initialFirstLevel
  by_cases last : virt / pageSize / 256 < 4095
  · have row : rowOf (virt / pageSize / 256) < 4096 ↔ virt / pageSize / 256 < 4081 := by
      unfold rowOf
      omega
    simp only [if_pos last, (descriptor_fields inside).1, if_true, descriptor_base inside,
      rowAt_row, row]
    by_cases fits : virt / pageSize / 256 < 4081
    · rw [if_pos fits, if_pos fits]
      rfl
    · rw [if_neg fits, if_neg fits]
      rfl
  · have blank : ¬ (0 : UInt32) &&& 0b11 = pageTableType := by decide
    simp only [if_neg last, if_neg blank]
    rw [if_neg (by omega)]

/-- The walk under the invariant is right in every 256th section only. -/
theorem Sound.walksWell {s : Space Tables} (sound : Sound layout s) (below : virt < 0xFFF00000) :
    WalksWell layout s virt ↔ virt / sectionSize % 256 = 0 := by
  have well := sound.agrees.good
  have word : virt < wordLimit := Nat.lt_trans below (by decide)
  have number : virt / pageSize / 256 < 4095 := by
    unfold pageSize
    omega
  have same : virt / sectionSize = virt / pageSize / 256 := sectionTableOffset_eq virt
  have first : s.tables.firstLevel (sectionTableOffset virt) =
      descriptor layout (virt / pageSize / 256) := by
    rw [well, sectionTableOffset_eq]
    exact if_pos number
  have fields := (@descriptor_fields layout (virt / pageSize / 256) (by omega)).2
  rw [same]
  constructor
  · intro walks
    apply fields.mp
    rw [← first]
    exact ⟨walks.domain, walks.low⟩
  · intro right
    have bits := fields.mpr right
    rw [← first] at bits
    have fits : virt / pageSize / 256 < 4081 := by omega
    refine ⟨⟨(rowOf (virt / pageSize / 256), virt / pageSize % 256), ?_, ?_, ?_⟩, bits.1, bits.2⟩
    · rw [well.walk word, if_pos fits]
    · intro other otherWord reaches
      rw [well.walk otherWord] at reaches
      split at reaches
      · simp only [Option.some.injEq, Prod.mk.injEq] at reaches
        have sameSection := rowOf_injective reaches.1
        omega
      · cases reaches
    · have page : virt / pageSize < tableEnd := by
        unfold tableEnd
        omega
      show _ = s.searchable (virt / pageSize)
      rw [sound.agrees.agrees _ page]
      unfold view entryView
      by_cases valid : isSmallPage (s.tables.secondLevel (rowOf (virt / pageSize / 256))
          (virt / pageSize % 256)) = true
      · rw [if_pos valid]
        exact valid
      · rw [if_neg valid]
        simpa using valid

/-- In every reachable state the walk for a page below `0xFFF00000` is right exactly when the
number of its section is a multiple of 256. -/
theorem walksWell_iff (reachable : Reachable layout s) (below : virt < 0xFFF00000) :
    WalksWell layout s.space virt ↔ virt / sectionSize % 256 = 0 :=
  reachable.sound.walksWell below

/-- A kernel of a few megabytes, linked at `0xF0009000`. -/
def exampleLayout : Layout where
  tables := 0x104000
  kernelStart := 0xf0009000
  kernelEnd := 0xf0600800
  physKernelStart := 0x9000
  physKernelEnd := 0x600800
  tables_aligned := by decide
  tables_bounded := by decide
  kernelStart_word := by decide
  physKernelStart_word := by decide

/-- That kernel boots. -/
theorem setupPaging_example : ∃ s, setupPaging exampleLayout = .ok s ∧
    s.space.searchable = overlay (fun _ => false) 0xf0009 0x5f8 fun _ => true :=
  setupPaging_returns exampleLayout 0xf0009 0x5f8 (by decide) (by decide) (by decide) (by decide)
    (by decide) (by decide)

/-- A small range can be mapped after booting. -/
theorem exists_first_mapping (physWord : phys < wordLimit)
    (small : len + pageOffset phys ≤ roundLimit) (few : pagesFor phys len < 0xf0000) :
    ∃ s s', Reachable exampleLayout s ∧ s.mapRange (mmu exampleLayout) phys len MapOpts.none =
      .ok (.success, pageSize + pageOffset phys, s') := by
  have count : pageCount = 0x100000 := by decide
  obtain ⟨s, setup, marks⟩ := setupPaging_example
  have reachable : Reachable exampleLayout s := .setup setup
  obtain ⟨s', maps⟩ : ∃ s', s.mapRange (mmu exampleLayout) phys len MapOpts.none =
      .ok (.success, pageSize + pageOffset phys, s') := by
    refine mapRange_first (mmu_models exampleLayout) reachable.sound.agrees physWord small
      (by unfold tableEnd; omega) (by omega) ?_
    intro i first last
    rw [marks, overlay_outside (by omega)]
  exact ⟨s, s', reachable, maps⟩

/-- The first section is walked as it should be. -/
theorem walksWell_iff_boot : ∃ s, Reachable exampleLayout s ∧ WalksWell exampleLayout s.space 0 := by
  obtain ⟨s, setup, -⟩ := setupPaging_example
  exact ⟨s, .setup setup, (walksWell_iff (.setup setup) (by decide)).mpr (by decide)⟩

/-- The eighth section has a descriptor of domain one. -/
theorem walk_stray_domain : ∃ s, Reachable exampleLayout s ∧
    domainField (s.space.tables.firstLevel 8) ≠ 0 ∧
    ¬ WalksWell exampleLayout s.space 0x800000 := by
  obtain ⟨s, setup, -⟩ := setupPaging_example
  have reachable : Reachable exampleLayout s := .setup setup
  have stray : domainField (s.space.tables.firstLevel 8) ≠ 0 := by
    rw [reachable.sound.agrees.good]
    decide
  exact ⟨s, reachable, stray, fun walks => stray walks.domain⟩

end FelineOS.Paging.Arm
