import FelineOS.Kernel.PagingI386
import FelineOS.Verif.PagingSearch

/-!
# The page tables of i386

The bit operations on entries, the walk of the processor below the window (`translate_eq`), and
that the tables keep what the common part needs (`mmu_models`). From these: the searchable copy
agrees with the tables in every reachable state, what a successful `map_range` did, and that a
failed call changed nothing.
-/

namespace FelineOS.Paging.I386

open Library

variable {layout : Layout} {t : Tables} {virt phys len : Nat} {s s' : Vmm Tables}
  {pmm : PmmCalls Tables} {opts : MapOpts} {result : MapResults}

/-! ## Entries -/

/-- Setting a flag keeps the address. -/
theorem addr_setBit {bit : UInt32} (entry : UInt32) (low : bit &&& ~~~0xfff = 0) :
    addr (setBit bit entry) = addr entry := by
  unfold addr setBit
  rw [or_and_mask, low, UInt32.or_zero]

/-- Clearing a flag keeps the address. -/
theorem addr_unsetBit {bit : UInt32} (entry : UInt32) (low : ~~~bit &&& ~~~0xfff = ~~~0xfff) :
    addr (unsetBit bit entry) = addr entry := by
  unfold addr unsetBit
  rw [UInt32.and_assoc, low]

/-- `set_addr` sets the address. -/
theorem addr_setAddr (address entry : UInt32) : addr (setAddr address entry) = addr address := by
  unfold addr setAddr
  rw [or_and_mask, UInt32.and_assoc, UInt32.and_assoc]
  simp

/-- The flags of a page table entry keep its address. -/
theorem addr_configure (entry : UInt32) : addr (configure entry) = addr entry := by
  unfold configure
  rw [addr_setBit _ (by decide), addr_setBit _ (by decide), addr_unsetBit _ (by decide),
    addr_unsetBit _ (by decide), addr_unsetBit _ (by decide), addr_unsetBit _ (by decide),
    addr_unsetBit _ (by decide), addr_unsetBit _ (by decide), addr_unsetBit _ (by decide)]

/-- The flags of a page directory entry keep its address. -/
theorem addr_configureDirectory (entry : UInt32) :
    addr (configureDirectory entry) = addr entry := by
  unfold configureDirectory
  rw [addr_setBit _ (by decide), addr_setBit _ (by decide), addr_unsetBit _ (by decide),
    addr_unsetBit _ (by decide), addr_unsetBit _ (by decide), addr_unsetBit _ (by decide),
    addr_unsetBit _ (by decide), addr_unsetBit _ (by decide)]

/-- An entry whose present bit was set is present. -/
theorem present_setBit (entry : UInt32) : present (setBit presentBit entry) = true := by
  unfold present setBit
  rw [or_and_mask, UInt32.and_self, bne_iff_ne]
  intro zero
  have bit := congrArg (· &&& presentBit) zero
  simp only [or_and_mask, UInt32.and_assoc, UInt32.and_self, UInt32.zero_and] at bit
  have low := congrArg UInt32.toBitVec bit
  have lowest := congrArg (fun word : BitVec 32 => word.getLsbD 0) low
  simp [presentBit] at lowest

/-- An entry whose present bit was cleared is not present. -/
theorem present_unsetBit (entry : UInt32) : present (unsetBit presentBit entry) = false := by
  unfold present unsetBit
  rw [UInt32.and_assoc]
  simp [presentBit]

/-- The address of a word is its page. -/
theorem addr_ofNat {address : Nat} (word : address < wordLimit) :
    (addr (UInt32.ofNat address)).toNat = pageFloor address := pageFloor_ofNat word

/-- The address of an entry is a page. -/
theorem addr_page (entry : UInt32) : (addr entry).toNat / pageSize * pageSize = (addr entry).toNat := by
  have floor : (addr entry).toNat = pageFloor entry.toNat := pageFloor_eq_mask entry
  rw [floor]
  exact pageFloor_of_dvd (pageSize_dvd_pageFloor _)

/-! ## The tables -/

/-- The page directory names the static page tables, and itself in its last entry. -/
structure WellFormed (layout : Layout) (t : Tables) : Prop where
  /-- Every page table is there. -/
  there : ∀ i < 1024, present (t.directory i) = true
  /-- Below the window each entry names its own page table. -/
  table : ∀ i < 1023, (addr (t.directory i)).toNat = layout.tables + i * pageSize
  /-- The last entry names the directory. -/
  window : (addr (t.directory 1023)).toNat = layout.directory

/-- What a page table entry says. -/
def entryView (entry : UInt32) : Option Nat :=
  if present entry then some ((addr entry).toNat / pageSize) else none

/-- The physical page behind a virtual page, read from the page tables. -/
def view (t : Tables) (page : Nat) : Option Nat := entryView (t.pageTables (page / 1024) (page % 1024))

/-- An entry that was configured for an address. -/
theorem entryView_configure {address : Nat} (entry : UInt32) (word : address < wordLimit) :
    entryView (configure (setAddr (UInt32.ofNat address) entry)) = some (address / pageSize) := by
  unfold entryView
  have isPresent : present (configure (setAddr (UInt32.ofNat address) entry)) = true :=
    present_setBit _
  rw [if_pos isPresent, addr_configure, addr_setAddr, addr_ofNat word]
  unfold pageFloor
  rw [page_div]

/-- An entry whose present bit was cleared says nothing. -/
theorem entryView_unsetBit (entry : UInt32) : entryView (unsetBit presentBit entry) = none := by
  unfold entryView
  rw [present_unsetBit]
  rfl

/-- The directory index of a page below the window. -/
theorem pdeOffset_eq (virt : Nat) : pdeOffset virt = virt / pageSize / 1024 := by
  unfold pdeOffset pageSize
  omega

/-- The index of a page below the window is not the last one. -/
theorem pdeOffset_lt (below : virt / pageSize < windowPage) : pdeOffset virt < 1023 := by
  rw [pdeOffset_eq]
  unfold windowPage at below
  omega

/-- A change of one entry shows at one page. -/
theorem view_modifyEntry (page : Nat) (change : UInt32 → UInt32) :
    view (t.modifyEntry (page / 1024) (page % 1024) change) =
      Function.update (view t) page
        (entryView (change (t.pageTables (page / 1024) (page % 1024)))) := by
  funext other
  rw [Function.update_apply]
  unfold view Tables.modifyEntry
  simp only [Function.update_apply]
  by_cases same : other = page
  · subst same
    simp
  · rw [if_neg same]
    by_cases row : other / 1024 = page / 1024
    · have column : other % 1024 ≠ page % 1024 := by omega
      simp [row, column]
    · simp [row]

/-- The page tables are where the directory says. -/
theorem rowAt_table {i : Nat} (inside : i < 1024) :
    Tables.rowAt layout (layout.tables + i * pageSize) = some i := by
  unfold Tables.rowAt
  have below : i * pageSize < 1024 * pageSize := Nat.mul_lt_mul_of_pos_right inside (by decide)
  rw [if_pos ⟨by omega, by omega⟩, Nat.add_sub_cancel_left, page_div]

/-- The window shows the page table of each address below it. -/
theorem WellFormed.windowRow (well : WellFormed layout t) (below : virt / pageSize < windowPage) :
    t.windowRow layout virt = .ok (pdeOffset virt) := by
  have index := pdeOffset_lt below
  unfold Tables.windowRow
  rw [if_pos (well.there _ (by omega)), well.table _ index, rowAt_table (by omega)]

/-- A change of a page table keeps the directory. -/
theorem WellFormed.modifyEntry (well : WellFormed layout t) (row index : Nat)
    (change : UInt32 → UInt32) : WellFormed layout (t.modifyEntry row index change) :=
  ⟨well.there, well.table, well.window⟩

/-- The tables of i386 keep what the common part needs. -/
theorem mmu_models (layout : Layout) : (mmu layout).Models windowPage (WellFormed layout) view where
  limit_lt := by decide
  set_ok := by
    intro t phys virt opts well word below
    have index := pdeOffset_lt below
    refine ⟨t.modifyEntry (pdeOffset virt) (pteOffset virt) fun entry =>
      configure (setAddr (UInt32.ofNat phys) entry), ?_, well.modifyEntry _ _ _, ?_⟩
    · show t.setEntry layout phys virt = _
      unfold Tables.setEntry
      rw [if_neg (by omega), if_pos (well.there _ (by omega))]
      simp only [well.windowRow below, ok_bind]
    · rw [pdeOffset_eq]
      unfold pteOffset
      rw [view_modifyEntry, entryView_configure _ word]
  set_beyond := by
    intro t phys virt opts well beyond word
    have index : pdeOffset virt = 1023 := by
      unfold pdeOffset
      unfold windowPage pageSize at beyond
      unfold wordLimit at word
      omega
    refine ⟨.overwritten, ?_⟩
    show t.setEntry layout phys virt = _
    unfold Tables.setEntry
    rw [if_pos index]
  clear_ok := by
    intro t virt well below
    have index := pdeOffset_lt below
    refine ⟨t.modifyEntry (pdeOffset virt) (pteOffset virt) (unsetBit presentBit), ?_,
      well.modifyEntry _ _ _, ?_⟩
    · show t.clearEntry layout virt = _
      unfold Tables.clearEntry
      rw [if_neg (by omega), well.windowRow below]
      rfl
    · rw [pdeOffset_eq]
      unfold pteOffset
      rw [view_modifyEntry, entryView_unsetBit]

/-- Below the window the processor translates as the page tables say. -/
theorem WellFormed.translate_eq (well : WellFormed layout t) (below : virt / pageSize < windowPage) :
    t.translate layout virt =
      (view t (virt / pageSize)).map fun page => page * pageSize + pageOffset virt := by
  have index := pdeOffset_lt below
  unfold Tables.translate Tables.tableAt
  rw [if_pos (well.there _ (by omega)), well.table _ index, rowAt_table (by omega)]
  simp only
  unfold view entryView pteOffset
  rw [pdeOffset_eq]
  by_cases there : present (t.pageTables (virt / pageSize / 1024) (virt / pageSize % 1024)) = true
  · rw [if_pos there, if_pos there, Option.map_some, addr_page]
  · rw [if_neg there, if_neg there]
    rfl

/-- `virt_to_phys` finds the physical page of a mapped page. -/
theorem WellFormed.virtToPhys_eq (well : WellFormed layout t) (below : virt / pageSize < windowPage)
    {page : Nat} (shows : view t (virt / pageSize) = some page) :
    t.virtToPhys layout virt = .ok (page * pageSize) := by
  have index := pdeOffset_lt below
  unfold Tables.virtToPhys
  rw [if_neg (by omega), well.windowRow below, ok_bind, pdeOffset_eq]
  unfold view entryView at shows
  unfold pteOffset
  by_cases there : present (t.pageTables (virt / pageSize / 1024) (virt / pageSize % 1024)) = true
  · rw [if_pos there] at shows
    rw [← Option.some.inj shows, addr_page]
  · rw [if_neg there] at shows
    cases shows

/-- The window itself is where the directory says. -/
theorem WellFormed.translate_window {t' : Tables} (well : WellFormed layout t)
    (well' : WellFormed layout t') (window : pdeOffset virt = 1023) :
    t'.translate layout virt = t.translate layout virt := by
  have apart : Tables.rowAt layout layout.directory = none := by
    unfold Tables.rowAt
    apply if_neg
    have cases := layout.directory_apart
    unfold pageSize at *
    omega
  have index : pteOffset virt < 1024 := Nat.mod_lt _ (by decide)
  have address : ∀ {t : Tables}, WellFormed layout t → (addr (t.directory (pteOffset virt))).toNat =
      if pteOffset virt = 1023 then layout.directory
      else layout.tables + pteOffset virt * pageSize := by
    intro t well
    by_cases last : pteOffset virt = 1023
    · rw [if_pos last, last]
      exact well.window
    · rw [if_neg last]
      exact well.table _ (by omega)
  unfold Tables.translate Tables.tableAt
  rw [window, well.window, well'.window, apart, well.there 1023 (by decide),
    well'.there 1023 (by decide)]
  simp only [if_true]
  rw [well.there _ index, well'.there _ index, address well, address well']

/-- Two well-formed tables that show the same translate the same. -/
theorem translate_congr {t' : Tables} (well : WellFormed layout t) (well' : WellFormed layout t')
    (same : view t' (virt / pageSize) = view t (virt / pageSize)) (word : virt < wordLimit) :
    t'.translate layout virt = t.translate layout virt := by
  by_cases below : virt / pageSize < windowPage
  · rw [well.translate_eq below, well'.translate_eq below, same]
  · refine well.translate_window well' ?_
    unfold pdeOffset
    unfold windowPage pageSize at below
    unfold wordLimit at word
    omega

/-! ## Unmapping -/

/-- The second loop of `unmap_range` clears both copies. -/
theorem unmapPages_spec {s₀ s : Space Tables} {base count done : Nat}
    (before : Unmapped (WellFormed layout) view s₀ s base done)
    (all : ∀ i, base ≤ i → i < base + (done + count) → s₀.searchable i = true)
    (below : count = 0 ∨ base + (done + count) ≤ windowPage) :
    ∃ s', unmapPages layout base count done s ((base + done) * pageSize) = .ok s' ∧
      Unmapped (WellFormed layout) view s₀ s' base (done + count) := by
  have windowLt : windowPage < pageCount := by decide
  induction count generalizing s done with
  | zero => exact ⟨s, rfl, before⟩
  | succ count ih =>
    have mapped : s.isMapped ((base + done) * pageSize) = true := by
      unfold Space.isMapped
      rw [page_div, before.searchable, overlay_outside (Or.inr (Nat.le_refl _))]
      exact all _ (by omega) (by omega)
    obtain ⟨s₁, unmaps, well, marks, shows⟩ := unmapPage_mapped (mmu_models layout) before.good
      (by rw [page_div]; omega) mapped
    rw [page_div] at marks shows
    have next : Unmapped (WellFormed layout) view s₀ (s₁.mark (base + done) false) base
        (done + 1) := by
      refine before.succ well ?_ shows
      unfold Space.mark
      simp only [marks]
      exact Function.update_idem _ _ _
    obtain ⟨s', unmapped, done'⟩ := ih next (fun i first last => all i first (by omega)) (by omega)
    refine ⟨s', ?_, by rwa [Nat.add_right_comm, Nat.add_assoc] at done'⟩
    rw [unmapPages, unmaps, ok_bind]
    simp only
    rw [if_neg (by omega), pageIncr_page (by omega)]
    exact unmapped

/-- Inversion of a call of `unmap_range` that returned. -/
theorem unmapRange_inv (unmaps : unmapRange layout pmm s virt len opts = .ok (result, s')) :
    (result = .notMapped ∧ s' = s.acquireLock.releaseLock ∧
      s.space.allMapped (bytesToPages len) (pageFloor virt) = false) ∨
    (result = .invalidOption ∧ s' = s.acquireLock.releaseLock ∧
      s.space.allMapped (bytesToPages len) (pageFloor virt) = true ∧ opts.physAddrAuto = true) ∨
    (result = .success ∧ s.space.allMapped (bytesToPages len) (pageFloor virt) = true ∧
      unmapPages layout (virt / pageSize) (bytesToPages len) 0 s.space (pageFloor virt) =
        .ok s'.space ∧ s'.acquired = s.acquired + 1 ∧ s'.released = s.released + 1 ∧
      (opts.physAddrAuto = true → ∃ phys attempt, s.space.tables.virtToPhys layout virt = .ok phys ∧
        pmm.freeMemArea s.space phys len = .ok attempt ∧ attempt ≠ .invalid ∧ attempt ≠ .null)) := by
  rcases Vmm.unmapLocked_inv unmaps with unmapped | ⟨refused, left, all, auto, -⟩ | success
  · exact Or.inl unmapped
  · exact Or.inr (Or.inl ⟨refused, left, all, auto⟩)
  · exact Or.inr (Or.inr success)

/-- The pages of a range below the window. -/
theorem pages_below (below : virt + len ≤ windowPage * pageSize) :
    bytesToPages len = 0 ∨ virt / pageSize + bytesToPages len ≤ windowPage := by
  have small : len ≤ roundLimit := by
    unfold windowPage pageSize at below
    unfold roundLimit
    omega
  rcases range_pages_le below small with fits | empty
  · exact Or.inr fits
  · exact Or.inl (by rw [empty]; rfl)

/-- What a call of `unmap_range` below the window does. -/
theorem unmapRange_cases (well : WellFormed layout s.space.tables)
    (below : virt + len ≤ windowPage * pageSize)
    (unmaps : unmapRange layout pmm s virt len opts = .ok (result, s')) :
    (result ≠ .success ∧ s'.space = s.space) ∨
    (result = .success ∧
      Unmapped (WellFormed layout) view s.space s'.space (virt / pageSize) (bytesToPages len)) := by
  have pages := pages_below below
  rcases unmapRange_inv unmaps with
    ⟨rfl, rfl, -⟩ | ⟨rfl, rfl, -, -⟩ | ⟨rfl, all, clears, -, -, -⟩
  · exact Or.inl ⟨by decide, rfl⟩
  · exact Or.inl ⟨by decide, rfl⟩
  · have inside : virt / pageSize + bytesToPages len < pageCount := by
      rcases pages with none | fits
      · rw [none]
        unfold windowPage pageCount maxVirtMem pageSize at *
        omega
      · exact Nat.lt_of_le_of_lt fits (by decide)
    have mapped := (allMapped_iff inside).mp all
    have start : Unmapped (WellFormed layout) view s.space s.space (virt / pageSize) 0 :=
      Unmapped.start well
    obtain ⟨space, clears', unmapped⟩ := unmapPages_spec start
      (by rw [Nat.zero_add]; exact mapped) (by rw [Nat.zero_add]; exact pages)
    rw [Nat.zero_add] at unmapped
    have same : Except.ok s'.space = (Except.ok space : Except Fault _) := clears.symm.trans clears'
    cases same
    exact Or.inr ⟨rfl, unmapped⟩

/-- `unmap_range` unmaps a range of mapped pages, when the physical memory manager takes the memory
that it is asked to free. -/
theorem unmapRange_mapped (well : WellFormed layout s.space.tables)
    (pages : bytesToPages len = 0 ∨ virt / pageSize + bytesToPages len ≤ windowPage)
    (word : virt < wordLimit)
    (all : ∀ i, virt / pageSize ≤ i → i < virt / pageSize + bytesToPages len →
      s.space.searchable i = true)
    (taken : opts.physAddrAuto = true → ∃ phys, s.space.tables.virtToPhys layout virt = .ok phys ∧
      pmm.freeMemArea s.space phys len = .ok .success) :
    ∃ s', unmapRange layout pmm s virt len opts = .ok (.success, s') ∧
      Unmapped (WellFormed layout) view s.space s'.space (virt / pageSize) (bytesToPages len) := by
  have inside : virt / pageSize + bytesToPages len < pageCount := by
    have endLt : windowPage < pageCount := by decide
    unfold wordLimit at word
    unfold pageCount maxVirtMem pageSize at *
    omega
  have mapped : s.space.allMapped (bytesToPages len) (pageFloor virt) = true :=
    (allMapped_iff inside).mpr all
  have start : Unmapped (WellFormed layout) view s.space s.space (virt / pageSize) 0 :=
    Unmapped.start well
  obtain ⟨space, clears, unmapped⟩ := unmapPages_spec start (by rw [Nat.zero_add]; exact all)
    (by rw [Nat.zero_add]; exact pages)
  rw [Nat.zero_add] at unmapped
  have clears' : unmapPages layout (virt / pageSize) (bytesToPages len) 0 s.space (pageFloor virt) =
      .ok space := clears
  have same : s.acquireLock.space = s.space := rfl
  refine ⟨{ s.acquireLock with space := space }.releaseLock, ?_, unmapped⟩
  unfold unmapRange
  simp only [same, mapped, Bool.not_true, Bool.false_eq_true, if_false]
  cases auto : opts.physAddrAuto with
  | false =>
    simp only [Bool.false_eq_true, if_false, ok_bind, Bool.false_and, clears']
  | true =>
    obtain ⟨phys, walks, frees⟩ := taken auto
    have walks' : (mmu layout).virtToPhys s.space.tables virt = .ok phys := walks
    simp only [if_true, walks', ok_bind, frees, clears']
    rfl

/-! ## Setting up -/

/-- What the kernel loop of `setup_paging` keeps. -/
structure Booting (layout : Layout) (s : Space Tables) : Prop where
  /-- The directory is as the first loop left it. -/
  directory : s.tables.directory = initialDirectory layout
  /-- The two copies agree below the window. -/
  agrees : ∀ i < windowPage, s.searchable i = (view s.tables i).isSome

/-- The kernel loop keeps the two copies in agreement. -/
theorem mapKernel_booting {fuel page : Nat} {s s' : Space Tables} (booting : Booting layout s)
    (maps : mapKernel layout fuel s page = .ok s') : Booting layout s' := by
  induction fuel generalizing s page with
  | zero => simp [mapKernel] at maps
  | succ fuel ih =>
    rw [mapKernel] at maps
    by_cases inside : page ≤ layout.kernelEnd
    · rw [if_pos inside] at maps
      refine ih ⟨?_, ?_⟩ maps
      · exact booting.directory
      · intro i below
        have word : wrapSub page layout.vaOffset < wordLimit := wrap_lt _
        unfold Space.mark
        simp only
        rw [pdeOffset_eq]
        unfold pteOffset
        rw [view_modifyEntry, entryView_configure _ word, Function.update_apply,
          Function.update_apply]
        by_cases same : i = page / pageSize
        · rw [if_pos same, if_pos same]
          rfl
        · rw [if_neg same, if_neg same]
          exact booting.agrees i below
    · rw [if_neg inside] at maps
      cases maps
      exact booting

/-- The first entries of the page directory. -/
theorem initialDirectory_spec {i : Nat} (inside : i < 1024) :
    present (initialDirectory layout i) = true ∧
      (addr (initialDirectory layout i)).toNat = layout.tables + i * pageSize := by
  have bounded := layout.tables_bounded
  have word : layout.tables + i * pageSize < wordLimit := by
    unfold pageSize at *
    omega
  unfold initialDirectory
  rw [if_pos inside]
  constructor
  · exact present_setBit _
  · rw [addr_configureDirectory, addr_setAddr, addr_ofNat word]
    exact pageFloor_of_dvd (Nat.dvd_add layout.tables_aligned (Nat.dvd_mul_left _ _))

/-- The invariant of the page tables. -/
structure Sound (layout : Layout) (s : Space Tables) : Prop where
  /-- The two copies agree below the window. -/
  agrees : s.Agrees windowPage (WellFormed layout) view
  /-- The window is marked as used. -/
  window : ∀ i, windowPage ≤ i → i < pageCount → s.searchable i = true

/-- The directory after `setup_paging`. -/
theorem wellFormed_setup {t : Tables} (directory : t.directory = initialDirectory layout) :
    WellFormed layout (t.modifyDirectory 1023 fun entry =>
      configure (setAddr (UInt32.ofNat layout.directory) entry)) := by
  have bounded := layout.directory_bounded
  have word : layout.directory < wordLimit := by
    unfold pageSize at bounded
    omega
  refine ⟨?_, ?_, ?_⟩
  · intro i inside
    unfold Tables.modifyDirectory
    simp only [Function.update_apply, directory]
    split
    · exact present_setBit _
    · exact (initialDirectory_spec inside).1
  · intro i inside
    unfold Tables.modifyDirectory
    simp only [Function.update_apply, directory]
    rw [if_neg (by omega)]
    exact (initialDirectory_spec (by omega)).2
  · unfold Tables.modifyDirectory
    simp only [Function.update_self]
    rw [addr_configure, addr_setAddr, addr_ofNat word]
    exact pageFloor_of_dvd layout.directory_aligned

/-- The invariant after `setup_paging`. -/
theorem setupPaging_sound (returns : setupPaging layout = .ok s) : Sound layout s.space := by
  unfold setupPaging at returns
  obtain ⟨booted, kernel, returns⟩ := of_bind_ok returns
  have booting : Booting layout booted := by
    refine mapKernel_booting ⟨rfl, ?_⟩ kernel
    intro i below
    have blank : (entryView 0).isSome = false := by decide
    exact blank.symm
  obtain ⟨-, returns⟩ := assert_ok returns
  obtain ⟨-, returns⟩ := assert_ok returns
  cases returns
  refine ⟨⟨wellFormed_setup booting.directory, ?_⟩, ?_⟩
  · intro i below
    simp only
    rw [if_neg (by omega)]
    exact booting.agrees i below
  · intro i above inside
    simp only
    rw [if_pos ⟨above, inside⟩]

/-- The kernel loop marks the pages of the kernel. -/
theorem mapKernel_marks {fuel base : Nat} {s : Space Tables}
    (ordered : base ≤ layout.kernelEnd / pageSize + 1)
    (enough : layout.kernelEnd / pageSize + 1 < fuel + base) :
    ∃ s', mapKernel layout fuel s (base * pageSize) = .ok s' ∧ ∀ i, s'.searchable i =
      (s.searchable i || decide (base ≤ i ∧ i ≤ layout.kernelEnd / pageSize)) := by
  have below := layout.kernel_below
  induction fuel generalizing s base with
  | zero => omega
  | succ fuel ih =>
    rw [mapKernel]
    by_cases inside : base * pageSize ≤ layout.kernelEnd
    · have page : base ≤ layout.kernelEnd / pageSize := (Nat.le_div_iff_mul_le (by decide)).mpr inside
      have room : base + 1 < pageCount := by
        unfold windowPage pageSize at below
        unfold pageCount maxVirtMem pageSize
        unfold pageSize at inside
        omega
      rw [if_pos inside, page_div, pageIncr_page room]
      obtain ⟨s', maps, marks⟩ := @ih (base + 1) ({ s with tables := _ }.mark base true)
        (by omega) (by omega)
      refine ⟨s', maps, ?_⟩
      intro i
      rw [marks i]
      unfold Space.mark
      simp only [Function.update_apply]
      by_cases here : i = base
      · simp [here, page]
      · have same : (base + 1 ≤ i ∧ i ≤ layout.kernelEnd / pageSize) ↔
            (base ≤ i ∧ i ≤ layout.kernelEnd / pageSize) := by omega
        rw [if_neg here, decide_eq_decide.mpr same]
    · have page : ¬ base ≤ layout.kernelEnd / pageSize := by
        rwa [Nat.le_div_iff_mul_le (by decide)]
      rw [if_neg inside]
      refine ⟨s, rfl, ?_⟩
      intro i
      have outside : ¬ (base ≤ i ∧ i ≤ layout.kernelEnd / pageSize) := by omega
      simp [outside]

/-- `setup_paging` comes back with the pages of the kernel mapped. -/
theorem setupPaging_returns (layout : Layout) :
    ∃ s, setupPaging layout = .ok s ∧ ∀ i < windowPage, s.space.searchable i =
      decide (layout.kernelStart / pageSize ≤ i ∧ i ≤ layout.kernelEnd / pageSize) := by
  have order : layout.kernelStart / pageSize ≤ layout.kernelEnd / pageSize :=
    Nat.div_le_div_right layout.kernel_ordered
  have below : layout.kernelEnd / pageSize < windowPage :=
    (Nat.div_lt_iff_lt_mul (by decide)).mpr layout.kernel_below
  have windowLt : windowPage < pageCount := by decide
  obtain ⟨booted, maps, marks⟩ := @mapKernel_marks layout (pageCount + 2)
    (layout.kernelStart / pageSize) ⟨fun _ => false, ⟨initialDirectory layout, fun _ _ => 0⟩⟩
    (by omega) (Nat.lt_add_right _ (by omega))
  have maps' : mapKernel layout (pageCount + 2) ⟨fun _ => false, ⟨initialDirectory layout,
    fun _ _ => 0⟩⟩ (pageFloor layout.kernelStart) = .ok booted := maps
  have startMapped : booted.searchable (layout.kernelStart / pageSize) = true := by
    rw [marks]
    simp [order]
  have endMapped : booted.searchable (layout.kernelEnd / pageSize) = true := by
    rw [marks]
    simp [order]
  unfold setupPaging
  simp only [maps', ok_bind]
  unfold Space.isMapped
  simp only [startMapped, endMapped, ite_self, assert_true, ok_bind]
  refine ⟨_, rfl, ?_⟩
  intro i inside
  simp only
  rw [if_neg (by omega), marks]
  simp

/-! ## Reachable states -/

/-- A change that keeps the two copies in agreement keeps the invariant. -/
theorem Sound.kept {s s' : Space Tables} (sound : Sound layout s)
    (kept : s.Kept windowPage (WellFormed layout) view s') : Sound layout s' :=
  ⟨kept.agrees, fun i above inside => (kept.beyond i above).trans (sound.window i above inside)⟩

/-- Inversion of a call of `map_range` without a physical address that returned. -/
theorem mapRangeAny_inv {caller : Nat}
    (maps : mapRangeAny layout pmm s len caller opts = .ok (result, s')) :
    (s' = s.acquireLock.releaseLock ∧ s.space.findFreeVirtmem len = .ok none) ∨
    ∃ attempt phys space, pmm.getMemArea s.space len = .ok (attempt, phys, space) ∧
      s'.acquired = s.acquired + 1 ∧ s'.released = s.released + 1 ∧
      (s'.space = space ∨ space.internalMapRange (mmu layout) phys len caller opts =
        .ok (result, s'.space)) := by
  have same : s.acquireLock.space = s.space := rfl
  unfold mapRangeAny at maps
  simp only [same] at maps
  obtain ⟨answer, search, maps⟩ := of_bind_ok maps
  cases answer with
  | none =>
    simp only [Except.ok.injEq, Prod.mk.injEq] at maps
    exact Or.inl ⟨maps.2.symm, search⟩
  | some virt =>
    obtain ⟨⟨attempt, phys, space⟩, gets, maps⟩ := of_bind_ok maps
    simp only at maps
    by_cases out : attempt = .nomem
    · rw [if_pos out] at maps
      cases maps
      exact Or.inr ⟨attempt, phys, space, gets, rfl, rfl, Or.inl rfl⟩
    · rw [if_neg out] at maps
      obtain ⟨⟨outcome, mapped⟩, inner, last⟩ := of_bind_ok maps
      cases last
      exact Or.inr ⟨attempt, phys, space, gets, rfl, rfl, Or.inr inner⟩

/-- Every call keeps the two copies in agreement. -/
theorem Step.kept (sound : Sound layout s.space) (step : Step layout pmm s s') :
    s.space.Kept windowPage (WellFormed layout) view s'.space := by
  cases step with
  | map physWord lenWord returns =>
    exact mapRange_kept (mmu_models layout) sound.agrees physWord returns
  | mapAny lenWord callerWord honest returns =>
    rcases mapRangeAny_inv returns with ⟨rfl, -⟩ | ⟨attempt, phys, space, gets, -, -, rest⟩
    · exact Space.Kept.refl sound.agrees
    · obtain ⟨physWord, grows⟩ := honest attempt phys space gets
      have grown := grows.kept (mmu_models layout) sound.agrees
      rcases rest with rfl | inner
      · exact grown
      · exact grown.trans
          (internalMapRange_kept (mmu_models layout) grown.agrees physWord callerWord inner)
  | unmap below returns =>
    rcases unmapRange_cases sound.agrees.good below returns with ⟨-, same⟩ | ⟨-, unmapped⟩
    · rw [same]
      exact Space.Kept.refl sound.agrees
    · exact unmapped.kept sound.agrees (pages_below below)

/-- The invariant holds in every reachable state. -/
theorem Reachable.sound (reachable : Reachable layout s) : Sound layout s.space := by
  induction reachable with
  | setup returns => exact setupPaging_sound returns
  | step before step ih => exact ih.kept (step.kept ih)

/-- In every reachable state a page below the window is searchable exactly when the window leads
to its page table, its page table entry is present and so is its directory entry; the window
itself stays marked. -/
theorem searchable_iff_present (reachable : Reachable layout s) :
    (∀ v < windowPage * pageSize,
      s.space.tables.windowRow layout v = .ok (pdeOffset v) ∧
      (s.space.isMapped v = true ↔
        present (s.space.tables.pageTables (pdeOffset v) (pteOffset v)) = true ∧
        present (s.space.tables.directory (pdeOffset v)) = true)) ∧
    ∀ i, windowPage ≤ i → i < pageCount → s.space.searchable i = true := by
  have sound := reachable.sound
  refine ⟨?_, sound.window⟩
  intro v inside
  have below : v / pageSize < windowPage := (Nat.div_lt_iff_lt_mul (by decide)).mpr inside
  have index := pdeOffset_lt below
  refine ⟨sound.agrees.good.windowRow below, ?_⟩
  unfold Space.isMapped
  rw [sound.agrees.agrees _ below, sound.agrees.good.there _ (by omega)]
  unfold view entryView pteOffset
  rw [pdeOffset_eq]
  by_cases there : present (s.space.tables.pageTables (v / pageSize / 1024) (v / pageSize % 1024)) = true
  · simp [there]
  · simp [there]

/-- A kernel of a few megabytes in the upper half. -/
def exampleLayout : Layout where
  tables := 0x200000
  directory := 0x600000
  vaOffset := 0xf0000000
  kernelStart := 0xf0100000
  kernelEnd := 0xf0700000
  tables_aligned := by decide
  tables_bounded := by decide
  directory_aligned := by decide
  directory_bounded := by decide
  directory_apart := by decide
  kernel_ordered := by decide
  kernel_below := by decide

/-- The state after booting is such a state. -/
theorem searchable_iff_present_boot : ∃ s, Reachable exampleLayout s ∧
    s.space.isMapped exampleLayout.kernelStart = true ∧
    present (s.space.tables.pageTables 960 256) = true := by
  obtain ⟨s, setup, marks⟩ := setupPaging_returns exampleLayout
  have mapped : s.space.isMapped exampleLayout.kernelStart = true := by
    unfold Space.isMapped
    rw [marks _ (by decide)]
    decide
  have both := ((searchable_iff_present (.setup setup)).1 exampleLayout.kernelStart (by decide)).2
  exact ⟨s, .setup setup, mapped, (both.mp mapped).1⟩

/-! ## What `map_range` does -/

/-- The pages of a successful call cover its bytes. -/
theorem pagesFor_covers {base k : Nat} (bounded : phys + len < wordLimit) (positive : 0 < base)
    (below : pagesFor phys len = 0 ∨ base + pagesFor phys len ≤ windowPage) (inside : k < len) :
    ∃ i < pagesFor phys len, (base * pageSize + pageOffset phys + k) / pageSize = base + i ∧
      base + i < windowPage ∧ phys / pageSize + i < pageCount ∧
      (phys / pageSize + i) * pageSize + pageOffset (base * pageSize + pageOffset phys + k) =
        phys + k := by
  have windowLt : windowPage + 1 < pageCount := by decide
  rw [pagesFor_eq bounded (by omega)] at *
  refine ⟨(pageOffset phys + k) / pageSize, ?_⟩
  unfold pageOffset pageCount maxVirtMem windowPage pageSize at *
  unfold wordLimit at bounded
  omega

/-- What a successful call of `map_range` without `MAP_OVERWRITE` did: the address has the offset
of the physical one, its pages were free, each of its bytes is the byte of the physical range now,
and whatever was mapped is mapped to the same place. -/
theorem mapRange_post (reachable : Reachable layout s) (keeps : opts.overwrite = false)
    (bounded : phys + len < wordLimit)
    (maps : s.mapRange (mmu layout) phys len opts = .ok (.success, virt, s')) :
    pageOffset virt = pageOffset phys ∧
    (∀ k < len, s.space.isMapped (virt + k) = false ∧
      s.space.tables.translate layout (virt + k) = none) ∧
    (∀ k < len, s'.space.tables.translate layout (virt + k) = some (phys + k)) ∧
    ∀ v < wordLimit, ∀ p, s.space.tables.translate layout v = some p →
      s'.space.tables.translate layout v = some p := by
  have sound := reachable.sound
  have good := sound.agrees.good
  rcases mapRange_cases (mmu_models layout) sound.agrees keeps (by omega) maps with
    ⟨failed, -⟩ | ⟨-, base, positive, rfl, mapped⟩
  · exact absurd rfl failed
  · refine ⟨?_, ?_, ?_, ?_⟩
    · unfold pageOffset
      rw [Nat.mul_comm, Nat.mul_add_mod, Nat.mod_mod]
    · intro k inside
      obtain ⟨i, covered, page, below, -, -⟩ := pagesFor_covers bounded positive mapped.below inside
      have free := mapped.free (base + i) (by omega) (by omega)
      unfold Space.isMapped
      rw [good.translate_eq (by rw [page]; exact below), page, free.2]
      exact ⟨free.1, rfl⟩
    · intro k inside
      obtain ⟨i, covered, page, below, physInside, place⟩ :=
        pagesFor_covers bounded positive mapped.below inside
      rw [mapped.good.translate_eq (by rw [page]; exact below), page, mapped.view,
        overlay_inside (by omega) (by omega), Nat.add_sub_cancel_left, physPage_eq physInside,
        Option.map_some, place]
    · intro v word p was
      by_cases inside : base ≤ v / pageSize ∧ v / pageSize < base + pagesFor phys len
      · have below : v / pageSize < windowPage := by
          rcases mapped.below with none | fits
          · omega
          · omega
        rw [good.translate_eq below, (mapped.free _ inside.1 inside.2).2] at was
        cases was
      · rw [translate_congr good mapped.good _ word]
        · exact was
        · rw [mapped.view, overlay_outside (by omega)]

/-- A small range is mapped to the first pages after booting. -/
theorem setup_maps (setup : setupPaging exampleLayout = .ok s) (physWord : phys < wordLimit)
    (small : len + pageOffset phys ≤ roundLimit) (few : pagesFor phys len < 0xf0000) :
    ∃ s', s.mapRange (mmu exampleLayout) phys len MapOpts.none =
      .ok (.success, pageSize + pageOffset phys, s') := by
  have count : pageCount = 0x100000 := by decide
  obtain ⟨booted, again, marks⟩ := setupPaging_returns exampleLayout
  rw [setup] at again
  cases again
  refine mapRange_first (mmu_models exampleLayout) (setupPaging_sound setup).agrees physWord small
    (by unfold windowPage; omega) (by omega) ?_
  intro i first last
  have kernel : exampleLayout.kernelStart / pageSize = 0xf0100 := by decide
  rw [marks i (by unfold windowPage; omega), decide_eq_false_iff_not, kernel]
  omega

/-- A small range can be mapped after booting. -/
theorem exists_first_mapping (physWord : phys < wordLimit)
    (small : len + pageOffset phys ≤ roundLimit) (few : pagesFor phys len < 0xf0000) :
    ∃ s s', Reachable exampleLayout s ∧ s.mapRange (mmu exampleLayout) phys len MapOpts.none =
      .ok (.success, pageSize + pageOffset phys, s') := by
  obtain ⟨s, setup, -⟩ := setupPaging_returns exampleLayout
  obtain ⟨s', maps⟩ := setup_maps setup physWord small few
  exact ⟨s, s', .setup setup, maps⟩

/-- A byte pair that crosses a page is mapped so after booting. -/
theorem mapRange_post_boot : ∃ s s', Reachable exampleLayout s ∧
    s.mapRange (mmu exampleLayout) 0x1fff 2 MapOpts.none = .ok (.success, 0x1fff, s') ∧
    s'.space.tables.translate exampleLayout 0x2000 = some 0x2000 := by
  obtain ⟨s, s', reachable, maps⟩ :=
    exists_first_mapping (show 0x1fff < wordLimit by decide) (show 2 + _ ≤ _ by decide) (by decide)
  have post := mapRange_post reachable rfl (by decide) maps
  exact ⟨s, s', reachable, maps, post.2.2.1 1 (by decide)⟩

/-! ## Failed calls -/

/-- The same pages are mapped to the same places. -/
structure SameMapping (layout : Layout) (s s' : Vmm Tables) : Prop where
  /-- The searchable copy is the same. -/
  searchable : s'.space.searchable = s.space.searchable
  /-- The processor finds the same. -/
  translate : ∀ v < wordLimit,
    s'.space.tables.translate layout v = s.space.tables.translate layout v

/-- A call of `map_range` or `unmap_range` that fails in a reachable state leaves every mapping as
it was, whatever its arguments and options. -/
theorem failed_call_keeps_mapping (reachable : Reachable layout s) :
    (∀ phys len opts result virt s', phys < wordLimit → len < wordLimit →
      s.mapRange (mmu layout) phys len opts = .ok (result, virt, s') → result ≠ .success →
      SameMapping layout s s') ∧
    ∀ pmm virt len opts result s', virt + len ≤ windowPage * pageSize →
      unmapRange layout pmm s virt len opts = .ok (result, s') → result ≠ .success →
      SameMapping layout s s' := by
  have sound := reachable.sound
  constructor
  · intro phys len opts result virt s' physWord lenWord maps failed
    have same := mapRange_failed (mmu_models layout) sound.agrees physWord maps failed
    refine ⟨same.searchable, ?_⟩
    intro v word
    exact translate_congr sound.agrees.good same.good (by rw [same.view]) word
  · intro pmm virt len opts result s' below unmaps failed
    rcases unmapRange_cases sound.agrees.good below unmaps with ⟨-, same⟩ | ⟨success, -⟩
    · exact ⟨by rw [same], fun v word => by rw [same]⟩
    · exact absurd success failed

/-- All of the address space but its first page: the search finds it free, because the last page
it would need is cut to zero, and the mapping stops at the kernel and is rolled back. -/
theorem failed_call_keeps_mapping_boot : ∃ s s' result, Reachable exampleLayout s ∧
    s.mapRange (mmu exampleLayout) 0 0xfffff000 MapOpts.none = .ok (result, pageSize, s') ∧
    result ≠ .success ∧ SameMapping exampleLayout s s' := by
  obtain ⟨s, setup, marks⟩ := setupPaging_returns exampleLayout
  have reachable : Reachable exampleLayout s := .setup setup
  have sound := reachable.sound
  obtain ⟨result, virt, s', maps⟩ : ∃ result virt s',
      s.mapRange (mmu exampleLayout) 0 0xfffff000 MapOpts.none = .ok (result, virt, s') :=
    mapRange_returns (mmu_models exampleLayout) (by decide) sound.agrees sound.window rfl (by decide)
  have failed : result ≠ .success := by
    rintro rfl
    rcases mapRange_cases (mmu_models exampleLayout) sound.agrees rfl (by decide) maps with
      ⟨failed, -⟩ | ⟨-, base, positive, -, mapped⟩
    · exact failed rfl
    · have pages : pagesFor 0 0xfffff000 = 0xfffff := by decide
      have below := mapped.below
      rw [pages] at below
      unfold windowPage at below
      omega
  have found : s.space.findFreeVirtmem (wrap (0xfffff000 + pageOffset 0)) = .ok (some pageSize) :=
    rfl
  have first : virt = pageSize := by
    rcases mapRange_inv maps with ⟨-, -, -, search⟩ | ⟨base, -, -, rfl, search, -, -, -⟩
    · rw [found] at search
      cases search
    · rw [found] at search
      simp only [Except.ok.injEq, Option.some.injEq] at search
      rw [← search]
      rfl
  subst first
  exact ⟨s, s', result, reachable, maps, failed,
    (failed_call_keeps_mapping reachable).1 _ _ _ _ _ _ (by decide) (by decide) maps failed⟩

end FelineOS.Paging.I386
