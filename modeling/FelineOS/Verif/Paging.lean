import FelineOS.Kernel.Paging
import FelineOS.Library.Overlay
import Mathlib.Logic.Function.Iterate

/-!
# Mapping a range of pages

What holds of the virtual memory manager on both architectures, from what the tables promise
(`Mmu.Models`): every page below a limit can be set and cleared, as `view` shows. A range is
mapped page by page (`Mapped` grows), and a page that is taken makes the rollback undo exactly
the pages of this call (`rollback_spec`), so `mapPages_spec` knows two outcomes only.
-/

namespace FelineOS.Paging

open Library

variable {τ : Type} {mmu : Mmu τ} {limit : Nat} {good : τ → Prop} {view : τ → Nat → Option Nat}
  {s s₀ s' : Space τ} {base count phys virt bound fuel len : Nat} {opts : MapOpts}

/-- What the tables of an architecture promise: `view` shows the physical page behind each
virtual page below `limit`. -/
structure Mmu.Models (mmu : Mmu τ) (limit : Nat) (good : τ → Prop)
    (view : τ → Nat → Option Nat) : Prop where
  /-- The pages end before the address space. -/
  limit_lt : limit < pageCount
  /-- A page can be set. -/
  set_ok : ∀ {t phys virt opts}, good t → phys < wordLimit → virt / pageSize < limit →
    ∃ t', mmu.setEntry t phys virt opts = .ok t' ∧ good t' ∧
      view t' = Function.update (view t) (virt / pageSize) (some (phys / pageSize))
  /-- No other page can be set. -/
  set_beyond : ∀ {t phys virt opts}, good t → limit ≤ virt / pageSize → virt < wordLimit →
    ∃ fault, mmu.setEntry t phys virt opts = .error fault
  /-- A page can be cleared. -/
  clear_ok : ∀ {t virt}, good t → virt / pageSize < limit →
    ∃ t', mmu.clearEntry t virt = .ok t' ∧ good t' ∧
      view t' = Function.update (view t) (virt / pageSize) none

/-- The two copies of the mapping state agree. -/
structure Space.Agrees (limit : Nat) (good : τ → Prop) (view : τ → Nat → Option Nat)
    (s : Space τ) : Prop where
  /-- The tables are well formed. -/
  good : good s.tables
  /-- A page is searchable exactly when it is mapped. -/
  agrees : ∀ i < limit, s.searchable i = (view s.tables i).isSome

/-- Two states map the same pages to the same places. -/
structure Space.SameMap (good : τ → Prop) (view : τ → Nat → Option Nat) (s s' : Space τ) : Prop where
  /-- The tables are well formed. -/
  good : good s'.tables
  /-- The searchable copy is the same. -/
  searchable : s'.searchable = s.searchable
  /-- The processor's copy shows the same. -/
  view : view s'.tables = view s.tables

/-! ## Page arithmetic -/

/-- The next page below the end of the address space. -/
theorem pageIncr_page {i : Nat} (small : i + 1 < pageCount) :
    pageIncr (i * pageSize) = (i + 1) * pageSize := by
  unfold pageIncr
  unfold pageCount maxVirtMem pageSize at *
  unfold uintptrMax
  rw [if_pos (by omega)]
  omega

/-- The page before. -/
theorem pageDecr_page (i : Nat) : pageDecr ((i + 1) * pageSize) = i * pageSize := by
  unfold pageDecr pageSize
  rw [if_pos (by omega)]
  omega

/-- The offset in a page. -/
theorem pageOffset_lt (addr : Nat) : pageOffset addr < pageSize := Nat.mod_lt _ (by decide)

/-- The number of a page. -/
theorem page_div (i : Nat) : i * pageSize / pageSize = i := Nat.mul_div_cancel i (by decide)

/-- The next page is a word. -/
theorem pageIncr_lt {addr : Nat} (word : addr < wordLimit) : pageIncr addr < wordLimit := by
  unfold pageIncr
  unfold pageSize uintptrMax wordLimit at *
  split <;> omega

/-- A page of the address space starts at a word. -/
theorem page_lt {i : Nat} (inside : i < pageCount) : i * pageSize < wordLimit := by
  unfold pageCount maxVirtMem pageSize at *
  unfold wordLimit
  omega

/-- The pages of a length that can be rounded. -/
theorem bytesToPages_eq {bytes : Nat} (small : bytes ≤ roundLimit) :
    bytesToPages bytes = (bytes + (pageSize - 1)) / pageSize := by
  unfold bytesToPages
  unfold roundLimit at small
  unfold uintptrMax pageSize
  rw [if_neg (by omega)]

/-- The pages of a range that ends at a page boundary end there. -/
theorem range_pages_le {virt len last : Nat} (below : virt + len ≤ last * pageSize)
    (small : len ≤ roundLimit) : virt / pageSize + bytesToPages len ≤ last ∨ len = 0 := by
  rw [bytesToPages_eq small]
  unfold pageSize at *
  omega

/-! ## One page -/

/-- Mapping a free page, or finding it taken. -/
theorem mapPage_cases (models : mmu.Models limit good view) (well : good s.tables)
    (keeps : opts.overwrite = false) (physWord : phys < wordLimit) (virtWord : virt < wordLimit)
    {result : MapResults} (maps : s.mapPage mmu phys virt opts = .ok (result, s')) :
    (result = .alreadyMapped ∧ s' = s ∧ s.isMapped virt = true) ∨
    (result = .success ∧ s.isMapped virt = false ∧ virt / pageSize < limit ∧ good s'.tables ∧
      s'.searchable = Function.update s.searchable (virt / pageSize) true ∧
      view s'.tables = Function.update (view s.tables) (virt / pageSize) (some (phys / pageSize))) := by
  unfold Space.mapPage at maps
  cases mapped : s.isMapped virt with
  | true =>
    rw [mapped, keeps] at maps
    simp only [Bool.not_false, Bool.and_self, if_true, Except.ok.injEq, Prod.mk.injEq] at maps
    exact Or.inl ⟨maps.1.symm, maps.2.symm, rfl⟩
  | false =>
    rw [mapped] at maps
    simp only [Bool.and_false, Bool.false_eq_true, if_false] at maps
    by_cases below : virt / pageSize < limit
    · obtain ⟨t', sets, well', shows⟩ : ∃ t', mmu.setEntry s.tables phys virt opts = .ok t' ∧ _ :=
        models.set_ok well physWord below
      rw [sets, ok_bind] at maps
      simp only [Except.ok.injEq, Prod.mk.injEq] at maps
      obtain ⟨rfl, rfl⟩ := maps
      exact Or.inr ⟨rfl, rfl, below, well', rfl, shows⟩
    · obtain ⟨fault, fails⟩ : ∃ fault, mmu.setEntry s.tables phys virt opts = .error fault :=
        models.set_beyond well (Nat.le_of_not_lt below) virtWord
      rw [fails, error_bind] at maps
      cases maps

/-- Unmapping a mapped page. -/
theorem unmapPage_mapped (models : mmu.Models limit good view) (well : good s.tables)
    (below : virt / pageSize < limit) (mapped : s.isMapped virt = true) :
    ∃ s', s.unmapPage mmu virt = .ok (.success, s') ∧ good s'.tables ∧
      s'.searchable = Function.update s.searchable (virt / pageSize) false ∧
      view s'.tables = Function.update (view s.tables) (virt / pageSize) none := by
  obtain ⟨t', clears, well', shows⟩ := models.clear_ok well below
  unfold Space.unmapPage
  rw [if_pos mapped, clears]
  exact ⟨_, rfl, well', rfl, shows⟩

/-! ## Pages mapped so far -/

/-- The first `count` pages from `base` on were free and are mapped now, the `i`-th to `g i`. -/
structure Mapped (limit : Nat) (good : τ → Prop) (view : τ → Nat → Option Nat) (s₀ s : Space τ)
    (base count : Nat) (g : Nat → Nat) : Prop where
  /-- The tables are well formed. -/
  good : good s.tables
  /-- The pages are below the limit. -/
  below : count = 0 ∨ base + count ≤ limit
  /-- The pages were free. -/
  free : ∀ i, base ≤ i → i < base + count → s₀.searchable i = false ∧ view s₀.tables i = none
  /-- They are marked now. -/
  searchable : s.searchable = overlay s₀.searchable base count fun _ => true
  /-- They are in the tables now. -/
  view : view s.tables = overlay (view s₀.tables) base count fun i => some (g i)

/-- Nothing is mapped at first. -/
theorem Mapped.start (well : good s.tables) (g : Nat → Nat) :
    Mapped limit good view s s base 0 g :=
  ⟨well, Or.inl rfl, fun i first last => absurd first (by omega), overlay_zero.symm,
    overlay_zero.symm⟩

/-- One more page is mapped. -/
theorem Mapped.succ {g : Nat → Nat} (agrees : s₀.Agrees limit good view)
    (mapped : Mapped limit good view s₀ s base count g) (well : good s'.tables)
    (below : base + count < limit) (unmapped : s.searchable (base + count) = false)
    (marks : s'.searchable = Function.update s.searchable (base + count) true)
    (shows : view s'.tables = Function.update (view s.tables) (base + count) (some (g count))) :
    Mapped limit good view s₀ s' base (count + 1) g := by
  refine ⟨well, Or.inr (by omega), ?_, ?_, ?_⟩
  · intro i first last
    by_cases inside : i < base + count
    · exact mapped.free i first inside
    · obtain rfl : i = base + count := by omega
      rw [mapped.searchable, overlay_outside (Or.inr (Nat.le_refl _))] at unmapped
      have absent := agrees.agrees (base + count) below
      rw [unmapped] at absent
      exact ⟨unmapped, Option.not_isSome_iff_eq_none.mp (by simp [← absent])⟩
  · rw [marks, mapped.searchable]
    exact overlay_succ
  · rw [shows, mapped.view]
    exact overlay_succ (g := fun i => some (g i))

/-- The rollback undoes exactly the pages mapped so far. -/
theorem rollback_spec {g : Nat → Nat} (models : mmu.Models limit good view)
    (mapped : Mapped limit good view s₀ s base count g) (start : pageFloor bound = base * pageSize)
    (enough : count < fuel) :
    ∃ s', Space.rollback mmu bound fuel s ((base + count) * pageSize) = .ok s' ∧
      s₀.SameMap good view s' := by
  have low := pageFloor_le bound
  have high := lt_pageFloor_add bound
  rw [start] at low high
  induction count generalizing s fuel with
  | zero =>
    obtain ⟨fuel, rfl⟩ : ∃ more, fuel = more + 1 := ⟨fuel - 1, by omega⟩
    rw [Space.rollback, if_neg (by rw [Nat.add_zero]; omega)]
    exact ⟨s, rfl, mapped.good, by simpa using mapped.searchable, by simpa using mapped.view⟩
  | succ count ih =>
    obtain ⟨fuel, rfl⟩ : ∃ more, fuel = more + 1 := ⟨fuel - 1, by omega⟩
    have below : base + count < limit := by
      rcases mapped.below with none | fits
      · omega
      · omega
    have isMapped : s.isMapped ((base + count) * pageSize) = true := by
      unfold Space.isMapped
      rw [page_div, mapped.searchable, overlay_inside (by omega) (by omega)]
    obtain ⟨s₁, unmaps, well, marks, shows⟩ :=
      unmapPage_mapped models mapped.good (by rw [page_div]; exact below) isMapped
    rw [page_div] at marks shows
    have wasFree := mapped.free (base + count) (by omega) (by omega)
    have undone : Mapped limit good view s₀ s₁ base count g := by
      refine ⟨well, Or.inr (by omega), fun i first last => mapped.free i first (by omega), ?_, ?_⟩
      · rw [marks, mapped.searchable, ← wasFree.1]
        exact overlay_undo
      · rw [shows, mapped.view, ← wasFree.2]
        exact overlay_undo
    have above : (base + (count + 1)) * pageSize > bound := by
      unfold pageSize at *
      omega
    rw [Space.rollback, if_pos above, ← Nat.add_assoc, pageDecr_page, unmaps, ok_bind]
    exact ih undone (by omega)

/-! ## A range of pages -/

/-- The physical page behind the `i`-th page of a range. -/
def physPage (phys i : Nat) : Nat := pageIncr^[i] (pageFloor phys) / pageSize

/-- The physical pages of a range are words. -/
theorem iterate_lt (word : phys < wordLimit) (i : Nat) :
    pageIncr^[i] (pageFloor phys) < wordLimit := by
  induction i with
  | zero => exact Nat.lt_of_le_of_lt (pageFloor_le phys) word
  | succ i ih =>
    rw [Function.iterate_succ_apply']
    exact pageIncr_lt ih

/-- The physical pages of a range follow each other up to the end of the address space. -/
theorem physPage_eq {i : Nat} (inside : phys / pageSize + i < pageCount) :
    physPage phys i = phys / pageSize + i := by
  have place : pageIncr^[i] (pageFloor phys) = (phys / pageSize + i) * pageSize := by
    induction i with
    | zero => rfl
    | succ i ih =>
      rw [Function.iterate_succ_apply', ih (by omega), pageIncr_page (by omega), Nat.add_assoc]
  unfold physPage
  rw [place, page_div]

/-- The loop maps all the pages, or finds one taken and undoes the others. -/
theorem mapPages_spec (models : mmu.Models limit good view) (agrees : s₀.Agrees limit good view)
    (keeps : opts.overwrite = false) (start : pageFloor bound = base * pageSize)
    (inside : base < pageCount) (physWord : phys < wordLimit) {mapped : Nat}
    (before : Mapped limit good view s₀ s base mapped (physPage phys)) {result : MapResults}
    (maps : Space.mapPages mmu bound opts count s ((base + mapped) * pageSize)
      (pageIncr^[mapped] (pageFloor phys)) = .ok (result, s')) :
    (result = .success ∧ Mapped limit good view s₀ s' base (mapped + count) (physPage phys)) ∨
    (result = .alreadyMapped ∧ s₀.SameMap good view s') := by
  have limitLt := models.limit_lt
  induction count generalizing s mapped with
  | zero =>
    rw [Space.mapPages] at maps
    simp only [Except.ok.injEq, Prod.mk.injEq] at maps
    obtain ⟨rfl, rfl⟩ := maps
    exact Or.inl ⟨rfl, before⟩
  | succ count ih =>
    rw [Space.mapPages] at maps
    obtain ⟨⟨outcome, s₁⟩, attempt, continues⟩ := of_bind_ok maps
    have nextWord : (base + mapped) * pageSize < wordLimit := by
      apply page_lt
      rcases before.below with none | fits
      · omega
      · omega
    rcases mapPage_cases models before.good keeps (iterate_lt physWord mapped) nextWord attempt with
      ⟨rfl, rfl, taken⟩ | ⟨rfl, free, below, well, marks, shows⟩
    · -- The page is taken: the pages of this call are unmapped again.
      have enough : mapped < pageCount + 2 := by
        rcases before.below with none | fits
        · omega
        · omega
      obtain ⟨s₂, undoes, same⟩ := rollback_spec models before start enough
      simp only [reduceCtorEq, if_false, undoes, ok_bind, Except.ok.injEq, Prod.mk.injEq]
        at continues
      obtain ⟨rfl, rfl⟩ := continues
      exact Or.inr ⟨rfl, same⟩
    · rw [page_div] at below marks shows
      unfold Space.isMapped at free
      rw [page_div] at free
      have grown := before.succ agrees well below free marks shows
      simp only [if_true] at continues
      rw [pageIncr_page (by omega), Nat.add_assoc,
        ← Function.iterate_succ_apply' pageIncr mapped (pageFloor phys)] at continues
      have further := ih grown continues
      rwa [Nat.add_right_comm, Nat.add_assoc] at further

/-- The loop with `MAP_OVERWRITE` has no failure to report. -/
theorem mapPages_overwrite (overwrites : opts.overwrite = true) {result : MapResults}
    (maps : Space.mapPages mmu bound opts count s virt phys = .ok (result, s')) :
    result = .success := by
  induction count generalizing s virt phys with
  | zero =>
    rw [Space.mapPages] at maps
    simp only [Except.ok.injEq, Prod.mk.injEq] at maps
    exact maps.1.symm
  | succ count ih =>
    rw [Space.mapPages] at maps
    unfold Space.mapPage at maps
    rw [overwrites] at maps
    simp only [Bool.not_true, Bool.false_and, Bool.false_eq_true, if_false] at maps
    obtain ⟨⟨outcome, space⟩, sets, continues⟩ := of_bind_ok maps
    obtain ⟨tables, -, done⟩ := of_bind_ok sets
    cases done
    exact ih continues

/-! ## The search -/

/-- The answers of `free_from_here`. -/
theorem freeFromHere_cases {needed next : Nat} {free : Bool}
    (answers : s.freeFromHere base needed = .ok (free, next)) :
    (free = false ∧ next = 0) ∨ (free = true ∧ next = base ∧
      s.firstMapped (lastPageNeeded base needed) (pageCount + 2) base = .ok none) ∨
    ∃ blocked, free = false ∧ next = pageFloor blocked := by
  unfold Space.freeFromHere at answers
  split at answers
  · simp only [Except.ok.injEq, Prod.mk.injEq] at answers
    exact Or.inl ⟨answers.1.symm, answers.2.symm⟩
  · obtain ⟨found, search, answers⟩ := of_bind_ok answers
    cases found with
    | none =>
      simp only [Except.ok.injEq, Prod.mk.injEq] at answers
      exact Or.inr (Or.inl ⟨answers.1.symm, answers.2.symm, search⟩)
    | some blocked =>
      simp only [Except.ok.injEq, Prod.mk.injEq] at answers
      exact Or.inr (Or.inr ⟨blocked, answers.1.symm, answers.2.symm⟩)

/-- The loop over the address space only answers with pages that `free_from_here` accepts. -/
theorem findFrom_page {found : Nat} (aligned : pageSize ∣ base ∨ maxVirtMem - pageSize ≤ base)
    (finds : s.findFrom len fuel base = .ok (some found)) :
    ∃ page, found = page * pageSize ∧ 0 < page ∧ page + 1 < pageCount ∧
      s.freeFromHere found len = .ok (true, found) := by
  induction fuel generalizing base with
  | zero => simp [Space.findFrom] at finds
  | succ fuel ih =>
    rw [Space.findFrom] at finds
    by_cases inside : base < maxVirtMem - pageSize ∧ base ≠ 0
    · rw [if_pos inside] at finds
      obtain ⟨⟨free, next⟩, tried, continues⟩ := of_bind_ok finds
      rcases freeFromHere_cases tried with ⟨rfl, rfl⟩ | ⟨rfl, rfl, -⟩ | ⟨blocked, rfl, rfl⟩
      · simp at continues
      · simp only [if_true, Except.ok.injEq, Option.some.injEq] at continues
        subst continues
        obtain ⟨page, rfl⟩ : pageSize ∣ next := aligned.resolve_right (by omega)
        refine ⟨page, Nat.mul_comm _ _, ?_, ?_, tried⟩
        · exact Nat.pos_of_ne_zero fun zero => inside.2 (by rw [zero, Nat.mul_zero])
        · unfold pageCount maxVirtMem pageSize at *
          omega
      · simp only [Bool.false_eq_true, if_false] at continues
        by_cases null : pageFloor blocked = 0
        · rw [if_pos null] at continues
          cases continues
        · rw [if_neg null] at continues
          refine ih ?_ continues
          unfold pageIncr
          split
          · exact Or.inl (Nat.dvd_add (pageSize_dvd_pageFloor _) (Nat.dvd_refl _))
          · exact Or.inr (by decide)
    · rw [if_neg inside] at finds
      cases finds

/-- `find_free_virtmem` only answers with pages that `free_from_here` accepts. -/
theorem findFreeVirtmem_page {found : Nat} (finds : s.findFreeVirtmem len = .ok (some found)) :
    ∃ page, found = page * pageSize ∧ 0 < page ∧ page + 1 < pageCount ∧
      s.freeFromHere found len = .ok (true, found) :=
  findFrom_page (Or.inl (Nat.dvd_refl _)) finds

/-! ## `map_range` -/

/-- The number of pages that `map_range` maps. -/
def pagesFor (phys len : Nat) : Nat := bytesToPages (wrap (len + pageOffset phys))

/-- The pages of a range that ends before the address space does. -/
theorem pagesFor_eq (bounded : phys + len < wordLimit) (small : pagesFor phys len + 1 < pageCount) :
    pagesFor phys len = (len + pageOffset phys + (pageSize - 1)) / pageSize := by
  have offset : pageOffset phys ≤ phys := Nat.mod_le _ _
  unfold pagesFor bytesToPages at *
  rw [wrap_of_lt (by omega)] at *
  apply if_neg
  intro large
  rw [if_pos large] at small
  exact absurd small (by decide)

/-- `internal_map_range` without `MAP_OVERWRITE`. -/
theorem internalMapRange_cases (models : mmu.Models limit good view)
    (agrees : s.Agrees limit good view) (keeps : opts.overwrite = false)
    (physWord : phys < wordLimit) (virtWord : virt < wordLimit) {result : MapResults}
    (maps : s.internalMapRange mmu phys len virt opts = .ok (result, s')) :
    (result = .success ∧
      Mapped limit good view s s' (virt / pageSize) (bytesToPages len) (physPage phys)) ∨
    (result ≠ .success ∧ s.SameMap good view s') := by
  have inside : virt / pageSize < pageCount := by
    unfold wordLimit at virtWord
    unfold pageCount maxVirtMem pageSize
    omega
  unfold Space.internalMapRange at maps
  by_cases aligned : pageOffset phys = pageOffset virt
  · rw [if_neg (by simp [aligned]), keeps] at maps
    simp only [Bool.false_eq_true, if_false] at maps
    obtain ⟨⟨free, next⟩, -, continues⟩ := of_bind_ok maps
    cases free with
    | true =>
      have start : Mapped limit good view s s (virt / pageSize) 0 (physPage phys) :=
        Mapped.start agrees.good _
      rcases mapPages_spec models agrees keeps rfl inside physWord start continues with
        ⟨rfl, mapped⟩ | ⟨rfl, same⟩
      · rw [Nat.zero_add] at mapped
        exact Or.inl ⟨rfl, mapped⟩
      · exact Or.inr ⟨by decide, same⟩
    | false =>
      cases continues
      exact Or.inr ⟨by decide, agrees.good, rfl, rfl⟩
  · rw [if_pos aligned] at maps
    simp only [Except.ok.injEq, Prod.mk.injEq] at maps
    obtain ⟨rfl, rfl⟩ := maps
    exact Or.inr ⟨by decide, agrees.good, rfl, rfl⟩

/-- Inversion of a call of `map_range` that returned. -/
theorem mapRange_inv {v v' : Vmm τ} {result : MapResults} {found : Nat}
    (maps : v.mapRange mmu phys len opts = .ok (result, found, v')) :
    (result = .noVirtmem ∧ found = 0 ∧ v' = v.acquireLock ∧
      v.space.findFreeVirtmem (wrap (len + pageOffset phys)) = .ok none) ∨
    ∃ base, 0 < base ∧ base < pageCount ∧ found = base * pageSize + pageOffset phys ∧
      v.space.findFreeVirtmem (wrap (len + pageOffset phys)) = .ok (some (base * pageSize)) ∧
      v.space.internalMapRange mmu phys (wrap (len + pageOffset phys)) found opts =
        .ok (result, v'.space) ∧ v'.acquired = v.acquired + 1 ∧ v'.released = v.released + 1 := by
  unfold Vmm.mapRange at maps
  have same : v.acquireLock.space = v.space := rfl
  simp only [same] at maps
  obtain ⟨answer, search, maps⟩ := of_bind_ok maps
  cases answer with
  | none =>
    simp only [Except.ok.injEq, Prod.mk.injEq] at maps
    exact Or.inl ⟨maps.1.symm, maps.2.1.symm, maps.2.2.symm, search⟩
  | some virt =>
    obtain ⟨base, rfl, positive, inside, -⟩ := findFreeVirtmem_page search
    simp only at maps
    obtain ⟨⟨outcome, space⟩, inner, maps⟩ := of_bind_ok maps
    simp only [Except.ok.injEq, Prod.mk.injEq] at maps
    obtain ⟨rfl, rfl, rfl⟩ := maps
    exact Or.inr ⟨base, positive, Nat.lt_of_succ_lt inside, rfl, search, inner, rfl, rfl⟩

/-- The address that `map_range` answers with. -/
theorem found_word {page offset : Nat} (inside : page < pageCount) (small : offset < pageSize) :
    page * pageSize + offset < wordLimit ∧ (page * pageSize + offset) / pageSize = page := by
  unfold pageCount maxVirtMem at inside
  unfold pageSize at *
  unfold wordLimit
  omega

/-- What a call of `map_range` without `MAP_OVERWRITE` does. -/
theorem mapRange_cases (models : mmu.Models limit good view) {v v' : Vmm τ}
    (agrees : v.space.Agrees limit good view) (keeps : opts.overwrite = false)
    (physWord : phys < wordLimit) {result : MapResults} {found : Nat}
    (maps : v.mapRange mmu phys len opts = .ok (result, found, v')) :
    (result ≠ .success ∧ v.space.SameMap good view v'.space) ∨
    (result = .success ∧ ∃ base, 0 < base ∧ found = base * pageSize + pageOffset phys ∧
      Mapped limit good view v.space v'.space base (pagesFor phys len) (physPage phys)) := by
  rcases mapRange_inv maps with ⟨rfl, -, rfl, -⟩ | ⟨base, positive, inside, rfl, -, inner, -, -⟩
  · exact Or.inl ⟨by decide, agrees.good, rfl, rfl⟩
  · have found := found_word inside (pageOffset_lt phys)
    rcases internalMapRange_cases models agrees keeps physWord found.1 inner with
      ⟨rfl, mapped⟩ | ⟨failed, same⟩
    · rw [found.2] at mapped
      exact Or.inr ⟨rfl, base, positive, rfl, mapped⟩
    · exact Or.inl ⟨failed, same⟩

/-- A failed call of `map_range` changes nothing, whatever its options. -/
theorem mapRange_failed (models : mmu.Models limit good view) {v v' : Vmm τ}
    (agrees : v.space.Agrees limit good view) (physWord : phys < wordLimit) {result : MapResults}
    {found : Nat} (maps : v.mapRange mmu phys len opts = .ok (result, found, v'))
    (failed : result ≠ .success) : v.space.SameMap good view v'.space := by
  cases overwrites : opts.overwrite with
  | false =>
    rcases mapRange_cases models agrees overwrites physWord maps with ⟨-, same⟩ | ⟨success, -⟩
    · exact same
    · exact absurd success failed
  | true =>
    rcases mapRange_inv maps with ⟨-, -, rfl, -⟩ | ⟨base, -, -, rfl, -, inner, -, -⟩
    · exact ⟨agrees.good, rfl, rfl⟩
    · unfold Space.internalMapRange at inner
      by_cases aligned : pageOffset phys ≠ pageOffset (base * pageSize + pageOffset phys)
      · rw [if_pos aligned] at inner
        simp only [Except.ok.injEq, Prod.mk.injEq] at inner
        rw [← inner.2]
        exact ⟨agrees.good, rfl, rfl⟩
      · rw [if_neg aligned, overwrites] at inner
        simp only [if_true, ok_bind] at inner
        exact absurd (mapPages_overwrite overwrites inner) failed

/-! ## What every call keeps -/

/-- The two copies still agree, and no page from `limit` on was marked or unmarked. -/
structure Space.Kept (limit : Nat) (good : τ → Prop) (view : τ → Nat → Option Nat)
    (s s' : Space τ) : Prop where
  /-- The two copies agree. -/
  agrees : s'.Agrees limit good view
  /-- The other pages are as before. -/
  beyond : ∀ i, limit ≤ i → s'.searchable i = s.searchable i

/-- Nothing changed. -/
theorem Space.Kept.refl (agrees : s.Agrees limit good view) : s.Kept limit good view s :=
  ⟨agrees, fun _ _ => rfl⟩

/-- Two changes after each other. -/
theorem Space.Kept.trans (first : s₀.Kept limit good view s) (second : s.Kept limit good view s') :
    s₀.Kept limit good view s' :=
  ⟨second.agrees, fun i above => (second.beyond i above).trans (first.beyond i above)⟩

/-- Unchanged maps agree as before. -/
theorem Space.SameMap.kept (same : s.SameMap good view s') (agrees : s.Agrees limit good view) :
    s.Kept limit good view s' := by
  refine ⟨⟨same.good, ?_⟩, fun i _ => by rw [same.searchable]⟩
  rw [same.searchable, same.view]
  exact agrees.agrees

/-- Both copies changed on the same pages below the limit. -/
theorem Space.Kept.overlay {flag : Bool} {target : Nat → Option Nat}
    (agrees : s₀.Agrees limit good view) (well : good s.tables)
    (below : count = 0 ∨ base + count ≤ limit)
    (marks : s.searchable = overlay s₀.searchable base count fun _ => flag)
    (shows : view s.tables = overlay (view s₀.tables) base count target)
    (matching : ∀ i, (target i).isSome = flag) : s₀.Kept limit good view s := by
  refine ⟨⟨well, ?_⟩, ?_⟩
  · intro i inside
    rw [marks, shows]
    by_cases changed : base ≤ i ∧ i < base + count
    · rw [overlay_inside changed.1 changed.2, overlay_inside changed.1 changed.2, matching]
    · rw [overlay_outside (by omega), overlay_outside (by omega)]
      exact agrees.agrees i inside
  · intro i above
    rw [marks, overlay_outside (by omega)]

/-- Pages mapped in both copies. -/
theorem Mapped.kept {g : Nat → Nat} (mapped : Mapped limit good view s₀ s base count g)
    (agrees : s₀.Agrees limit good view) : s₀.Kept limit good view s :=
  Space.Kept.overlay agrees mapped.good mapped.below mapped.searchable mapped.view fun _ => rfl

/-- The loop with `MAP_OVERWRITE` marks what it maps. -/
theorem mapPages_overwrite_kept (models : mmu.Models limit good view)
    (agrees : s.Agrees limit good view) (overwrites : opts.overwrite = true)
    (physWord : phys < wordLimit) (virtWord : virt < wordLimit) {result : MapResults}
    (maps : Space.mapPages mmu bound opts count s virt phys = .ok (result, s')) :
    s.Kept limit good view s' := by
  induction count generalizing s virt phys with
  | zero =>
    rw [Space.mapPages] at maps
    simp only [Except.ok.injEq, Prod.mk.injEq] at maps
    rw [← maps.2]
    exact Space.Kept.refl agrees
  | succ count ih =>
    rw [Space.mapPages] at maps
    unfold Space.mapPage at maps
    rw [overwrites] at maps
    simp only [Bool.not_true, Bool.false_and, Bool.false_eq_true, if_false] at maps
    by_cases below : virt / pageSize < limit
    · obtain ⟨t', sets, well, shows⟩ : ∃ t', mmu.setEntry s.tables phys virt opts = .ok t' ∧ _ :=
        models.set_ok agrees.good physWord below
      simp only [sets, ok_bind, if_true] at maps
      have one : s.Kept limit good view ({ s with tables := t' }.mark (virt / pageSize) true) := by
        refine ⟨⟨well, ?_⟩, ?_⟩
        · intro i inside
          unfold Space.mark
          simp only
          rw [shows, Function.update_apply, Function.update_apply]
          by_cases same : i = virt / pageSize
          · rw [if_pos same, if_pos same]
            rfl
          · rw [if_neg same, if_neg same]
            exact agrees.agrees i inside
        · intro i above
          exact Function.update_of_ne (by omega) _ _
      exact one.trans (ih one.agrees (pageIncr_lt physWord) (pageIncr_lt virtWord) maps)
    · obtain ⟨fault, fails⟩ : ∃ fault, mmu.setEntry s.tables phys virt opts = .error fault :=
        models.set_beyond agrees.good (Nat.le_of_not_lt below) virtWord
      rw [fails] at maps
      simp at maps

/-- `internal_map_range` with any options. -/
theorem internalMapRange_kept (models : mmu.Models limit good view)
    (agrees : s.Agrees limit good view) (physWord : phys < wordLimit) (virtWord : virt < wordLimit)
    {result : MapResults} (maps : s.internalMapRange mmu phys len virt opts = .ok (result, s')) :
    s.Kept limit good view s' := by
  cases overwrites : opts.overwrite with
  | false =>
    rcases internalMapRange_cases models agrees overwrites physWord virtWord maps with
      ⟨-, mapped⟩ | ⟨-, same⟩
    · exact mapped.kept agrees
    · exact same.kept agrees
  | true =>
    unfold Space.internalMapRange at maps
    by_cases aligned : pageOffset phys ≠ pageOffset virt
    · rw [if_pos aligned] at maps
      simp only [Except.ok.injEq, Prod.mk.injEq] at maps
      rw [← maps.2]
      exact Space.Kept.refl agrees
    · rw [if_neg aligned, overwrites] at maps
      simp only [if_true, ok_bind] at maps
      exact mapPages_overwrite_kept models agrees overwrites
        (Nat.lt_of_le_of_lt (pageFloor_le phys) physWord)
        (Nat.lt_of_le_of_lt (pageFloor_le virt) virtWord) maps

/-- `map_range` with any options. -/
theorem mapRange_kept (models : mmu.Models limit good view) {v v' : Vmm τ}
    (agrees : v.space.Agrees limit good view) (physWord : phys < wordLimit) {result : MapResults}
    {found : Nat} (maps : v.mapRange mmu phys len opts = .ok (result, found, v')) :
    v.space.Kept limit good view v'.space := by
  rcases mapRange_inv maps with ⟨-, -, rfl, -⟩ | ⟨base, -, inside, rfl, -, inner, -, -⟩
  · exact Space.Kept.refl agrees
  · have found := found_word inside (pageOffset_lt phys)
    exact internalMapRange_kept models agrees physWord found.1 inner

/-- What the physical memory manager maps for itself. -/
theorem Space.Grows.kept (models : mmu.Models limit good view) (agrees : s₀.Agrees limit good view)
    (grows : s₀.Grows mmu s) : s₀.Kept limit good view s := by
  induction grows with
  | refl => exact Space.Kept.refl agrees
  | map before physWord lenWord returns ih =>
    exact ih.trans (mapRange_kept models ih.agrees physWord returns)

/-! ## Unmapping -/

/-- The first `count` pages from `base` on are free now. -/
structure Unmapped (good : τ → Prop) (view : τ → Nat → Option Nat) (s₀ s : Space τ)
    (base count : Nat) : Prop where
  /-- The tables are well formed. -/
  good : good s.tables
  /-- They are not marked now. -/
  searchable : s.searchable = overlay s₀.searchable base count fun _ => false
  /-- They are not in the tables now. -/
  view : view s.tables = overlay (view s₀.tables) base count fun _ => none

/-- Nothing is unmapped at first. -/
theorem Unmapped.start (well : good s.tables) : Unmapped good view s s base 0 :=
  ⟨well, overlay_zero.symm, overlay_zero.symm⟩

/-- One more page is unmapped. -/
theorem Unmapped.succ (unmapped : Unmapped good view s₀ s base count) (well : good s'.tables)
    (marks : s'.searchable = Function.update s.searchable (base + count) false)
    (shows : view s'.tables = Function.update (view s.tables) (base + count) none) :
    Unmapped good view s₀ s' base (count + 1) := by
  refine ⟨well, ?_, ?_⟩
  · rw [marks, unmapped.searchable]
    exact overlay_succ (g := fun _ => false)
  · rw [shows, unmapped.view]
    exact overlay_succ (g := fun _ => none)

/-- Pages taken out of both copies. -/
theorem Unmapped.kept (unmapped : Unmapped good view s₀ s base count)
    (agrees : s₀.Agrees limit good view) (below : count = 0 ∨ base + count ≤ limit) :
    s₀.Kept limit good view s :=
  Space.Kept.overlay agrees unmapped.good below unmapped.searchable unmapped.view fun _ => rfl

/-- Unmapping from the first page of a range that was mapped restores the map exactly when all of
the range is unmapped. -/
theorem Mapped.restored_iff {g : Nat → Nat} {n : Nat}
    (mapped : Mapped limit good view s₀ s base count g) (unmapped : Unmapped good view s s' base n)
    (fewer : n ≤ count) : s'.searchable = s₀.searchable ↔ n = count := by
  constructor
  · intro restored
    by_contra different
    -- The page behind the unmapped ones was free and is mapped.
    have left : s'.searchable (base + n) = true := by
      rw [unmapped.searchable, overlay_outside (Or.inr (Nat.le_refl _)), mapped.searchable,
        overlay_inside (by omega) (by omega)]
    rw [restored, (mapped.free (base + n) (by omega) (by omega)).1] at left
    cases left
  · rintro rfl
    funext i
    rw [unmapped.searchable]
    by_cases inside : base ≤ i ∧ i < base + n
    · rw [overlay_inside inside.1 inside.2, (mapped.free i inside.1 inside.2).1]
    · rw [overlay_outside (by omega), mapped.searchable, overlay_outside (by omega)]

/-- The pages of a range that `unmap_range` counts without the offset are those that `map_range`
counted with it, or fewer. -/
theorem pages_eq_iff (positive : 0 < len) (bounded : phys + len < wordLimit)
    (small : pagesFor phys len + 1 < pageCount) :
    bytesToPages len ≤ pagesFor phys len ∧
    (bytesToPages len = pagesFor phys len ↔
      pageOffset phys + (len - 1) % pageSize < pageSize) := by
  rw [pagesFor_eq bounded small] at *
  have round : len ≤ roundLimit := by
    unfold pageCount maxVirtMem pageSize at small
    unfold roundLimit
    omega
  rw [bytesToPages_eq round]
  unfold pageOffset pageSize
  omega

/-- The first loop of `unmap_range` looks at every page of the range. -/
theorem allMapped_iff (inside : base + count < pageCount) :
    s.allMapped count (base * pageSize) = true ↔
      ∀ i, base ≤ i → i < base + count → s.searchable i = true := by
  induction count generalizing base with
  | zero =>
    simp only [Space.allMapped, true_iff]
    intro i first last
    omega
  | succ count ih =>
    rw [Space.allMapped, pageIncr_page (by omega), Bool.and_eq_true, ih (by omega)]
    unfold Space.isMapped
    rw [page_div]
    constructor
    · rintro ⟨mapped, rest⟩ i first last
      by_cases here : i = base
      · rw [here]
        exact mapped
      · exact rest i (by omega) (by omega)
    · intro all
      exact ⟨all base (by omega) (by omega), fun i first last => all i (by omega) (by omega)⟩

/-- What `unmap_range` does with the lock held, on either architecture: `clearAll` is its second
loop, and `refusal` the state in which it leaves when the physical memory is refused. -/
def Vmm.unmapLocked (mmu : Mmu τ) (pmm : PmmCalls τ) (v refusal : Vmm τ) (virt len : Nat)
    (opts : MapOpts) (clearAll : Except Fault (Space τ)) : Except Fault (MapResults × Vmm τ) :=
  if !v.space.allMapped (bytesToPages len) (pageFloor virt) then .ok (.notMapped, v.releaseLock)
  else do
    let attempt ← if opts.physAddrAuto then do
        let phys ← mmu.virtToPhys v.space.tables virt
        pmm.freeMemArea v.space phys len
      else .ok PhysMem.PmmResult.success
    if opts.physAddrAuto && (attempt = .invalid || attempt = .null) then
      .ok (.invalidOption, refusal)
    else
      let space ← clearAll
      .ok (.success, { v with space := space }.releaseLock)

/-- Inversion of a call of it that returned. -/
theorem Vmm.unmapLocked_inv {v v' refusal : Vmm τ} {pmm : PmmCalls τ} {result : MapResults}
    {clearAll : Except Fault (Space τ)}
    (unmaps : v.unmapLocked mmu pmm refusal virt len opts clearAll = .ok (result, v')) :
    (result = .notMapped ∧ v' = v.releaseLock ∧
      v.space.allMapped (bytesToPages len) (pageFloor virt) = false) ∨
    (result = .invalidOption ∧ v' = refusal ∧
      v.space.allMapped (bytesToPages len) (pageFloor virt) = true ∧ opts.physAddrAuto = true ∧
      ∃ phys attempt, mmu.virtToPhys v.space.tables virt = .ok phys ∧
        pmm.freeMemArea v.space phys len = .ok attempt ∧ (attempt = .invalid ∨ attempt = .null)) ∨
    (result = .success ∧ v.space.allMapped (bytesToPages len) (pageFloor virt) = true ∧
      clearAll = .ok v'.space ∧ v'.acquired = v.acquired ∧ v'.released = v.released + 1 ∧
      (opts.physAddrAuto = true → ∃ phys attempt, mmu.virtToPhys v.space.tables virt = .ok phys ∧
        pmm.freeMemArea v.space phys len = .ok attempt ∧ attempt ≠ .invalid ∧
          attempt ≠ .null)) := by
  unfold Vmm.unmapLocked at unmaps
  cases all : v.space.allMapped (bytesToPages len) (pageFloor virt) with
  | false =>
    rw [all] at unmaps
    simp only [Bool.not_false, if_true, Except.ok.injEq, Prod.mk.injEq] at unmaps
    exact Or.inl ⟨unmaps.1.symm, unmaps.2.symm, rfl⟩
  | true =>
    rw [all] at unmaps
    simp only [Bool.not_true, Bool.false_eq_true, if_false] at unmaps
    cases auto : opts.physAddrAuto with
    | false =>
      rw [auto] at unmaps
      simp only [Bool.false_eq_true, if_false, ok_bind, Bool.false_and] at unmaps
      obtain ⟨space, clears, returns⟩ := of_bind_ok unmaps
      cases returns
      exact Or.inr (Or.inr ⟨rfl, rfl, clears, rfl, rfl, by simp⟩)
    | true =>
      rw [auto] at unmaps
      simp only [if_true, Bool.true_and] at unmaps
      obtain ⟨phys, walked, unmaps⟩ := of_bind_ok unmaps
      obtain ⟨attempt, frees, unmaps⟩ := of_bind_ok unmaps
      simp only [Bool.or_eq_true, decide_eq_true_eq] at unmaps
      by_cases refused : attempt = .invalid ∨ attempt = .null
      · rw [if_pos refused] at unmaps
        cases unmaps
        exact Or.inr (Or.inl ⟨rfl, rfl, rfl, rfl, phys, attempt, walked, frees, refused⟩)
      · rw [if_neg refused] at unmaps
        obtain ⟨space, clears, returns⟩ := of_bind_ok unmaps
        cases returns
        push Not at refused
        exact Or.inr (Or.inr ⟨rfl, rfl, clears, rfl, rfl,
          fun _ => ⟨phys, attempt, walked, frees, refused.1, refused.2⟩⟩)

end FelineOS.Paging
