import FelineOS.Verif.Paging

/-!
# The search for virtual memory

That calls of `map_range` come back, and with what. The scan of `free_from_here` ends at the last
page it needs or at a page in use; `find_free_virtmem` then starts behind that page, so a page in
use near the end of the address space makes it end (`findFreeVirtmem_returns`). Free pages at the
start of the address space are found at once (`mapRange_first`).
-/

namespace FelineOS.Paging

open Library

variable {τ : Type} {mmu : Mmu τ} {limit : Nat} {good : τ → Prop} {view : τ → Nat → Option Nat}
  {s s₀ : Space τ} {base count phys bound fuel len : Nat} {opts : MapOpts}

/-! ## The scan -/

/-- The scan finds nothing in free pages. -/
theorem firstMapped_free {last : Nat} (inside : last + 1 < pageCount)
    (free : ∀ i, base ≤ i → i ≤ last → s.searchable i = false) (ordered : base ≤ last + 1)
    (enough : last + 1 < fuel + base) :
    s.firstMapped (last * pageSize) fuel (base * pageSize) = .ok none := by
  induction fuel generalizing base with
  | zero => omega
  | succ fuel ih =>
    rw [Space.firstMapped]
    by_cases more : base ≤ last
    · have unmapped : s.isMapped (base * pageSize) = false := by
        unfold Space.isMapped
        rw [page_div]
        exact free base (Nat.le_refl _) more
      rw [if_pos (Nat.mul_le_mul_right _ more), unmapped]
      simp only [Bool.false_eq_true, if_false]
      rw [pageIncr_page (by omega)]
      exact ih (fun i first => free i (by omega)) (by omega) (by omega)
    · have behind : ¬ base * pageSize ≤ last * pageSize := by
        unfold pageSize
        omega
      rw [if_neg behind]

/-- The scan ends at the latest at a page in use. -/
theorem firstMapped_returns {taken last : Nat} (inUse : s.searchable taken = true)
    (inside : taken < pageCount) (before : base ≤ taken) (enough : taken < fuel + base) :
    s.firstMapped last fuel (base * pageSize) = .ok none ∨
    ∃ blocked, base ≤ blocked ∧ blocked ≤ taken ∧
      s.firstMapped last fuel (base * pageSize) = .ok (some (blocked * pageSize)) := by
  induction fuel generalizing base with
  | zero => omega
  | succ fuel ih =>
    rw [Space.firstMapped]
    by_cases more : base * pageSize ≤ last
    · rw [if_pos more]
      cases mapped : s.isMapped (base * pageSize) with
      | true => exact Or.inr ⟨base, Nat.le_refl _, before, by simp⟩
      | false =>
        simp only [Bool.false_eq_true, if_false]
        have notHere : base ≠ taken := by
          rintro rfl
          unfold Space.isMapped at mapped
          rw [page_div, inUse] at mapped
          cases mapped
        rw [pageIncr_page (by omega)]
        rcases @ih (base + 1) (by omega) (by omega) with nothing | ⟨blocked, first, last, found⟩
        · exact Or.inl nothing
        · exact Or.inr ⟨blocked, by omega, last, found⟩
    · rw [if_neg more]
      exact Or.inl rfl

/-- The last page that `free_from_here` looks at is the one behind the range. -/
theorem lastPageNeeded_page (fits : base + bytesToPages len + 1 < pageCount)
    (small : len ≤ roundLimit) :
    lastPageNeeded (base * pageSize) len = (base + bytesToPages len) * pageSize := by
  rw [bytesToPages_eq small] at *
  have word : base * pageSize + len < wordLimit := by
    unfold pageCount maxVirtMem pageSize at fits
    unfold wordLimit pageSize
    omega
  have floor : pageFloor (base * pageSize + len) = (base + len / pageSize) * pageSize := by
    unfold pageFloor
    rw [Nat.mul_comm base, Nat.mul_add_div (by decide)]
  unfold lastPageNeeded
  rw [wrap_of_lt word, floor]
  unfold pageOffset
  split
  · rw [pageIncr_page (by unfold pageSize at *; omega)]
    unfold pageSize at *
    omega
  · unfold pageSize at *
    omega

/-- Free pages are free from here. -/
theorem freeFromHere_free (fits : base + bytesToPages len + 1 < pageCount) (small : len ≤ roundLimit)
    (free : ∀ i, base ≤ i → i ≤ base + bytesToPages len → s.searchable i = false) :
    s.freeFromHere (base * pageSize) len = .ok (true, base * pageSize) := by
  have room : ¬ base * pageSize > maxVirtMem - len := by
    rw [bytesToPages_eq small] at fits
    unfold pageCount at fits
    unfold maxVirtMem pageSize at *
    omega
  unfold Space.freeFromHere
  rw [if_neg room, lastPageNeeded_page fits small,
    firstMapped_free fits free (by omega) (by omega)]
  rfl

/-- `free_from_here` answers where a later page is in use. -/
theorem freeFromHere_returns {taken needed : Nat} (inUse : s.searchable taken = true)
    (inside : taken < pageCount) (before : base ≤ taken) :
    ∃ free next, s.freeFromHere (base * pageSize) needed = .ok (free, next) ∧
      (free = true ∨ next = 0 ∨ ∃ blocked, base ≤ blocked ∧ blocked ≤ taken ∧
        next = blocked * pageSize) := by
  unfold Space.freeFromHere
  by_cases beyond : base * pageSize > maxVirtMem - needed
  · rw [if_pos beyond]
    exact ⟨false, 0, rfl, Or.inr (Or.inl rfl)⟩
  · rw [if_neg beyond]
    have enough : taken < pageCount + 2 + base := by omega
    rcases firstMapped_returns inUse inside before enough with nothing | ⟨blocked, first, last, found⟩
    · rw [nothing]
      exact ⟨true, _, rfl, Or.inl rfl⟩
    · rw [found, ok_bind]
      refine ⟨false, _, rfl, Or.inr (Or.inr ⟨blocked, first, last, ?_⟩)⟩
      exact pageFloor_of_dvd (Nat.dvd_mul_left _ _)

/-! ## The loop over the address space -/

/-- The search ends when the last pages are in use. -/
theorem findFrom_returns (ends : ∀ i, limit ≤ i → i < pageCount → s.searchable i = true)
    (room : limit + 1 < pageCount) (inside : base < pageCount) (enough : pageCount ≤ fuel + base) :
    ∃ answer, s.findFrom len fuel (base * pageSize) = .ok answer := by
  induction fuel generalizing base with
  | zero => omega
  | succ fuel ih =>
    rw [Space.findFrom]
    by_cases more : base * pageSize < maxVirtMem - pageSize ∧ base * pageSize ≠ 0
    · rw [if_pos more]
      have notLast : base + 1 < pageCount := by
        unfold pageCount maxVirtMem pageSize at *
        omega
      have inUse : s.searchable (max base limit) = true := ends _ (by omega) (by omega)
      obtain ⟨free, next, answers, outcome⟩ :
          ∃ free next, s.freeFromHere (base * pageSize) len = .ok (free, next) ∧
            (free = true ∨ next = 0 ∨ ∃ blocked, base ≤ blocked ∧ blocked ≤ max base limit ∧
              next = blocked * pageSize) :=
        freeFromHere_returns inUse (by omega) (Nat.le_max_left _ _)
      rw [answers, ok_bind]
      rcases outcome with rfl | rfl | ⟨blocked, first, last, rfl⟩
      · exact ⟨some next, rfl⟩
      · cases free with
        | true => exact ⟨some 0, rfl⟩
        | false => exact ⟨none, rfl⟩
      · cases free with
        | true => exact ⟨some _, rfl⟩
        | false =>
          by_cases null : blocked * pageSize = 0
          · exact ⟨none, by simp [null]⟩
          · simp only [Bool.false_eq_true, if_false, if_neg null]
            have behind : blocked + 1 < pageCount := by omega
            rw [pageIncr_page behind]
            exact ih behind (by omega)
    · rw [if_neg more]
      exact ⟨none, rfl⟩

/-- `find_free_virtmem` answers when the last pages are in use. -/
theorem findFreeVirtmem_returns (ends : ∀ i, limit ≤ i → i < pageCount → s.searchable i = true)
    (room : limit + 1 < pageCount) : ∃ answer, s.findFreeVirtmem len = .ok answer := by
  have start : pageSize = 1 * pageSize := (Nat.one_mul _).symm
  unfold Space.findFreeVirtmem
  rw [start]
  exact findFrom_returns ends room (by decide) (by omega)

/-- Free pages behind the first one are found at once. -/
theorem findFreeVirtmem_first (fits : bytesToPages len + 2 < pageCount) (small : len ≤ roundLimit)
    (free : ∀ i, 1 ≤ i → i ≤ 1 + bytesToPages len → s.searchable i = false) :
    s.findFreeVirtmem len = .ok (some pageSize) := by
  have found : s.freeFromHere pageSize len = .ok (true, pageSize) := by
    have here : s.freeFromHere (1 * pageSize) len = .ok (true, 1 * pageSize) :=
      freeFromHere_free (by omega) small free
    rwa [Nat.one_mul] at here
  unfold Space.findFreeVirtmem
  obtain ⟨fuel, rounds⟩ : ∃ fuel, pageCount = fuel + 1 := ⟨pageCount - 1, by decide⟩
  rw [rounds, Space.findFrom, if_pos (by decide), found]
  rfl

/-! ## The loop over the pages -/

/-- The loop maps free pages. -/
theorem mapPages_free (models : mmu.Models limit good view) (well : good s.tables)
    (physWord : phys < wordLimit) (below : base + count ≤ limit)
    (free : ∀ i, base ≤ i → i < base + count → s.searchable i = false) :
    ∃ s', Space.mapPages mmu bound opts count s (base * pageSize) phys = .ok (.success, s') ∧
      s'.searchable = overlay s.searchable base count fun _ => true := by
  have limitLt := models.limit_lt
  induction count generalizing s base phys with
  | zero => exact ⟨s, rfl, overlay_zero.symm⟩
  | succ count ih =>
    obtain ⟨t', sets, well', -⟩ : ∃ t', mmu.setEntry s.tables phys (base * pageSize) opts = .ok t' ∧
        good t' ∧ _ := models.set_ok well physWord (by rw [page_div]; omega)
    have unmapped : s.isMapped (base * pageSize) = false := by
      unfold Space.isMapped
      rw [page_div]
      exact free base (Nat.le_refl _) (by omega)
    rw [Space.mapPages]
    unfold Space.mapPage
    rw [unmapped]
    simp only [Bool.and_false, Bool.false_eq_true, if_false, sets, ok_bind, if_true]
    rw [pageIncr_page (by omega), page_div]
    have rest : ∀ i, base + 1 ≤ i → i < base + 1 + count →
        ({ s with tables := t' }.mark base true).searchable i = false := by
      intro i first last
      unfold Space.mark
      simp only
      rw [Function.update_of_ne (by omega)]
      exact free i (by omega) (by omega)
    obtain ⟨s', maps, marks⟩ := ih well' (pageIncr_lt physWord) (by omega) rest
    refine ⟨s', maps, marks.trans ?_⟩
    unfold Space.mark
    exact overlay_first (g := fun _ => true)

/-- The loop comes back when the pages from the limit on are in use. -/
theorem mapPages_returns (models : mmu.Models limit good view) (agrees : s₀.Agrees limit good view)
    (ends : ∀ i, limit ≤ i → i < pageCount → s₀.searchable i = true)
    (keeps : opts.overwrite = false) (start : pageFloor bound = base * pageSize)
    (inside : base < pageCount) (physWord : phys < wordLimit) {mapped : Nat}
    (before : Mapped limit good view s₀ s base mapped (physPage phys)) :
    ∃ result s', Space.mapPages mmu bound opts count s ((base + mapped) * pageSize)
      (pageIncr^[mapped] (pageFloor phys)) = .ok (result, s') := by
  have limitLt := models.limit_lt
  induction count generalizing s mapped with
  | zero => exact ⟨.success, s, rfl⟩
  | succ count ih =>
    have here : base + mapped < pageCount ∧ mapped < pageCount + 2 := by
      rcases before.below with none | fits
      · omega
      · omega
    rw [Space.mapPages]
    unfold Space.mapPage
    rw [keeps]
    cases taken : s.isMapped ((base + mapped) * pageSize) with
    | true =>
      obtain ⟨s', undoes, -⟩ := rollback_spec models before start here.2
      refine ⟨.alreadyMapped, s', ?_⟩
      simp only [Bool.not_false, Bool.and_self, if_true, ok_bind, reduceCtorEq, if_false, undoes]
    | false =>
      unfold Space.isMapped at taken
      rw [page_div] at taken
      have below : base + mapped < limit := by
        by_contra beyond
        rw [before.searchable, overlay_outside (Or.inr (Nat.le_refl _)),
          ends _ (by omega) here.1] at taken
        cases taken
      obtain ⟨t', sets, well, shows⟩ :
          ∃ t', mmu.setEntry s.tables (pageIncr^[mapped] (pageFloor phys))
            ((base + mapped) * pageSize) opts = .ok t' ∧ good t' ∧ _ :=
        models.set_ok before.good (iterate_lt physWord mapped) (by rw [page_div]; exact below)
      simp only [Bool.not_false, Bool.and_false, Bool.false_eq_true, if_false, sets, ok_bind, if_true]
      rw [page_div] at shows ⊢
      rw [pageIncr_page (by omega), Nat.add_assoc,
        ← Function.iterate_succ_apply' pageIncr mapped (pageFloor phys)]
      exact ih (before.succ agrees well below taken rfl shows)

/-! ## `map_range` -/

/-- `internal_map_range` without `MAP_OVERWRITE` comes back when the pages from the limit on are
in use. -/
theorem internalMapRange_returns {virt : Nat} (models : mmu.Models limit good view)
    (agrees : s.Agrees limit good view)
    (ends : ∀ i, limit ≤ i → i < pageCount → s.searchable i = true)
    (keeps : opts.overwrite = false) (physWord : phys < wordLimit) (virtWord : virt < wordLimit) :
    ∃ result s', s.internalMapRange mmu phys len virt opts = .ok (result, s') := by
  have limitLt := models.limit_lt
  have inside : virt / pageSize < pageCount := by
    unfold wordLimit at virtWord
    unfold pageCount maxVirtMem pageSize
    omega
  unfold Space.internalMapRange
  by_cases aligned : pageOffset phys = pageOffset virt
  · rw [if_neg (by simp [aligned]), keeps]
    have inUse : s.searchable (max (virt / pageSize) limit) = true := ends _ (by omega) (by omega)
    obtain ⟨free, next, answers, -⟩ :
        ∃ free next, s.freeFromHere (virt / pageSize * pageSize) len = .ok (free, next) ∧ _ :=
      freeFromHere_returns inUse (by omega) (Nat.le_max_left _ _)
    have answers' : s.freeFromHere (pageFloor virt) len = .ok (free, next) := answers
    simp only [Bool.false_eq_true, if_false, answers', ok_bind]
    cases free with
    | true =>
      have begin : Mapped limit good view s s (virt / pageSize) 0 (physPage phys) :=
        Mapped.start agrees.good _
      obtain ⟨result, s', maps⟩ : ∃ result s', Space.mapPages mmu virt opts (bytesToPages len) s
          ((virt / pageSize + 0) * pageSize) (pageIncr^[0] (pageFloor phys)) = .ok (result, s') :=
        mapPages_returns models agrees ends keeps rfl inside physWord begin
      exact ⟨result, s', maps⟩
    | false => exact ⟨.alreadyMapped, s, rfl⟩
  · rw [if_pos aligned]
    exact ⟨.invalidAlign, s, rfl⟩

/-- `map_range` without `MAP_OVERWRITE` comes back when the pages from the limit on are in use. -/
theorem mapRange_returns {v : Vmm τ} (models : mmu.Models limit good view)
    (room : limit + 1 < pageCount) (agrees : v.space.Agrees limit good view)
    (ends : ∀ i, limit ≤ i → i < pageCount → v.space.searchable i = true)
    (keeps : opts.overwrite = false) (physWord : phys < wordLimit) :
    ∃ result found v', v.mapRange mmu phys len opts = .ok (result, found, v') := by
  have same : v.acquireLock.space = v.space := rfl
  obtain ⟨answer, search⟩ : ∃ answer,
      v.space.findFreeVirtmem (wrap (len + pageOffset phys)) = .ok answer :=
    findFreeVirtmem_returns ends room
  unfold Vmm.mapRange
  simp only [same, search, ok_bind]
  cases answer with
  | none => exact ⟨.noVirtmem, 0, _, rfl⟩
  | some virt =>
    obtain ⟨base, rfl, -, inside, -⟩ := findFreeVirtmem_page search
    have found := found_word (Nat.lt_of_succ_lt inside) (pageOffset_lt phys)
    obtain ⟨result, s', maps⟩ : ∃ result s', v.space.internalMapRange mmu phys
        (wrap (len + pageOffset phys)) (base * pageSize + pageOffset phys) opts = .ok (result, s') :=
      internalMapRange_returns models agrees ends keeps physWord found.1
    simp only [maps, ok_bind]
    exact ⟨result, _, _, rfl⟩

/-- The first page that `free_from_here` accepts for a single page is free. -/
theorem freeFromHere_onePage {needed : Nat} (inside : base + 1 < pageCount)
    (single : bytesToPages needed = 1)
    (accepts : s.freeFromHere (base * pageSize) needed = .ok (true, base * pageSize)) :
    s.searchable base = false := by
  have small : 0 < needed ∧ needed ≤ pageSize := by
    unfold bytesToPages at single
    unfold uintptrMax pageSize at *
    split at single <;> omega
  have ordered : base * pageSize ≤ lastPageNeeded (base * pageSize) needed := by
    have word : base * pageSize + needed < wordLimit := by
      unfold pageCount maxVirtMem pageSize at *
      unfold wordLimit
      omega
    have floor : base * pageSize ≤ pageFloor (base * pageSize + needed) := by
      have mono := pageFloor_mono (Nat.le_add_right (base * pageSize) needed)
      rwa [pageFloor_of_dvd (Nat.dvd_mul_left _ _)] at mono
    unfold lastPageNeeded
    rw [wrap_of_lt word]
    split
    · refine Nat.le_trans floor ?_
      unfold pageIncr
      split
      · exact Nat.le_add_right _ _
      · have below := pageFloor_le (base * pageSize + needed)
        unfold wordLimit at word
        unfold uintptrMax
        omega
    · exact floor
  rcases freeFromHere_cases accepts with ⟨contrary, -⟩ | ⟨-, -, search⟩ | ⟨_, contrary, -⟩
  · cases contrary
  · rw [Space.firstMapped, if_pos ordered] at search
    have unmapped : s.isMapped (base * pageSize) = false := by
      by_contra mapped
      rw [if_pos (by simpa using mapped)] at search
      cases search
    unfold Space.isMapped at unmapped
    rwa [page_div] at unmapped
  · cases contrary

/-- `map_range` of a single page maps it, or finds no virtual memory. -/
theorem mapRange_onePage {v v' : Vmm τ} (models : mmu.Models limit good view)
    (agrees : v.space.Agrees limit good view)
    (ends : ∀ i, limit ≤ i → i < pageCount → v.space.searchable i = true)
    (physWord : phys < wordLimit) (single : pagesFor phys len = 1) {result : MapResults}
    {found : Nat} (maps : v.mapRange mmu phys len opts = .ok (result, found, v')) :
    result = .success ∨ result = .noVirtmem := by
  rcases mapRange_inv maps with ⟨rfl, -⟩ | ⟨base, -, -, rfl, search, inner, -, -⟩
  · exact Or.inr rfl
  · left
    obtain ⟨page, same, -, inside, accepts⟩ := findFreeVirtmem_page search
    obtain rfl : base = page := Nat.eq_of_mul_eq_mul_right (by decide) same
    unfold pagesFor at single
    have free := freeFromHere_onePage inside single accepts
    have below : base < limit := by
      by_contra above
      rw [ends base (Nat.le_of_not_lt above) (by omega)] at free
      cases free
    have offset : pageOffset (base * pageSize + pageOffset phys) = pageOffset phys := by
      unfold pageOffset
      rw [Nat.mul_add_mod_of_lt (Nat.mod_lt _ (by decide))]
    have floor : pageFloor (base * pageSize + pageOffset phys) = base * pageSize := by
      unfold pageFloor
      rw [(found_word (Nat.lt_of_succ_lt inside) (pageOffset_lt phys)).2]
    obtain ⟨s', done, -⟩ : ∃ s', Space.mapPages mmu (base * pageSize + pageOffset phys) opts 1
        v.space (base * pageSize) (pageFloor phys) = .ok (.success, s') ∧ _ :=
      mapPages_free models agrees.good (Nat.lt_of_le_of_lt (pageFloor_le phys) physWord) below
        fun i first last => by rwa [show i = base by omega]
    unfold Space.internalMapRange at inner
    simp only [offset, floor, single, accepts, done, ne_eq, not_true_eq_false, if_false, ok_bind]
      at inner
    cases overwrites : opts.overwrite <;> simp [overwrites] at inner <;> exact inner.1.symm

/-- `map_range` maps into free pages behind the first one. -/
theorem mapRange_first {v : Vmm τ} (models : mmu.Models limit good view)
    (agrees : v.space.Agrees limit good view) (physWord : phys < wordLimit)
    (small : len + pageOffset phys ≤ roundLimit) (fits : 1 + pagesFor phys len ≤ limit)
    (room : pagesFor phys len + 2 < pageCount)
    (free : ∀ i, 1 ≤ i → i ≤ 1 + pagesFor phys len → v.space.searchable i = false) :
    ∃ v', v.mapRange mmu phys len opts = .ok (.success, pageSize + pageOffset phys, v') := by
  have same : v.acquireLock.space = v.space := rfl
  have word : wrap (len + pageOffset phys) = len + pageOffset phys := by
    apply wrap_of_lt
    unfold roundLimit at small
    unfold wordLimit
    omega
  unfold pagesFor at fits room free
  rw [word] at fits room free
  have offset : pageOffset (pageSize + pageOffset phys) = pageOffset phys := by
    unfold pageOffset
    rw [Nat.add_mod_left, Nat.mod_mod]
  have floor : pageFloor (pageSize + pageOffset phys) = 1 * pageSize := by
    have quotient := (found_word (show 1 < pageCount by decide) (pageOffset_lt phys)).2
    rw [Nat.one_mul] at quotient
    unfold pageFloor
    rw [quotient]
  obtain ⟨s', maps, -⟩ : ∃ s', Space.mapPages mmu (pageSize + pageOffset phys) opts
      (bytesToPages (len + pageOffset phys)) v.space (1 * pageSize) (pageFloor phys) =
        .ok (.success, s') ∧ _ :=
    mapPages_free models agrees.good (Nat.lt_of_le_of_lt (pageFloor_le phys) physWord) fits
      fun i first last => free i first (by omega)
  have allFree : v.space.freeFromHere (1 * pageSize) (len + pageOffset phys) =
      .ok (true, 1 * pageSize) := freeFromHere_free (by omega) small free
  unfold Vmm.mapRange Space.internalMapRange
  simp only [same, word, findFreeVirtmem_first room small free, ok_bind, offset, floor, allFree,
    ne_eq, not_true_eq_false, if_false, if_true, maps]
  cases opts.overwrite with
  | true => exact ⟨_, rfl⟩
  | false => exact ⟨_, rfl⟩

/-! ## What the search looks at -/

/-- The loop of `free_from_here` reads the searchable copy only. -/
theorem firstMapped_congr {s' : Space τ} (same : s'.searchable = s.searchable) (last : Nat) :
    ∀ fuel base, s'.firstMapped last fuel base = s.firstMapped last fuel base := by
  intro fuel
  induction fuel with
  | zero =>
    intro base
    rfl
  | succ fuel ih =>
    intro base
    unfold Space.firstMapped Space.isMapped
    rw [same, ih]

/-- The search reads the searchable copy only. -/
theorem findFreeVirtmem_congr {s' : Space τ} (same : s'.searchable = s.searchable) (len : Nat) :
    s'.findFreeVirtmem len = s.findFreeVirtmem len := by
  have here : ∀ base, s'.freeFromHere base len = s.freeFromHere base len := by
    intro base
    unfold Space.freeFromHere
    rw [firstMapped_congr same]
  have search : ∀ fuel base, s'.findFrom len fuel base = s.findFrom len fuel base := by
    intro fuel
    induction fuel with
    | zero =>
      intro base
      rfl
    | succ fuel ih =>
      intro base
      unfold Space.findFrom
      rw [here]
      simp only [ih]
  exact search pageCount pageSize

/-! ## The results of `map_range` -/

/-- The loop of `internal_map_range` ends with all pages mapped or at one that was. -/
theorem mapPages_results {s' : Space τ} {bound count virt : Nat} {result : MapResults}
    (maps : Space.mapPages mmu bound opts count s virt phys = .ok (result, s')) :
    result = .success ∨ result = .alreadyMapped := by
  induction count generalizing s virt phys with
  | zero =>
    cases maps
    exact Or.inl rfl
  | succ count ih =>
    obtain ⟨⟨attempt, s₁⟩, first, later⟩ := of_bind_ok maps
    by_cases success : attempt = .success
    · simp only [if_pos success] at later
      exact ih later
    · simp only [if_neg success] at later
      obtain ⟨s₂, -, done⟩ := of_bind_ok later
      cases done
      unfold Space.mapPage at first
      split at first
      · cases first
        exact Or.inr rfl
      · obtain ⟨tables, -, done⟩ := of_bind_ok first
        cases done
        exact absurd rfl success

/-- `map_range` that has found virtual memory does not fail for want of a permission. -/
theorem mapRange_results {v v' : Vmm τ} {result : MapResults} {found : Nat}
    (maps : v.mapRange mmu phys len opts = .ok (result, found, v')) :
    (result = .noVirtmem ∧ v.space.findFreeVirtmem (wrap (len + pageOffset phys)) = .ok none) ∨
    ((result = .success ∨ result = .alreadyMapped ∨ result = .invalidAlign) ∧
      v.space.findFreeVirtmem (wrap (len + pageOffset phys)) ≠ .ok none) := by
  rcases mapRange_inv maps with ⟨none, -, -, search⟩ | ⟨base, -, -, -, search, inner, -, -⟩
  · exact Or.inl ⟨none, search⟩
  · refine Or.inr ⟨?_, by simp [search]⟩
    unfold Space.internalMapRange at inner
    by_cases aligned : pageOffset phys ≠ pageOffset found
    · rw [if_pos aligned] at inner
      simp only [Except.ok.injEq, Prod.mk.injEq] at inner
      exact Or.inr (Or.inr inner.1.symm)
    rw [if_neg aligned] at inner
    have decided : ∀ free : Bool, (if free then Space.mapPages mmu found opts
        (bytesToPages (wrap (len + pageOffset phys))) v.space (pageFloor found) (pageFloor phys)
        else .ok (.alreadyMapped, v.space)) = .ok (result, v'.space) →
        result = .success ∨ result = .alreadyMapped ∨ result = .invalidAlign := by
      intro free later
      cases free with
      | true => exact (mapPages_results later).imp_right Or.inl
      | false =>
        simp only [Bool.false_eq_true, if_false, Except.ok.injEq, Prod.mk.injEq] at later
        exact Or.inr (Or.inl later.1.symm)
    cases overwrites : opts.overwrite with
    | true =>
      rw [overwrites] at inner
      exact decided true inner
    | false =>
      rw [overwrites] at inner
      simp only [Bool.false_eq_true, if_false] at inner
      obtain ⟨⟨free, next⟩, -, later⟩ := of_bind_ok inner
      exact decided free later

end FelineOS.Paging
