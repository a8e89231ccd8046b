import FelineOS.Verif.Paging

/-!
# The search for virtual memory, up to the end of the address space

`free_from_here` looks at the pages of a range and at the one behind it. For a range that ends with
the address space the last page is computed from a sum that wraps to zero, and no page is looked at;
for a range that ends inside the last page it is the last word, and the loop over the pages, whose
increment stays at that word, does not end when they are all free. `find_free_virtmem` comes to such
a range only when no earlier place is free and the page before it is in use (`TopTried`), so those
are the only ways in which it is wrong. Both architectures have the same two functions.
-/

namespace FelineOS.Paging

variable {τ : Type} {s : Space τ} {i j k m last fuel len needed : Nat}

/-- The pages that a number of bytes takes from a page boundary on. -/
def pagesNeeded (len : Nat) : Nat := (len + (pageSize - 1)) / pageSize

/-- The pages from `i` up to `j` are free. -/
def Space.FreePages (s : Space τ) (i j : Nat) : Prop := ∀ m, i ≤ m → m < j → s.searchable m = false

/-- No page of the bytes is in use. -/
def Space.Unmapped (s : Space τ) (base len : Nat) : Prop :=
  ∀ x, base ≤ x → x < base + len → s.isMapped x = false

/-- Fewer pages are free as well. -/
theorem Space.FreePages.mono {i' j' : Nat} (free : s.FreePages i j) (first : i ≤ i') (last : j' ≤ j) :
    s.FreePages i' j' := fun m above below => free m (by omega) (by omega)

/-- A free page in front of free pages. -/
theorem Space.FreePages.cons (here : s.searchable i = false) (free : s.FreePages (i + 1) j) :
    s.FreePages i j := by
  intro m above below
  by_cases same : m = i
  · rw [same]
    exact here
  · exact free m (by omega) below

/-- The bytes of whole pages are unmapped exactly when the pages are free. -/
theorem unmapped_iff (len : Nat) :
    s.Unmapped (i * pageSize) len ↔ s.FreePages i (i + pagesNeeded len) := by
  constructor
  · intro unmapped m above below
    have within : m * pageSize < i * pageSize + len := by
      unfold pagesNeeded at below
      unfold pageSize at *
      omega
    have free := unmapped (m * pageSize) (Nat.mul_le_mul_right _ above) within
    unfold Space.isMapped at free
    rwa [page_div] at free
  · intro free x above below
    unfold Space.isMapped
    apply free
    · unfold pageSize at *
      omega
    · unfold pagesNeeded
      unfold pageSize at *
      omega

/-! ## The scan -/

/-- The increment of the last page stays at the last word. -/
theorem pageIncr_last (end_ : i + 1 = pageCount) : pageIncr (i * pageSize) = uintptrMax := by
  unfold pageIncr
  unfold pageCount maxVirtMem pageSize at *
  unfold uintptrMax
  rw [if_neg (by omega)]

/-- The last word is in the last page. -/
theorem isMapped_last : s.isMapped uintptrMax = s.searchable (pageCount - 1) := rfl

/-- The scan up to a page finds the first page in use. -/
theorem firstMapped_scan (inside : last < pageCount) (ordered : i ≤ last + 1)
    (enough : last + 1 < fuel + i) :
    (s.firstMapped (last * pageSize) fuel (i * pageSize) = .ok none ∧ s.FreePages i (last + 1)) ∨
    ∃ m, i ≤ m ∧ m ≤ last ∧ s.searchable m = true ∧ s.FreePages i m ∧
      s.firstMapped (last * pageSize) fuel (i * pageSize) = .ok (some (m * pageSize)) := by
  induction fuel generalizing i with
  | zero => omega
  | succ fuel ih =>
    rw [Space.firstMapped]
    by_cases more : i ≤ last
    · rw [if_pos (Nat.mul_le_mul_right _ more)]
      unfold Space.isMapped
      rw [page_div]
      cases mapped : s.searchable i with
      | true =>
        exact .inr ⟨i, Nat.le_refl _, more, mapped, fun m above below => absurd above (by omega), rfl⟩
      | false =>
        simp only [Bool.false_eq_true, if_false]
        by_cases next : i + 1 < pageCount
        · rw [pageIncr_page next]
          rcases ih (i := i + 1) (by omega) (by omega) with ⟨nothing, free⟩ |
            ⟨m, above, below, inUse, free, found⟩
          · exact .inl ⟨nothing, free.cons mapped⟩
          · exact .inr ⟨m, by omega, below, inUse, free.cons mapped, found⟩
        · have only : last = i := by omega
          subst only
          refine .inl ⟨?_, fun m above below => ?_⟩
          · rw [pageIncr_last (by omega)]
            obtain ⟨fuel, rfl⟩ : ∃ n, fuel = n + 1 := ⟨fuel - 1, by omega⟩
            have word := page_lt inside
            rw [Space.firstMapped, if_neg]
            unfold pageCount maxVirtMem pageSize at *
            unfold uintptrMax
            omega
          · rw [show m = last by omega]
            exact mapped
    · have behind : ¬ i * pageSize ≤ last * pageSize := by
        unfold pageSize
        omega
      rw [if_neg behind]
      exact .inl ⟨rfl, fun m above below => absurd above (by omega)⟩

/-- At the last word the scan does not end while the last page is free. -/
theorem firstMapped_stuck (free : s.searchable (pageCount - 1) = false) (fuel : Nat) :
    s.firstMapped uintptrMax fuel uintptrMax = .error .divergence := by
  induction fuel with
  | zero => rfl
  | succ fuel ih =>
    rw [Space.firstMapped, if_pos (Nat.le_refl _), isMapped_last, free]
    exact ih

/-- The scan up to the last word finds the first page in use or does not end. -/
theorem firstMapped_toEnd (inside : i < pageCount) (enough : pageCount < fuel + i) :
    (s.firstMapped uintptrMax fuel (i * pageSize) = .error .divergence ∧ s.FreePages i pageCount) ∨
    ∃ m, i ≤ m ∧ m < pageCount ∧ s.searchable m = true ∧ s.FreePages i m ∧
      s.firstMapped uintptrMax fuel (i * pageSize) = .ok (some (m * pageSize)) := by
  induction fuel generalizing i with
  | zero => omega
  | succ fuel ih =>
    have word := page_lt inside
    rw [Space.firstMapped, if_pos (by unfold uintptrMax; unfold wordLimit at word; omega)]
    unfold Space.isMapped
    rw [page_div]
    cases mapped : s.searchable i with
    | true =>
      exact .inr ⟨i, Nat.le_refl _, inside, mapped, fun m above below => absurd above (by omega), rfl⟩
    | false =>
      simp only [Bool.false_eq_true, if_false]
      by_cases next : i + 1 < pageCount
      · rw [pageIncr_page next]
        rcases ih (i := i + 1) next (by omega) with ⟨endless, free⟩ |
          ⟨m, above, below, inUse, free, found⟩
        · exact .inl ⟨endless, free.cons mapped⟩
        · exact .inr ⟨m, by omega, below, inUse, free.cons mapped, found⟩
      · have only : i = pageCount - 1 := by omega
        rw [pageIncr_last (by omega), firstMapped_stuck (only ▸ mapped)]
        refine .inl ⟨rfl, fun m above below => ?_⟩
        rw [show m = i by omega]
        exact mapped

/-! ## The range from a page on -/

/-- What `free_from_here` answers for a range from the page `i` on. -/
inductive Scanned (s : Space τ) (i needed : Nat) : Except Fault (Bool × Nat) → Prop where
  /-- The range passes the end of the address space. -/
  | beyond (past : pageCount < i + pagesNeeded needed) : Scanned s i needed (.ok (false, 0))
  /-- The range ends with the address space: no page is looked at. -/
  | unseen (top : i + pagesNeeded needed = pageCount) (whole : pageOffset needed = 0) :
      Scanned s i needed (.ok (true, i * pageSize))
  /-- The range ends inside the last page, and all its pages are free. -/
  | endless (top : i + pagesNeeded needed = pageCount) (cut : pageOffset needed ≠ 0)
      (free : s.FreePages i pageCount) : Scanned s i needed (.error .divergence)
  /-- The pages of the range and the one behind it are free. -/
  | free (below : i + pagesNeeded needed < pageCount)
      (free : s.FreePages i (i + pagesNeeded needed + 1)) :
      Scanned s i needed (.ok (true, i * pageSize))
  /-- A page is in use. -/
  | blocked (m : Nat) (above : i ≤ m) (inside : m < pageCount) (near : m ≤ i + pagesNeeded needed)
      (fits : i + pagesNeeded needed < pageCount ∨
        i + pagesNeeded needed = pageCount ∧ pageOffset needed ≠ 0)
      (inUse : s.searchable m = true) (free : s.FreePages i m) :
      Scanned s i needed (.ok (false, m * pageSize))

/-- The last page that is looked at. -/
theorem lastPageNeeded_eq (word : needed < wordLimit) (inside : i < pageCount) :
    (i + pagesNeeded needed < pageCount →
      lastPageNeeded (i * pageSize) needed = (i + pagesNeeded needed) * pageSize) ∧
    (i + pagesNeeded needed = pageCount → pageOffset needed ≠ 0 →
      lastPageNeeded (i * pageSize) needed = uintptrMax) ∧
    (i + pagesNeeded needed = pageCount → pageOffset needed = 0 →
      lastPageNeeded (i * pageSize) needed = 0) := by
  unfold lastPageNeeded pageIncr pageFloor pageOffset pagesNeeded wrap
  unfold pageCount maxVirtMem at *
  unfold wordLimit at *
  unfold pageSize uintptrMax at *
  refine ⟨fun below => ?_, fun top cut => ?_, fun top whole => ?_⟩
  · split
    · split <;> omega
    · omega
  · rw [if_pos cut]
    split <;> omega
  · rw [if_neg (by omega)]
    omega

/-- `free_from_here` from a page on. -/
theorem freeFromHere_scanned (word : needed < wordLimit) (inside : i < pageCount) :
    Scanned s i needed (s.freeFromHere (i * pageSize) needed) := by
  obtain ⟨lastBelow, lastCut, lastWhole⟩ := lastPageNeeded_eq word inside
  have bound : i * pageSize > maxVirtMem - needed ↔ pageCount < i + pagesNeeded needed := by
    unfold pagesNeeded
    unfold pageCount maxVirtMem at *
    unfold wordLimit at word
    unfold pageSize at *
    omega
  unfold Space.freeFromHere
  by_cases past : pageCount < i + pagesNeeded needed
  · rw [if_pos (bound.mpr past)]
    exact .beyond past
  · rw [if_neg (mt bound.mp past)]
    by_cases top : i + pagesNeeded needed = pageCount
    · by_cases whole : pageOffset needed = 0
      · rw [lastWhole top whole]
        have positive : 0 < i := by
          unfold pagesNeeded at top
          unfold pageOffset at whole
          unfold pageCount maxVirtMem at *
          unfold wordLimit at word
          unfold pageSize at *
          omega
        rw [Space.firstMapped, if_neg (by unfold pageSize; omega)]
        exact .unseen top whole
      · rw [lastCut top whole]
        have enough : pageCount < pageCount + 2 + i := by omega
        rcases firstMapped_toEnd (s := s) inside enough with
          ⟨endless, free⟩ | ⟨m, above, below, inUse, free, found⟩
        · rw [endless]
          exact .endless top whole free
        · rw [found, ok_bind]
          simp only [pageFloor_of_dvd (Nat.dvd_mul_left pageSize m)]
          exact .blocked m above below (by omega) (.inr ⟨top, whole⟩) inUse free
    · have below : i + pagesNeeded needed < pageCount := by omega
      rw [lastBelow below]
      have enough : i + pagesNeeded needed + 1 < pageCount + 2 + i := by omega
      rcases firstMapped_scan (s := s) below (by omega) enough with
        ⟨nothing, free⟩ | ⟨m, above, near, inUse, free, found⟩
      · rw [nothing]
        exact .free below free
      · rw [found, ok_bind]
        simp only [pageFloor_of_dvd (Nat.dvd_mul_left pageSize m)]
        exact .blocked m above (by omega) near (.inl below) inUse free

/-! ## The loop over the address space -/

/-- The `page` that the loop stands at: the page `i`, or the last word behind the last page. -/
def pageAt (i : Nat) : Nat := if i < pageCount then i * pageSize else uintptrMax

/-- The increment goes to the next page. -/
theorem pageIncr_pageAt (inside : i < pageCount) : pageIncr (i * pageSize) = pageAt (i + 1) := by
  unfold pageAt
  split
  · rename_i next
    exact pageIncr_page next
  · exact pageIncr_last (by omega)

/-- A place with room below the end: the pages from `j` on and the one behind them are free, and the
loop looks at `j`. -/
structure Roomy (s : Space τ) (len j : Nat) : Prop where
  /-- The loop looks at the page. -/
  seen : j + 1 < pageCount
  /-- The pages end before the address space. -/
  below : j + pagesNeeded len < pageCount
  /-- They are free. -/
  free : s.FreePages j (j + pagesNeeded len + 1)

/-- The first page of the last range. -/
def topPage (len : Nat) : Nat := pageCount - pagesNeeded len

/-- From the page `i` on the loop comes to the last range, if it finds no room before: it starts
there, or the page before the range is in use. -/
structure TopTried (s : Space τ) (len i : Nat) : Prop where
  /-- The range is in the address space. -/
  fits : pagesNeeded len ≤ pageCount
  /-- It is not before the start. -/
  above : i ≤ topPage len
  /-- The loop looks at its first page. -/
  seen : topPage len + 1 < pageCount
  /-- The loop stops before it. -/
  stops : i = topPage len ∨ s.searchable (topPage len - 1) = true

/-- What the loop answers from the page `i` on. -/
inductive Searched (s : Space τ) (len i : Nat) : Except Fault (Option Nat) → Prop where
  /-- There is room. -/
  | room (j : Nat) (above : i ≤ j) (roomy : Roomy s len j) :
      Searched s len i (.ok (some (j * pageSize)))
  /-- The last range is returned, unseen. -/
  | unseen (full : ∀ j, i ≤ j → ¬ Roomy s len j) (top : TopTried s len i)
      (whole : pageOffset len = 0) : Searched s len i (.ok (some (topPage len * pageSize)))
  /-- The last range is free, and the loop over its pages does not end. -/
  | endless (full : ∀ j, i ≤ j → ¬ Roomy s len j) (top : TopTried s len i)
      (cut : pageOffset len ≠ 0) (free : s.FreePages (topPage len) pageCount) :
      Searched s len i (.error .divergence)
  /-- The last range is in use. -/
  | taken (full : ∀ j, i ≤ j → ¬ Roomy s len j) (top : TopTried s len i) (cut : pageOffset len ≠ 0)
      (used : ¬ s.FreePages (topPage len) pageCount) : Searched s len i (.ok none)
  /-- The loop does not come to the last range. -/
  | nothing (full : ∀ j, i ≤ j → ¬ Roomy s len j) (missed : ¬ TopTried s len i) :
      Searched s len i (.ok none)

/-- A page in use in the way moves the loop behind it. -/
theorem Searched.skip {outcome : Except Fault (Option Nat)} (inUse : s.searchable m = true)
    (free : s.FreePages i m) (above : i ≤ m) (near : m ≤ i + pagesNeeded len)
    (below : i + pagesNeeded len < pageCount) (rest : Searched s len (m + 1) outcome) :
    Searched s len i outcome := by
  have full : (∀ j, m + 1 ≤ j → ¬ Roomy s len j) → ∀ j, i ≤ j → ¬ Roomy s len j := by
    intro later j from_ roomy
    by_cases behind : m + 1 ≤ j
    · exact later j behind roomy
    · have clear := roomy.free m (by omega) (by omega)
      rw [inUse] at clear
      cases clear
  have top : TopTried s len (m + 1) ↔ TopTried s len i := by
    constructor
    · intro tried
      refine ⟨tried.fits, by have := tried.above; omega, tried.seen, .inr ?_⟩
      rcases tried.stops with same | used
      · rw [← same, Nat.add_sub_cancel]
        exact inUse
      · exact used
    · intro tried
      have before : i < topPage len := by
        unfold topPage
        omega
      have used := tried.stops.resolve_left (Nat.ne_of_lt before)
      have first : m ≤ topPage len - 1 := by
        by_contra behind
        have clear := free (topPage len - 1) (by omega) (by omega)
        rw [used] at clear
        cases clear
      exact ⟨tried.fits, by omega, tried.seen, .inr used⟩
  cases rest with
  | room j later roomy => exact .room j (by omega) roomy
  | unseen none tried whole => exact .unseen (full none) (top.mp tried) whole
  | endless none tried cut free => exact .endless (full none) (top.mp tried) cut free
  | taken none tried cut used => exact .taken (full none) (top.mp tried) cut used
  | nothing none missed => exact .nothing (full none) (mt top.mpr missed)

/-- No room is left from the last range on. -/
theorem full_of_top (top : pageCount ≤ i + pagesNeeded len) : ∀ j, i ≤ j → ¬ Roomy s len j := by
  intro j above roomy
  have below := roomy.below
  omega

/-- The loop comes to the last range when it stands there. -/
theorem topTried_of_top (top : i + pagesNeeded len = pageCount) (seen : i + 1 < pageCount) :
    i = topPage len ∧ TopTried s len i := by
  have same : i = topPage len := by
    unfold topPage
    omega
  exact ⟨same, by omega, by omega, by omega, .inl same⟩

/-- The loop from a page on. -/
theorem findFrom_searched (word : len < wordLimit) (positive : 0 < i) (inside : i ≤ pageCount)
    (enough : pageCount < fuel + i) : Searched s len i (s.findFrom len fuel (pageAt i)) := by
  induction fuel generalizing i with
  | zero => omega
  | succ fuel ih =>
    rw [Space.findFrom]
    by_cases seen : i + 1 < pageCount
    · have here : pageAt i = i * pageSize := if_pos (by omega)
      have looks : i * pageSize < maxVirtMem - pageSize ∧ i * pageSize ≠ 0 := by
        unfold pageCount maxVirtMem pageSize at *
        omega
      rw [here, if_pos looks]
      have scanned := freeFromHere_scanned (s := s) (i := i) word (by omega)
      generalize s.freeFromHere (i * pageSize) len = outcome at scanned
      cases scanned with
      | beyond past =>
        refine .nothing (full_of_top (Nat.le_of_lt past)) fun tried => ?_
        have fits := tried.fits
        have above := tried.above
        unfold topPage at above
        omega
      | unseen top whole =>
        obtain ⟨same, tried⟩ := topTried_of_top (s := s) top seen
        rw [ok_bind]
        simp only [if_true]
        rw [congrArg (· * pageSize) same]
        exact .unseen (full_of_top (Nat.le_of_eq top.symm)) tried whole
      | endless top cut free =>
        obtain ⟨same, tried⟩ := topTried_of_top (s := s) top seen
        exact .endless (full_of_top (Nat.le_of_eq top.symm)) tried cut (same ▸ free)
      | free below free => exact .room i (Nat.le_refl _) ⟨seen, below, free⟩
      | blocked m above inside near fits inUse free =>
        have notNull : ¬ m * pageSize = 0 := by
          unfold pageSize
          omega
        rw [ok_bind]
        simp only [Bool.false_eq_true, if_false, if_neg notNull, pageIncr_pageAt inside]
        have rest := ih (i := m + 1) (by omega) inside (by omega)
        rcases fits with below | ⟨top, cut⟩
        · exact rest.skip inUse free above near below
        · -- Behind the start of the last range there is nothing left.
          obtain ⟨same, tried⟩ := topTried_of_top (s := s) top seen
          have used : ¬ s.FreePages (topPage len) pageCount := by
            intro clear
            have here := clear m (by omega) inside
            rw [inUse] at here
            cases here
          have missed : ¬ TopTried s len (m + 1) := fun late => by
            have := late.above
            omega
          generalize s.findFrom len fuel (pageAt (m + 1)) = answer at rest
          cases rest with
          | room j later roomy => exact absurd roomy (full_of_top (by omega) j later)
          | unseen _ late _ => exact absurd late missed
          | endless _ late _ _ => exact absurd late missed
          | taken _ late _ _ => exact absurd late missed
          | nothing _ _ => exact .taken (full_of_top (Nat.le_of_eq top.symm)) tried cut used
    · have ends : ¬ (pageAt i < maxVirtMem - pageSize ∧ pageAt i ≠ 0) := by
        unfold pageAt
        unfold pageCount maxVirtMem pageSize at *
        unfold uintptrMax
        split <;> omega
      rw [if_neg ends]
      refine .nothing (fun j above roomy => ?_) fun tried => ?_
      · have := roomy.seen
        omega
      · have above := tried.above
        have := tried.seen
        omega

/-- `find_free_virtmem`. -/
theorem findFreeVirtmem_searched (word : len < wordLimit) :
    Searched s len 1 (s.findFreeVirtmem len) :=
  findFrom_searched word (by decide) (by decide) (by decide)

/-! ## When the answers are right -/

/-- The base is a page with room in the address space, and every page of the range is free. -/
structure FoundWell (s : Space τ) (base len : Nat) : Prop where
  /-- It is a page. -/
  aligned : pageSize ∣ base
  /-- The range ends in the address space. -/
  below : base + len ≤ maxVirtMem
  /-- No page of it is in use. -/
  unmapped : s.Unmapped base len

/-- The search is right in the last range: nothing is to be seen, or something stops the scan. -/
def TopRight (s : Space τ) (len : Nat) : Prop :=
  if pageOffset len = 0 then s.FreePages (topPage len) pageCount
  else ¬ s.FreePages (topPage len) pageCount

/-- A page with its pages free is found well. -/
theorem foundWell_of_free (fits : j + pagesNeeded len ≤ pageCount)
    (free : s.FreePages j (j + pagesNeeded len)) : FoundWell s (j * pageSize) len := by
  refine ⟨Nat.dvd_mul_left _ _, ?_, (unmapped_iff len).mpr free⟩
  unfold pagesNeeded at fits
  unfold pageCount at fits
  unfold maxVirtMem pageSize at *
  omega

/-- The last range ends with the address space. -/
theorem TopTried.topPage_add {i : Nat} (top : TopTried s len i) :
    topPage len + pagesNeeded len = pageCount := by
  have fits := top.fits
  unfold topPage
  omega

/-- The search ends with a right answer exactly when there is room for the pages and one more below
the end of the address space, or the loop does not come to the last range, or the search is right
there. -/
theorem findFreeVirtmem_right_iff (word : len < wordLimit) :
    (∃ found, s.findFreeVirtmem len = .ok found ∧ ∀ base, found = some base → FoundWell s base len) ↔
      (∃ j, 1 ≤ j ∧ Roomy s len j) ∨ ¬ TopTried s len 1 ∨ TopRight s len := by
  have searched := findFreeVirtmem_searched (s := s) word
  generalize s.findFreeVirtmem len = outcome at searched
  cases searched with
  | room j above roomy =>
    refine ⟨fun _ => .inl ⟨j, above, roomy⟩, fun _ => ⟨_, rfl, ?_⟩⟩
    rintro base ⟨⟩
    exact foundWell_of_free (Nat.le_of_lt roomy.below)
      (roomy.free.mono (Nat.le_refl _) (Nat.le_succ _))
  | unseen full top whole =>
    have same := top.topPage_add
    have right : TopRight s len ↔ s.FreePages (topPage len) pageCount := by
      unfold TopRight
      rw [if_pos whole]
    rw [right]
    constructor
    · rintro ⟨found, returned, well⟩
      cases returned
      have unmapped := (unmapped_iff len).mp (well _ rfl).unmapped
      rw [same] at unmapped
      exact .inr (.inr unmapped)
    · rintro (⟨j, above, roomy⟩ | missed | free)
      · exact absurd roomy (full j above)
      · exact absurd top missed
      · refine ⟨_, rfl, ?_⟩
        rintro base ⟨⟩
        exact foundWell_of_free (Nat.le_of_eq same) (same.symm ▸ free)
  | endless full top cut free =>
    constructor
    · rintro ⟨found, none, -⟩
      cases none
    · rintro (⟨j, above, roomy⟩ | missed | right)
      · exact absurd roomy (full j above)
      · exact absurd top missed
      · unfold TopRight at right
        rw [if_neg cut] at right
        exact absurd free right
  | taken full top cut used =>
    refine ⟨fun _ => .inr (.inr ?_), fun _ => ⟨none, rfl, fun base none => nomatch none⟩⟩
    unfold TopRight
    rw [if_neg cut]
    exact used
  | nothing full missed =>
    exact ⟨fun _ => .inr (.inl missed), fun _ => ⟨none, rfl, fun base none => nomatch none⟩⟩

/-- From a page on, `free_from_here` accepts only free ranges, apart from a range that ends with the
address space. -/
theorem freeFromHere_page_iff (word : needed < wordLimit) (inside : i < pageCount) :
    (∀ next, s.freeFromHere (i * pageSize) needed = .ok (true, next) →
      s.Unmapped (i * pageSize) needed) ↔
      (i * pageSize + needed = maxVirtMem → s.Unmapped (i * pageSize) needed) := by
  have top : i * pageSize + needed = maxVirtMem ↔
      i + pagesNeeded needed = pageCount ∧ pageOffset needed = 0 := by
    unfold pagesNeeded pageOffset
    unfold pageCount maxVirtMem at *
    unfold wordLimit at word
    unfold pageSize at *
    omega
  have scanned := freeFromHere_scanned (s := s) word inside
  generalize s.freeFromHere (i * pageSize) needed = outcome at scanned
  cases scanned with
  | beyond past =>
    refine ⟨fun _ ends => ?_, fun _ next none => nomatch none⟩
    have := (top.mp ends).1
    omega
  | unseen ends whole => exact ⟨fun right _ => right _ rfl, fun right next _ => right (top.mpr ⟨ends, whole⟩)⟩
  | endless ends cut free =>
    exact ⟨fun _ reached => absurd (top.mp reached).2 cut, fun _ next none => nomatch none⟩
  | free below free =>
    have unmapped : s.Unmapped (i * pageSize) needed :=
      (unmapped_iff needed).mpr (free.mono (Nat.le_refl _) (Nat.le_succ _))
    exact ⟨fun _ _ => unmapped, fun _ _ _ => unmapped⟩
  | blocked m above inside near fits inUse free =>
    refine ⟨fun _ ends => ?_, fun _ next none => ?_⟩
    · obtain ⟨whole, offset⟩ := top.mp ends
      rcases fits with below | ⟨-, cut⟩
      · omega
      · exact absurd offset cut
    · cases none

/-- The same from the last word on, where an increment leaves a `page`. -/
theorem freeFromHere_last_iff :
    (∀ next, s.freeFromHere uintptrMax needed = .ok (true, next) → s.Unmapped uintptrMax needed) ↔
      (uintptrMax + needed = maxVirtMem → s.Unmapped uintptrMax needed) := by
  by_cases none : needed = 0
  · have unmapped : s.Unmapped uintptrMax needed := fun x above below => absurd above (by omega)
    exact ⟨fun _ _ => unmapped, fun _ _ _ => unmapped⟩
  · by_cases one : needed = 1
    · subst one
      have accepts : s.freeFromHere uintptrMax 1 = .ok (true, uintptrMax) := rfl
      exact ⟨fun right _ => right _ accepts, fun right _ _ => right rfl⟩
    · have beyond : uintptrMax > maxVirtMem - needed := by
        unfold uintptrMax maxVirtMem
        omega
      unfold Space.freeFromHere
      rw [if_pos beyond]
      refine ⟨fun _ ends => ?_, fun _ next none => nomatch none⟩
      unfold uintptrMax maxVirtMem at ends
      omega

/-- For every state of the searchable pages: `find_free_virtmem` ends with a right answer exactly
when there is room below the end of the address space, or it does not come to the last range, or it
is right there; and what `free_from_here` accepts is free exactly when the range does not end with
the address space or happens to be free. -/
theorem virtual_search_right_iff (s : Space τ) :
    (∀ len < wordLimit,
      (∃ found, s.findFreeVirtmem len = .ok found ∧
        ∀ base, found = some base → FoundWell s base len) ↔
      (∃ j, 1 ≤ j ∧ Roomy s len j) ∨ ¬ TopTried s len 1 ∨ TopRight s len) ∧
    ∀ base < wordLimit, pageSize ∣ base ∨ base = uintptrMax → ∀ needed < wordLimit,
      ((∀ next, s.freeFromHere base needed = .ok (true, next) → s.Unmapped base needed) ↔
        (base + needed = maxVirtMem → s.Unmapped base needed)) := by
  refine ⟨fun len word => findFreeVirtmem_right_iff word, ?_⟩
  rintro base word (⟨i, rfl⟩ | rfl) needed small
  · rw [Nat.mul_comm pageSize i] at *
    refine freeFromHere_page_iff small ?_
    unfold pageCount maxVirtMem
    unfold wordLimit pageSize at *
    omega
  · exact freeFromHere_last_iff

/-- With the first three pages mapped, the search passes them and finds the fourth. -/
theorem virtual_search_right_passes :
    (⟨fun m => 1 ≤ m && m ≤ 3, ()⟩ : Space Unit).findFreeVirtmem 0x1000 = .ok (some 0x4000) ∧
      FoundWell (⟨fun m => 1 ≤ m && m ≤ 3, ()⟩ : Space Unit) 0x4000 0x1000 := by
  have returns : (⟨fun m => 1 ≤ m && m ≤ 3, ()⟩ : Space Unit).findFreeVirtmem 0x1000 =
      .ok (some 0x4000) := by
    decide +kernel
  have room : Roomy (⟨fun m => 1 ≤ m && m ≤ 3, ()⟩ : Space Unit) 0x1000 4 := by
    refine ⟨by decide, by decide, fun i above _ => ?_⟩
    have behind : ¬ i ≤ 3 := by omega
    simp [behind]
  obtain ⟨found, same, right⟩ :=
    ((virtual_search_right_iff _).1 0x1000 (by decide)).mpr (.inl ⟨4, by decide, room⟩)
  rw [returns] at same
  exact ⟨returns, right _ (Except.ok.inj same).symm⟩

/-- With one page mapped, a request up to the end of the address space is answered with a range that
holds the page. -/
theorem virtual_search_unseen :
    (⟨fun m => m == 0x500, ()⟩ : Space Unit).findFreeVirtmem 0xFFFFF000 = .ok (some 0x1000) ∧
      ¬ FoundWell (⟨fun m => m == 0x500, ()⟩ : Space Unit) 0x1000 0xFFFFF000 := by
  refine ⟨by decide +kernel, fun well => ?_⟩
  have free := well.unmapped 0x500000 (by decide) (by decide)
  revert free
  decide

end FelineOS.Paging
