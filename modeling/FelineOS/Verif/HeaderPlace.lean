import FelineOS.Kernel.PmmBoot
import FelineOS.Library.Skipping

/-!
# The place of the first chunk

`find_space_in_area` of `start_phys_mem_manager` looks for room for the first chunk of headers in
an available region. It is a search past the unavailable regions (`Obstacles`): at a place that one
of them blocks it goes on at the next page behind that region. As long as no sum wraps, it ends and
comes to rest at the lowest page that stays clear of every region. The end of the available region
is looked at only behind a region that is in the way, before the rounding, so the place it returns
need not lie in the available region.
-/

namespace FelineOS.PhysMem

open Library (Obstacles)
open Boot (Region)

variable {unavailable : List Region} {a e size p x fuel : Nat} {u : Region}

/-- The first page boundary at or above an address. -/
def nextPage (x : Nat) : Nat := (x + (pageSize - 1)) / pageSize * pageSize

/-- The boundary is one, and no other is closer. -/
theorem nextPage_spec (x : Nat) : pageSize ∣ nextPage x ∧ x ≤ nextPage x ∧
    ∀ p, pageSize ∣ p → x ≤ p → nextPage x ≤ p := by
  unfold nextPage pageSize
  refine ⟨by omega, by omega, fun p aligned above => ?_⟩
  omega

/-- It is less than a page away. -/
theorem nextPage_lt (x : Nat) : nextPage x < x + pageSize := by
  unfold nextPage pageSize
  omega

/-- `round_up_to_alignment` rounds to that boundary, where it is a word. -/
theorem roundUpToAlignment_eq (word : nextPage x < wordLimit) : roundUpToAlignment x = nextPage x := by
  unfold nextPage pageSize wordLimit at *
  unfold roundUpToAlignment wrap wordLimit pageSize
  split <;> omega

/-- The unavailable regions as obstacles for `size` bytes before the end `e`. -/
def regionObstacles (unavailable : List Region) (e size : Nat) : Obstacles Region where
  all := unavailable
  blocks p u := decide (p ≤ u.addr + u.len ∧ u.addr ≤ p + size)
  final u := decide (e ≤ u.addr + u.len + size)
  behind u := nextPage (u.addr + u.len + 1)

/-- No sum that the search forms leaves the words. -/
structure SumsFit (unavailable : List Region) (a e size : Nat) : Prop where
  /-- The end of the available region. -/
  stop : e < wordLimit
  /-- The first place. -/
  first : nextPage a + size < wordLimit
  /-- The place behind each region. -/
  later : ∀ u ∈ unavailable, nextPage (u.addr + u.len + 1) + size < wordLimit

/-- No sum of the search for room in `[a, e)` wraps. A region that begins behind the places that the
search can come to is never in its way, and may end where it likes. -/
structure SumsReached (unavailable : List Region) (a e size : Nat) : Prop where
  /-- The first place. -/
  first : nextPage a + size < wordLimit
  /-- The place behind each region in reach. -/
  later : ∀ u ∈ unavailable, u.addr ≤ max (nextPage a + size) (e + pageSize) →
    nextPage (u.addr + u.len + 1) + size < wordLimit

/-- Where no sum is too large, none in reach is. -/
theorem SumsFit.reached (sums : SumsFit unavailable a e size) : SumsReached unavailable a e size where
  first := sums.first
  later u listed _ := sums.later u listed

/-- The loop over the regions stops at the obstacle that is met. -/
theorem findSpaceLoop_eq (recursiveSelf : Nat → Except Fault Nat) (here : p + size < wordLimit)
    (later : ∀ u ∈ unavailable, u.addr ≤ p + size →
      nextPage (u.addr + u.len + 1) + size < wordLimit) :
    findSpaceLoop recursiveSelf p e size unavailable =
      match (regionObstacles unavailable e size).meets p with
      | none => .ok p
      | some u => if e ≤ u.addr + u.len + size then .ok 0 else recursiveSelf (u.addr + u.len + 1) := by
  induction unavailable with
  | nil => rfl
  | cons u rest ih =>
    have rest := ih fun v listed => later v (List.mem_cons_of_mem _ listed)
    unfold findSpaceLoop isOverlap
    rw [wrap_of_lt here]
    unfold Obstacles.meets regionObstacles at rest ⊢
    by_cases reached : u.addr ≤ p + size
    · have fits := later u List.mem_cons_self reached
      have above := (nextPage_spec (u.addr + u.len + 1)).2.1
      have ends : wrap (u.addr + u.len) = u.addr + u.len := wrap_of_lt (by omega)
      have behind : wrap (u.addr + u.len + 1) = u.addr + u.len + 1 := wrap_of_lt (by omega)
      have room : wrap (u.addr + u.len + size) = u.addr + u.len + size := wrap_of_lt (by omega)
      rw [ends, behind, room]
      by_cases blocked : p ≤ u.addr + u.len ∧ u.addr ≤ p + size
      · rw [List.find?_cons_of_pos (by simpa using blocked), if_neg (by omega)]
        by_cases final : e ≤ u.addr + u.len + size
        · rw [if_neg (by omega)]
          simp only [if_pos final]
        · rw [if_pos (by omega)]
          simp only [if_neg final]
      · rw [List.find?_cons_of_neg (by simpa using blocked), if_pos (by omega)]
        exact rest
    · -- A region behind the place is passed by, whatever its end wraps to.
      rw [List.find?_cons_of_neg (by simp [reached]), if_pos (.inr (by omega))]
      exact rest

/-- `find_space_in_area` is the search past the regions. -/
theorem findSpaceInArea_eq {reach : Nat} (here : nextPage x + size < wordLimit)
    (within : nextPage x + size ≤ reach) (room : e + pageSize ≤ reach)
    (later : ∀ u ∈ unavailable, u.addr ≤ reach → nextPage (u.addr + u.len + 1) + size < wordLimit) :
    findSpaceInArea unavailable e size fuel x =
      match (regionObstacles unavailable e size).seek fuel (nextPage x) with
      | none => .error .divergence
      | some none => .ok 0
      | some (some p) => .ok p := by
  induction fuel generalizing x with
  | zero => rfl
  | succ fuel ih =>
    unfold findSpaceInArea Obstacles.seek
    rw [roundUpToAlignment_eq (by omega),
      findSpaceLoop_eq _ here fun u listed low => later u listed (Nat.le_trans low within)]
    cases met : (regionObstacles unavailable e size).meets (nextPage x) with
    | none => rfl
    | some u =>
      obtain ⟨listed, blocked⟩ := Obstacles.of_meets met
      by_cases final : e ≤ u.addr + u.len + size
      · simp [regionObstacles, final]
      · simp only [regionObstacles, final, decide_false, Bool.false_eq_true, if_false]
        simp only [regionObstacles, decide_eq_true_eq] at blocked
        -- The next place is less than a page behind the region, which ends `size` before the end.
        have close := nextPage_lt (u.addr + u.len + 1)
        exact ih (later u listed (Nat.le_trans blocked.2 within)) (by omega)

/-! ## Where the search comes to rest -/

/-- The bytes at the place stay clear of every region, with a byte between, as the code tests it. -/
def ClearAt (unavailable : List Region) (size p : Nat) : Prop :=
  ∀ u ∈ unavailable, u.addr + u.len < p ∨ p + size < u.addr

/-- The lowest page from the address on that is clear. -/
structure LowestClear (unavailable : List Region) (a size p : Nat) : Prop where
  /-- It is a page. -/
  aligned : pageSize ∣ p
  /-- It is not below the address. -/
  above : a ≤ p
  /-- It is clear. -/
  clear : ClearAt unavailable size p
  /-- No page before it is. -/
  lowest : ∀ q, pageSize ∣ q → a ≤ q → ClearAt unavailable size q → p ≤ q

/-- No region blocks exactly the clear places. -/
theorem meets_none_iff :
    (regionObstacles unavailable e size).meets p = none ↔ ClearAt unavailable size p := by
  rw [Obstacles.meets_eq_none]
  refine forall₂_congr fun u _ => ?_
  simp only [regionObstacles, decide_eq_false_iff_not]
  omega

/-- Every place that is tried is a page at or above the start. -/
theorem tried_page (tried : (regionObstacles unavailable e size).Tried (nextPage a) p) :
    pageSize ∣ p ∧ a ≤ p := by
  have above := (nextPage_spec a).2.1
  have ascending := tried.le (fun u => u.addr + u.len)
    (fun p u blocked => by
      simp only [regionObstacles, decide_eq_true_eq] at blocked
      exact blocked.1)
    (fun u _ => (nextPage_spec (u.addr + u.len + 1)).2.1)
  refine ⟨?_, Nat.le_trans above ascending⟩
  rcases Relation.ReflTransGen.cases_tail tried with rfl | ⟨q, -, u, -, -, rfl⟩
  · exact (nextPage_spec a).1
  · exact (nextPage_spec (u.addr + u.len + 1)).1

/-- The search rests at the lowest clear page. -/
theorem lowestClear_of_rests (rests : (regionObstacles unavailable e size).Rests (nextPage a) p) :
    LowestClear unavailable a size p := by
  obtain ⟨aligned, above⟩ := tried_page rests.1
  refine ⟨aligned, above, meets_none_iff.mp rests.2, fun q page high clear => ?_⟩
  refine rests.1.le_free ((nextPage_spec a).2.2 q page high) (meets_none_iff.mpr clear) ?_
  intro p u blocked before free
  simp only [regionObstacles, decide_eq_true_eq, decide_eq_false_iff_not] at blocked free
  exact (nextPage_spec (u.addr + u.len + 1)).2.2 q page (by omega)

/-- The lowest clear page is determined. -/
theorem LowestClear.unique {q : Nat} (one : LowestClear unavailable a size p)
    (two : LowestClear unavailable a size q) : p = q :=
  Nat.le_antisymm (one.lowest q two.aligned two.above two.clear)
    (two.lowest p one.aligned one.above one.clear)

/-- A page of the available region `[a, e)` with room for the bytes, of which none is in an
unavailable region. -/
structure PlacedWell (unavailable : List Region) (a e size location : Nat) : Prop where
  /-- It is a page. -/
  aligned : pageSize ∣ location
  /-- It is not before the available region. -/
  above : a ≤ location
  /-- The bytes end in the available region. -/
  within : location + size ≤ e
  /-- No byte is unavailable. -/
  apart : ∀ x, location ≤ x → x < location + size →
    ∀ u ∈ unavailable, ¬ (u.addr ≤ x ∧ x < u.addr + u.len)

/-- A clear page is placed well when it ends in the region. -/
theorem LowestClear.placedWell_iff (clear : LowestClear unavailable a size p) :
    PlacedWell unavailable a e size p ↔ p + size ≤ e := by
  refine ⟨PlacedWell.within, fun fits => ⟨clear.aligned, clear.above, fits, ?_⟩⟩
  intro x high low u listed inside
  have separate := clear.clear u listed
  omega

/-- What a search that returned has come to: the lowest clear page, or null where it gave up. -/
theorem findSpaceInArea_ok (sums : SumsReached unavailable a e size)
    (returned : findSpaceInArea unavailable e size fuel a = .ok p) :
    (LowestClear unavailable a size p ∧
        ∀ u, ¬ (regionObstacles unavailable e size).GivesUp (nextPage a) u) ∨
      p = 0 ∧ ∃ u, (regionObstacles unavailable e size).GivesUp (nextPage a) u := by
  rw [findSpaceInArea_eq sums.first (Nat.le_max_left _ _) (Nat.le_max_right _ _) sums.later]
    at returned
  cases sought : (regionObstacles unavailable e size).seek fuel (nextPage a) with
  | none =>
    rw [sought] at returned
    cases returned
  | some r =>
    rcases Obstacles.seek_spec sought with ⟨q, rfl, rests⟩ | ⟨rfl, quits⟩
    · rw [sought] at returned
      cases returned
      exact .inl ⟨lowestClear_of_rests rests, fun u => rests.not_givesUp⟩
    · rw [sought] at returned
      cases returned
      exact .inr ⟨rfl, quits⟩

/-- The search always ends. What it returns is placed well exactly when the lowest clear page is null
or ends in the available region, or when the search gives up on the way: at a region that is in the
way at a place it tries and behind which the bytes do not end before the end of the available
region. -/
theorem findSpaceInArea_placed_iff (sums : SumsFit unavailable a e size) :
    ∃ location, (∀ fuel > unavailable.length,
        findSpaceInArea unavailable e size fuel a = .ok location) ∧
      ((location ≠ 0 → PlacedWell unavailable a e size location) ↔
        (∃ p, LowestClear unavailable a size p ∧ (p = 0 ∨ p + size ≤ e)) ∨
          ∃ u, (regionObstacles unavailable e size).GivesUp (nextPage a) u) := by
  have reach : ∀ p u, (regionObstacles unavailable e size).blocks p u = true →
      p ≤ u.addr + u.len := by
    intro p u blocked
    simp only [regionObstacles, decide_eq_true_eq] at blocked
    exact blocked.1
  have beyond : ∀ u ∈ unavailable, u.addr + u.len < nextPage (u.addr + u.len + 1) :=
    fun u _ => (nextPage_spec (u.addr + u.len + 1)).2.1
  have found : ∀ fuel > unavailable.length,
      (∃ p, findSpaceInArea unavailable e size fuel a = .ok p ∧
        (regionObstacles unavailable e size).Rests (nextPage a) p) ∨
      findSpaceInArea unavailable e size fuel a = .ok 0 ∧
        ∃ u, (regionObstacles unavailable e size).GivesUp (nextPage a) u := by
    intro fuel enough
    rw [findSpaceInArea_eq sums.first (Nat.le_max_left _ _) (Nat.le_max_right _ _)
      sums.reached.later]
    have listed : (regionObstacles unavailable e size).all.length < fuel := enough
    obtain ⟨r, ends⟩ : ∃ r, (regionObstacles unavailable e size).seek fuel (nextPage a) = some r :=
      Obstacles.seek_ends _ reach beyond listed
    rcases Obstacles.seek_spec ends with ⟨p, rfl, rests⟩ | ⟨rfl, quits⟩
    · exact .inl ⟨p, by rw [ends], rests⟩
    · exact .inr ⟨by rw [ends], quits⟩
  rcases found _ (Nat.lt_succ_self _) with ⟨p, -, rests⟩ | ⟨-, u, quits⟩
  · refine ⟨p, fun fuel enough => ?_, ?_⟩
    · rcases found fuel enough with ⟨q, returned, other⟩ | ⟨-, u, quits⟩
      · rw [returned, (lowestClear_of_rests other).unique (lowestClear_of_rests rests)]
      · exact absurd quits rests.not_givesUp
    · have clear := lowestClear_of_rests rests
      rw [clear.placedWell_iff]
      constructor
      · intro fits
        by_cases null : p = 0
        · exact .inl ⟨p, clear, .inl null⟩
        · exact .inl ⟨p, clear, .inr (fits null)⟩
      · rintro (⟨q, other, fits⟩ | ⟨u, quits⟩) found
        · rw [← clear.unique other] at fits
          exact fits.resolve_left found
        · exact absurd quits rests.not_givesUp
  · refine ⟨0, fun fuel enough => ?_, fun _ => .inr ⟨u, quits⟩, fun _ null => absurd rfl null⟩
    rcases found fuel enough with ⟨q, -, other⟩ | ⟨returned, -⟩
    · exact absurd quits other.not_givesUp
    · exact returned

/-- A region in front sends the search to the third page, which ends in time. -/
theorem findSpaceInArea_placed_third :
    (∀ fuel > 1, findSpaceInArea [⟨0x1000, 0x1000⟩] 0x10000 0x1000 fuel 0x1000 = .ok 0x3000) ∧
      PlacedWell [⟨0x1000, 0x1000⟩] 0x1000 0x10000 0x1000 0x3000 := by
  have sums : SumsFit [⟨0x1000, 0x1000⟩] 0x1000 0x10000 0x1000 := ⟨by decide, by decide, by decide⟩
  obtain ⟨location, returned, exactly⟩ := findSpaceInArea_placed_iff sums
  have same : findSpaceInArea [⟨0x1000, 0x1000⟩] 0x10000 0x1000 2 0x1000 = .ok 0x3000 := by decide
  obtain rfl : 0x3000 = location :=
    Except.ok.inj (same.symm.trans (returned 2 (by decide)))
  have lowest : LowestClear [⟨0x1000, 0x1000⟩] 0x1000 0x1000 0x3000 := by
    refine ⟨by decide, by decide, by simp [ClearAt], fun q page above clear => ?_⟩
    have separate := clear _ List.mem_cons_self
    unfold pageSize at page
    simp only at separate
    omega
  exact ⟨returned, exactly.mpr (.inl ⟨_, lowest, .inr (by decide)⟩) (by decide)⟩

/-- A region without a whole page: the place is its start, and the bytes end behind it. -/
theorem findSpaceInArea_outside :
    (∀ fuel > 0, findSpaceInArea [] 0x1800 0x1000 fuel 0x1000 = .ok 0x1000) ∧
      ¬ PlacedWell [] 0x1000 0x1800 0x1000 0x1000 := by
  refine ⟨fun fuel positive => ?_, fun placed => absurd placed.within (by decide)⟩
  obtain ⟨n, rfl⟩ := Nat.exists_eq_succ_of_ne_zero (Nat.ne_of_gt positive)
  rfl

end FelineOS.PhysMem
