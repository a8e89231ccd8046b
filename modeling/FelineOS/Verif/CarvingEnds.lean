import FelineOS.Verif.Carving

/-!
# When the carving ends

Every branch of the loop takes a page off a difference of two ends, as words. Where the difference
is smaller than a page the length wraps, and the front part of a split is then as long as the
address space, so that the recursive call splits it in the same way again. `Visit` is one pass of
the loop together with the region its call of the lambda started from. In a `Roomy` pass no page is
taken off what is smaller, and the end that the loop computes for a region whose end is cut off
stays within the region of the call. `carving_ends_iff` says that these are the passes the code can
do.
-/

namespace FelineOS.Boot

/-- The sub-regions that a pass computes. -/
def Cut.parts : Cut → List Region
  | .split front rest => [front, rest]
  | .shrink part => [part]
  | _ => []

/-- One pass of the loop. -/
structure Visit where
  /-- The region the lambda was called with. -/
  call : Region
  /-- What the loop has left of it. -/
  region : Region
  /-- The unavailable regions still to come. -/
  ahead : List Region

/-- The pass that follows; the front of a split is a call of its own. -/
inductive Visit.Next (unavailable : List Region) : Visit → Visit → Prop where
  | skip {c a u : Region} {us : List Region} (cut : carve a u = .skip) :
      Next unavailable ⟨c, a, u :: us⟩ ⟨c, a, us⟩
  | front {c a u front rest : Region} {us : List Region} (cut : carve a u = .split front rest) :
      Next unavailable ⟨c, a, u :: us⟩ ⟨front, front, unavailable⟩
  | rest {c a u front rest : Region} {us : List Region} (cut : carve a u = .split front rest) :
      Next unavailable ⟨c, a, u :: us⟩ ⟨c, rest, us⟩
  | shrink {c a u part : Region} {us : List Region} (cut : carve a u = .shrink part) :
      Next unavailable ⟨c, a, u :: us⟩ ⟨c, part, us⟩

/-- The pass is part of the carving of the region. -/
def Visited (unavailable : List Region) (region : Region) (v : Visit) : Prop :=
  Relation.ReflTransGen (Visit.Next unavailable) ⟨region, region, unavailable⟩ v

/-- The sums and differences of the pass are those of the integers. -/
def WrapFree (a u : Region) : Prop :=
  match carve a u with
  | .split front rest =>
    (front.len : Int) = u.addr - a.addr - pageSize ∧
      (rest.addr : Int) = u.addr + u.len + pageSize ∧
      (rest.len : Int) = a.addr + a.len - (u.addr + u.len + pageSize)
  | .shrink part =>
    if u.addr ≤ a.addr then
      (part.addr : Int) = u.addr + u.len + pageSize ∧
        (part.len : Int) = a.addr + a.len - (u.addr + u.len) - pageSize
    else (part.len : Int) = u.addr + u.len - a.addr - pageSize
  | _ => True

/-- The pass computes its sub-regions without wrap-around, and they lie in the region of its
call. -/
def Visit.Contained (v : Visit) : Prop :=
  ∀ u ∈ v.ahead.head?, WrapFree v.region u ∧
    ∀ part ∈ (carve v.region u).parts, ∀ x, part.Has x → v.call.Has x

/-- The region can spare the page that is taken off beside the cut, and an end that is cut off
does not move behind the region of the call. -/
def RoomyCut (c a u : Region) : Prop :=
  match carve a u with
  | .split _ _ => a.addr + pageSize ≤ u.addr ∧ u.addr + u.len + pageSize ≤ a.addr + a.len
  | .shrink _ =>
    if u.addr ≤ a.addr then u.addr + u.len + pageSize ≤ a.addr + a.len
    else a.addr + pageSize ≤ u.addr + u.len ∧ u.addr + u.len ≤ c.addr + c.len + pageSize
  | _ => True

/-- The pass has room for its cut. -/
def Visit.Roomy (v : Visit) : Prop := ∀ u ∈ v.ahead.head?, RoomyCut v.call v.region u

/-- The carving of the region ends, whatever headers there are. -/
def Terminates (unavailable : List Region) (region : Region) : Prop :=
  ∃ fuel, ∀ headers, tryAddAvailableMemoryRegion unavailable fuel region headers ≠
    .error .divergence

variable {unavailable us : List Region} {c a u front rest part region : Region} {v w : Visit}

/-! ## One pass -/

/-- The region of a pass lies in the region of its call, which ends below the end of the address
space. -/
structure Visit.Inside (v : Visit) : Prop where
  /-- The region of the call fits. -/
  fits : v.call.Fits
  /-- The loop has not moved its start forward. -/
  start : v.call.addr ≤ v.region.addr
  /-- Nor its end. -/
  stop : v.region.addr + v.region.len ≤ v.call.addr + v.call.len

/-- The region of the pass fits as well. -/
theorem Visit.Inside.region_fits (inside : v.Inside) : v.region.Fits :=
  Nat.lt_of_le_of_lt inside.stop inside.fits

section RoomyPass

variable (inside : Visit.Inside ⟨c, a, u :: us⟩) (uFits : u.Fits)

include inside uFits

/-- A split with room for it. -/
theorem RoomyCut.split (cut : carve a u = .split front rest) (roomy : RoomyCut c a u) :
    front = ⟨a.addr, u.addr - a.addr - pageSize⟩ ∧
      rest = ⟨u.addr + u.len + pageSize, a.addr + a.len - (u.addr + u.len + pageSize)⟩ ∧
      a.addr + pageSize ≤ u.addr ∧ u.addr + u.len + pageSize ≤ a.addr + a.len := by
  have safe : SafeCut a u := by
    unfold SafeCut
    unfold RoomyCut at roomy
    rw [cut] at roomy ⊢
    exact roomy
  exact carve_split inside.region_fits uFits safe cut

/-- A cut at one end with room for it. -/
theorem RoomyCut.shrink (cut : carve a u = .shrink part) (roomy : RoomyCut c a u) :
    (u.addr ≤ a.addr ∧ u.addr + u.len + pageSize ≤ a.addr + a.len ∧ a.addr ≤ u.addr + u.len ∧
        part = ⟨u.addr + u.len + pageSize, a.addr + a.len - (u.addr + u.len + pageSize)⟩) ∨
      (a.addr < u.addr ∧ a.addr + pageSize ≤ u.addr + u.len ∧
        u.addr + u.len ≤ c.addr + c.len + pageSize ∧
        part = ⟨a.addr, u.addr + u.len - a.addr - pageSize⟩) := by
  have aFits := inside.region_fits
  have sides := carve_shrink_eq aFits uFits cut
  unfold RoomyCut at roomy
  rw [cut] at roomy
  simp only at roomy
  unfold Region.Fits at aFits uFits
  simp only at aFits
  rcases sides with ⟨early, after, -, rfl⟩ | ⟨late, -, -, rfl⟩
  · rw [if_pos early] at roomy
    refine Or.inl ⟨early, roomy, after, ?_⟩
    have gap : wrapSub (a.addr + a.len) (u.addr + u.len) = a.addr + a.len - (u.addr + u.len) :=
      wrapSub_of_le (by omega) (by omega)
    rw [wrap_of_lt (by omega), gap, wrapSub_of_le (by omega) (by omega), Nat.sub_sub]
  · rw [if_neg (Nat.not_le_of_lt late)] at roomy
    refine Or.inr ⟨late, roomy.1, roomy.2, ?_⟩
    have gap : wrapSub (u.addr + u.len) a.addr = u.addr + u.len - a.addr :=
      wrapSub_of_le (by omega) (by omega)
    rw [gap, wrapSub_of_le (by omega) (by omega)]

/-- A pass computes its sub-regions as it should exactly when it has room for its cut. -/
theorem contained_iff_roomyCut :
    (WrapFree a u ∧ ∀ part ∈ (carve a u).parts, ∀ x, part.Has x → c.Has x) ↔ RoomyCut c a u := by
  have aFits := inside.region_fits
  have start := inside.start
  have stop := inside.stop
  simp only at aFits start stop
  constructor
  · rintro ⟨exact_, contained⟩
    unfold WrapFree at exact_
    unfold RoomyCut
    cases cut : carve a u with
    | skip => trivial
    | drop => trivial
    | missing => trivial
    | split front rest =>
      rw [cut] at exact_
      simp only at exact_ ⊢
      omega
    | shrink part =>
      rw [cut] at exact_ contained
      simp only at exact_ ⊢
      rcases carve_shrink_eq aFits uFits cut with ⟨early, -⟩ | ⟨late, -, -, computed⟩
      · rw [if_pos early] at exact_ ⊢
        omega
      · rw [if_neg (Nat.not_le_of_lt late)] at exact_ ⊢
        have addr : part.addr = a.addr := by rw [computed]
        refine ⟨by omega, ?_⟩
        by_cases empty : part.len = 0
        · omega
        · -- The last byte of the part is the one that has to lie in the region of the call.
          have last := contained part (by simp [Cut.parts]) (part.addr + part.len - 1)
            ⟨by omega, by omega⟩
          unfold Region.Has at last
          omega
  · intro roomy
    unfold WrapFree
    cases cut : carve a u with
    | skip => simp [Cut.parts]
    | drop => simp [Cut.parts]
    | missing => simp [Cut.parts]
    | split front rest =>
      obtain ⟨rfl, rfl, before, behind⟩ := roomy.split inside uFits cut
      simp only
      refine ⟨by omega, ?_⟩
      simp only [Cut.parts, List.mem_cons, List.not_mem_nil, or_false, forall_eq_or_imp, forall_eq]
      unfold Region.Has
      simp only
      constructor <;> intro x <;> omega
    | shrink part =>
      rcases roomy.shrink inside uFits cut with ⟨early, behind, after, rfl⟩ | ⟨late, before, moved, rfl⟩
      · simp only [if_pos early]
        refine ⟨by omega, ?_⟩
        simp only [Cut.parts, List.mem_singleton, forall_eq]
        unfold Region.Has
        simp only
        intro x
        omega
      · simp only [if_neg (Nat.not_le_of_lt late)]
        refine ⟨by omega, ?_⟩
        simp only [Cut.parts, List.mem_singleton, forall_eq]
        unfold Region.Has
        simp only
        intro x
        omega

end RoomyPass

/-- The same for the pass as a whole. -/
theorem Visit.Inside.contained_iff (inside : v.Inside) (fit : ∀ u ∈ v.ahead, u.Fits) :
    v.Contained ↔ v.Roomy := by
  obtain ⟨c, a, ahead⟩ := v
  unfold Visit.Contained Visit.Roomy
  cases ahead with
  | nil => simp
  | cons u us =>
    simp only [List.head?_cons, Option.mem_some_iff, forall_eq']
    exact contained_iff_roomyCut inside (fit u List.mem_cons_self)

/-- A pass with room for its cut hands on a region that lies in the region of its call, and the
next call is for a shorter one. -/
theorem Visit.Next.inside (next : Visit.Next unavailable v w) (inside : v.Inside)
    (fit : ∀ u ∈ v.ahead, u.Fits) (roomy : v.Roomy) : w.Inside := by
  cases next with
  | skip cut => exact ⟨inside.fits, inside.start, inside.stop⟩
  | @front c a u front rest us cut =>
    have whole : a.addr + a.len ≤ c.addr + c.len := inside.stop
    have small : c.addr + c.len < wordLimit := inside.fits
    obtain ⟨frontEq, -, before, behind⟩ :=
      (roomy u rfl).split inside (fit u List.mem_cons_self) cut
    have addr : front.addr = a.addr := by rw [frontEq]
    have len : front.len = u.addr - a.addr - pageSize := by rw [frontEq]
    refine ⟨?_, Nat.le_refl _, Nat.le_refl _⟩
    have shorter : front.addr + front.len ≤ c.addr + c.len := by
      rw [addr, len]
      omega
    exact Nat.lt_of_le_of_lt shorter small
  | @rest c a u front rest us cut =>
    have fits : c.Fits := inside.fits
    have begins : c.addr ≤ a.addr := inside.start
    have whole : a.addr + a.len ≤ c.addr + c.len := inside.stop
    obtain ⟨-, restEq, before, behind⟩ :=
      (roomy u rfl).split inside (fit u List.mem_cons_self) cut
    have addr : rest.addr = u.addr + u.len + pageSize := by rw [restEq]
    have len : rest.len = a.addr + a.len - (u.addr + u.len + pageSize) := by rw [restEq]
    have start : c.addr ≤ rest.addr := by omega
    have stop : rest.addr + rest.len ≤ c.addr + c.len := by omega
    exact ⟨fits, start, stop⟩
  | @shrink c a u part us cut =>
    have fits : c.Fits := inside.fits
    have begins : c.addr ≤ a.addr := inside.start
    have whole : a.addr + a.len ≤ c.addr + c.len := inside.stop
    rcases (roomy u rfl).shrink inside (fit u List.mem_cons_self) cut with
      ⟨-, behind, after, partEq⟩ | ⟨-, before, moved, partEq⟩
    · have addr : part.addr = u.addr + u.len + pageSize := by rw [partEq]
      have len : part.len = a.addr + a.len - (u.addr + u.len + pageSize) := by rw [partEq]
      have start : c.addr ≤ part.addr := by omega
      have stop : part.addr + part.len ≤ c.addr + c.len := by omega
      exact ⟨fits, start, stop⟩
    · have addr : part.addr = a.addr := by rw [partEq]
      have len : part.len = u.addr + u.len - a.addr - pageSize := by rw [partEq]
      have start : c.addr ≤ part.addr := by omega
      have stop : part.addr + part.len ≤ c.addr + c.len := by omega
      exact ⟨fits, start, stop⟩

/-- The unavailable regions of a pass are those of the list. -/
theorem Visit.Next.ahead (next : Visit.Next unavailable v w)
    (listed : ∀ u ∈ v.ahead, u ∈ unavailable) : ∀ u ∈ w.ahead, u ∈ unavailable := by
  cases next with
  | skip cut => exact fun u member => listed u (List.mem_cons_of_mem _ member)
  | front cut => exact fun u member => member
  | rest cut => exact fun u member => listed u (List.mem_cons_of_mem _ member)
  | shrink cut => exact fun u member => listed u (List.mem_cons_of_mem _ member)

/-! ## The whole carving -/

/-- The end of the lambda is no recursion. -/
theorem addRegion_ends (a : Region) (headers : List Span) :
    addRegion a headers ≠ .error .divergence := by
  induction headers with
  | nil => simp [addRegion]
  | cons h headers ih =>
    simp only [addRegion]
    split
    · unfold pageSub
      split <;> simp [bind, Except.bind, pure, Except.pure]
    · cases added : addRegion a headers with
      | error fault =>
        rw [added] at ih
        exact ih
      | ok rest => simp [pure, Except.pure]

section Carving

variable (fit : ∀ u ∈ unavailable, u.Fits)

include fit

/-- Where the passes up to here have room, the pass lies in the region of its call. -/
theorem Visited.inside (fits : region.Fits) (visited : Visited unavailable region v)
    (roomy : ∀ w, Visited unavailable region w → w.Inside → (∀ u ∈ w.ahead, u.Fits) → w.Roomy) :
    v.Inside ∧ ∀ u ∈ v.ahead, u ∈ unavailable := by
  induction visited with
  | refl => exact ⟨⟨fits, Nat.le_refl _, Nat.le_refl _⟩, fun u member => member⟩
  | @tail w v earlier next ih =>
    obtain ⟨inside, listed⟩ := ih
    have fitAhead := fun u member => fit u (listed u member)
    exact ⟨next.inside inside fitAhead (roomy w earlier inside fitAhead), next.ahead listed⟩

/-- The loop ends when it has room for its cuts and the shorter calls end. -/
theorem carveLoop_ends {recursiveSelf : Region → List Span → Except Fault (List Span)}
    (recurses : ∀ front headers, front.len < c.len → (∀ v, Visited unavailable front v → v.Roomy) →
      front.Fits → recursiveSelf front headers ≠ .error .divergence)
    (us : List Region) (inside : Visit.Inside ⟨c, a, us⟩) (listed : ∀ u ∈ us, u ∈ unavailable)
    (roomy : ∀ v, Relation.ReflTransGen (Visit.Next unavailable) ⟨c, a, us⟩ v → v.Roomy)
    (headers : List Span) : carveLoop recursiveSelf us a headers ≠ .error .divergence := by
  induction us generalizing a headers with
  | nil => exact addRegion_ends a headers
  | cons u us ih =>
    have here : Visit.Roomy ⟨c, a, u :: us⟩ := roomy _ .refl
    have fitAhead : ∀ w ∈ u :: us, w.Fits := fun w member => fit w (listed w member)
    have later : ∀ w ∈ us, w ∈ unavailable := fun w member => listed w (List.mem_cons_of_mem u member)
    -- The loop goes on with a pass that follows this one.
    have goesOn : ∀ b, Visit.Next unavailable ⟨c, a, u :: us⟩ ⟨c, b, us⟩ → ∀ headers,
        carveLoop recursiveSelf us b headers ≠ .error .divergence := fun b next headers =>
      ih (next.inside inside fitAhead here) later (fun v reach => roomy v (.head next reach)) headers
    simp only [carveLoop]
    cases cut : carve a u with
    | skip => exact goesOn a (.skip cut) headers
    | drop => simp
    | missing => simp
    | shrink part => exact goesOn part (.shrink cut) headers
    | split front rest =>
      have first : Visit.Next unavailable ⟨c, a, u :: us⟩ ⟨front, front, unavailable⟩ := .front cut
      have frontFits := (first.inside inside fitAhead here).fits
      have shorter : front.len < c.len := by
        have whole := inside.stop
        have begins := inside.start
        have page : 0 < pageSize := by decide
        obtain ⟨rfl, -, before, behind⟩ := (here u rfl).split inside (fitAhead u List.mem_cons_self) cut
        simp only at *
        omega
      have ends := recurses front headers shorter (fun v reach => roomy v (.head first reach)) frontFits
      simp only
      cases ran : recursiveSelf front headers with
      | error fault =>
        rw [ran] at ends
        exact ends
      | ok between => exact goesOn rest (.rest cut) between

/-- A carving whose passes all have room ends, within as many calls as the region has bytes. -/
theorem tryAddAvailableMemoryRegion_ends (fuel : Nat) (enough : region.len < fuel)
    (fits : region.Fits) (roomy : ∀ v, Visited unavailable region v → v.Roomy)
    (headers : List Span) :
    tryAddAvailableMemoryRegion unavailable fuel region headers ≠ .error .divergence := by
  induction fuel generalizing region headers with
  | zero => omega
  | succ fuel ih =>
    have inside : Visit.Inside ⟨region, region, unavailable⟩ :=
      ⟨fits, Nat.le_refl _, Nat.le_refl _⟩
    refine carveLoop_ends fit (fun front before shorter frontRoomy frontFits => ?_) unavailable inside
      (fun u member => member) roomy headers
    exact ih (by omega) frontFits frontRoomy before

/-- The carving of a region ends, and every pass computes its sub-regions without wrap-around and
within the region of its call, exactly when every pass has room for its cut. -/
theorem carving_ends_iff (fits : region.Fits) :
    (Terminates unavailable region ∧ ∀ v, Visited unavailable region v → v.Contained) ↔
      ∀ v, Visited unavailable region v → v.Roomy := by
  constructor
  · rintro ⟨-, contained⟩ v visited
    obtain ⟨inside, listed⟩ := visited.inside fit fits fun w visited inside ahead =>
      (inside.contained_iff ahead).mp (contained w visited)
    exact (inside.contained_iff fun u member => fit u (listed u member)).mp (contained v visited)
  · intro roomy
    refine ⟨⟨region.len + 1, ?_⟩, fun v visited => ?_⟩
    · exact tryAddAvailableMemoryRegion_ends fit _ (Nat.lt_succ_self _) fits roomy
    · obtain ⟨inside, listed⟩ := visited.inside fit fits fun w visited _ _ => roomy w visited
      exact (inside.contained_iff fun u member => fit u (listed u member)).mpr (roomy v visited)

end Carving

/-- A region whose first bytes are reserved together with the memory below it. -/
theorem carving_ends_aboveHole :
    Terminates [⟨0xA0000, 0x60800⟩] ⟨0x100000, 0x100000⟩ ∧
      ∀ v, Visited [⟨0xA0000, 0x60800⟩] ⟨0x100000, 0x100000⟩ v → v.Contained := by
  have cut : carve ⟨0x100000, 0x100000⟩ ⟨0xA0000, 0x60800⟩ = .shrink ⟨0x101800, 0xFE800⟩ := by
    decide
  refine (carving_ends_iff ?_ ?_).mpr fun v visited => ?_
  · simp [Region.Fits, wordLimit]
  · simp [Region.Fits, wordLimit]
  · rcases visited.cases_head with rfl | ⟨next, first, more⟩
    · intro u member
      obtain rfl : _ = u := Option.some.inj member
      unfold RoomyCut
      rw [cut]
      decide
    · have there : next = ⟨⟨0x100000, 0x100000⟩, ⟨0x101800, 0xFE800⟩, []⟩ := by
        cases first with
        | skip same => rw [cut] at same; cases same
        | front same => rw [cut] at same; cases same
        | rest same => rw [cut] at same; cases same
        | shrink same => rw [cut] at same; cases same; rfl
      subst there
      rcases more.cases_head with rfl | ⟨next, second, -⟩
      · intro u member
        cases member
      · cases second

/-- A byte before the unavailable region is too little for the page that is taken off: the front
part is nearly the whole address space, and is split into itself and a rest. -/
theorem tryAddAvailableMemoryRegion_loops (fuel : Nat) (headers : List Span) :
    tryAddAvailableMemoryRegion [⟨1, 0xFFF⟩] fuel ⟨0, 0xFFFFF001⟩ headers = .error .divergence := by
  induction fuel with
  | zero => rfl
  | succ fuel ih =>
    have cut : carve ⟨0, 0xFFFFF001⟩ ⟨1, 0xFFF⟩ =
        .split ⟨0, 0xFFFFF001⟩ ⟨0x2000, 0xFFFFD001⟩ := by decide
    simp only [tryAddAvailableMemoryRegion, carveLoop, cut, ih, error_bind]

/-- An available region from address zero whose first byte alone is not reserved. -/
theorem carving_loops :
    Region.Fits ⟨0, 0x10000⟩ ∧ (∀ u ∈ [(⟨1, 0xFFF⟩ : Region)], u.Fits) ∧
      ¬ (Terminates [⟨1, 0xFFF⟩] ⟨0, 0x10000⟩ ∧
        ∀ v, Visited [⟨1, 0xFFF⟩] ⟨0, 0x10000⟩ v → v.Contained) := by
  refine ⟨by simp [Region.Fits, wordLimit], by simp [Region.Fits, wordLimit], ?_⟩
  rintro ⟨⟨fuel, ends⟩, -⟩
  apply ends []
  cases fuel with
  | zero => rfl
  | succ fuel =>
    have cut : carve ⟨0, 0x10000⟩ ⟨1, 0xFFF⟩ = .split ⟨0, 0xFFFFF001⟩ ⟨0x2000, 0xE000⟩ := by decide
    simp only [tryAddAvailableMemoryRegion, carveLoop, cut, tryAddAvailableMemoryRegion_loops,
      error_bind]

end FelineOS.Boot
