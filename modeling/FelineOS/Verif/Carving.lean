import FelineOS.Kernel.Carving
import Mathlib.Logic.Relation
import Mathlib.Order.MinMax

/-!
# What the carved headers cover

A byte is `Good` when it lies in an available region and in no unavailable one. The headers
must hold good bytes only. The loop of `try_add_available_memory_region` does not always see
to that: the branch that cuts off the end of a region computes the new length from the wrong
end of the unavailable region, pieces of less than a page make the lengths wrap, and the
start of a region is rounded down. `SafePass` says of one pass of the loop that none of this
happens, and `addAvailableRegions_good` that a boot whose passes are all safe leaves good
bytes only.
-/

namespace FelineOS.Boot

/-- The byte lies in the header's range. -/
def Span.Has (h : Span) (x : Nat) : Prop := h.memory ≤ x ∧ x < h.memory + h.size

instance (h : Span) (x : Nat) : Decidable (h.Has x) := inferInstanceAs (Decidable (_ ∧ _))

/-- The region ends below the end of the address space. -/
def Region.Fits (r : Region) : Prop := r.addr + r.len < wordLimit

/-- A range that runs forward overlaps another when neither lies before the other. -/
theorem overlap_iff {a b : Range} (ordered : a.start ≤ a.stop) :
    overlap a b = true ↔ b.start ≤ a.stop ∧ a.start ≤ b.stop := by
  unfold overlap
  rw [Nat.max_eq_right ordered, Nat.min_eq_left ordered]
  simp

/-- The floor of the smaller address is the smaller of the floors. -/
theorem pageFloor_min (x y : Nat) : pageFloor (min x y) = min (pageFloor x) (pageFloor y) :=
  Monotone.map_min fun _ _ ordered => pageFloor_mono ordered

/-- The floor of the larger address is the larger of the floors. -/
theorem pageFloor_max (x y : Nat) : pageFloor (max x y) = max (pageFloor x) (pageFloor y) :=
  Monotone.map_max fun _ _ ordered => pageFloor_mono ordered

variable {available unavailable : List Region} {a u front rest : Region}

/-- The byte is available and not reserved. -/
def Good (available unavailable : List Region) (x : Nat) : Prop :=
  (∃ a ∈ available, a.Has x) ∧ ∀ u ∈ unavailable, ¬ u.Has x

/-- A cut leaves no piece of less than the page that is taken off beside the cut, and an end is
cut off by an unavailable region of at most a page. -/
def SafeCut (a u : Region) : Prop :=
  match carve a u with
  | .skip => True
  | .drop => True
  | .split _ _ => a.addr + pageSize ≤ u.addr ∧ u.addr + u.len + pageSize ≤ a.addr + a.len
  | .shrink _ =>
    if u.addr ≤ a.addr then u.addr + u.len + pageSize ≤ a.addr + a.len
    else a.addr + pageSize ≤ u.addr + u.len ∧ u.len ≤ pageSize
  | .missing => True

instance (a u : Region) : Decidable (SafeCut a u) := by
  unfold SafeCut
  cases carve a u <;> infer_instance

/-- A region that is skipped does not overlap. -/
theorem carve_skip (cut : carve a u = .skip) : overlap a.range u.range = false := by
  unfold carve at cut
  simp only at cut
  split at cut
  · rename_i apart
    simpa using apart
  · split at cut
    · cases cut
    · split at cut
      · cases cut
      · split at cut
        · cases cut
        · split at cut <;> cases cut

/-! ## One pass -/

section Pass

variable (aFits : a.Fits) (uFits : u.Fits) (safe : SafeCut a u)

include aFits uFits

/-- The ranges of regions that fit are what they look like. -/
theorem range_eq : a.range = ⟨a.addr, a.addr + a.len⟩ ∧ u.range = ⟨u.addr, u.addr + u.len⟩ := by
  unfold Region.range
  rw [wrap_of_lt aFits, wrap_of_lt uFits]
  exact ⟨rfl, rfl⟩

/-- A split: the unavailable region lies strictly within the region. -/
theorem carve_split_eq (cut : carve a u = .split front rest) :
    a.addr < u.addr ∧ u.addr + u.len < a.addr + a.len ∧
      front = ⟨a.addr, wrapSub (wrapSub u.addr a.addr) pageSize⟩ ∧
      rest = ⟨wrap (u.addr + u.len + pageSize),
        wrapSub (a.addr + a.len) (wrap (u.addr + u.len + pageSize))⟩ := by
  obtain ⟨aRange, uRange⟩ := range_eq aFits uFits
  unfold carve at cut
  rw [aRange, uRange] at cut
  simp only at cut
  split at cut
  · cases cut
  · split at cut
    · cases cut
    · split at cut
      · rename_i within
        injection cut with frontEq restEq
        exact ⟨within.1, within.2, frontEq.symm, restEq.symm⟩
      · split at cut
        · cases cut
        · split at cut <;> cases cut

/-- A cut at one end: the unavailable region reaches over the start of the region, or over its
end. -/
theorem carve_shrink_eq (cut : carve a u = .shrink rest) :
    (u.addr ≤ a.addr ∧ a.addr ≤ u.addr + u.len ∧ u.addr + u.len < a.addr + a.len ∧
        rest = ⟨wrap (u.addr + u.len + pageSize),
          wrapSub (wrapSub (a.addr + a.len) (u.addr + u.len)) pageSize⟩) ∨
      (a.addr < u.addr ∧ u.addr ≤ a.addr + a.len ∧ a.addr + a.len ≤ u.addr + u.len ∧
        rest = ⟨a.addr, wrapSub (wrapSub (u.addr + u.len) a.addr) pageSize⟩) := by
  obtain ⟨aRange, uRange⟩ := range_eq aFits uFits
  unfold carve at cut
  rw [aRange, uRange] at cut
  simp only at cut
  split at cut
  · cases cut
  · split at cut
    · cases cut
    · rename_i covered
      split at cut
      · cases cut
      · split at cut
        · rename_i front
          injection cut with restEq
          exact Or.inl ⟨front.1, front.2, by omega, restEq.symm⟩
        · split at cut
          · rename_i front back
            injection cut with restEq
            refine Or.inr ⟨?_, back.1, back.2, restEq.symm⟩
            by_contra early
            exact front ⟨Nat.le_of_not_lt early, by omega⟩
          · cases cut

include safe

/-- A safe split leaves the bytes a page before and a page behind. -/
theorem carve_split (cut : carve a u = .split front rest) :
    front = ⟨a.addr, u.addr - a.addr - pageSize⟩ ∧
      rest = ⟨u.addr + u.len + pageSize, a.addr + a.len - (u.addr + u.len + pageSize)⟩ ∧
      a.addr + pageSize ≤ u.addr ∧ u.addr + u.len + pageSize ≤ a.addr + a.len := by
  obtain ⟨-, -, rfl, rfl⟩ := carve_split_eq aFits uFits cut
  unfold SafeCut at safe
  rw [cut] at safe
  obtain ⟨before, behind⟩ := safe
  unfold Region.Fits at aFits uFits
  have sum : wrap (u.addr + u.len + pageSize) = u.addr + u.len + pageSize :=
    wrap_of_lt (Nat.lt_of_le_of_lt behind aFits)
  have gap : wrapSub u.addr a.addr = u.addr - a.addr := wrapSub_of_le (by omega) (by omega)
  refine ⟨?_, ?_, before, behind⟩
  · rw [gap, wrapSub_of_le (by omega) (by omega)]
  · rw [sum, wrapSub_of_le behind aFits]

/-- A safe cut leaves the bytes a page behind, or less than those before. -/
theorem carve_shrink (cut : carve a u = .shrink rest) :
    (rest = ⟨u.addr + u.len + pageSize, a.addr + a.len - (u.addr + u.len + pageSize)⟩ ∧
        a.addr ≤ u.addr + u.len ∧ u.addr + u.len + pageSize ≤ a.addr + a.len) ∨
      (rest.addr = a.addr ∧ a.addr + rest.len ≤ u.addr ∧ u.addr ≤ a.addr + a.len) := by
  unfold SafeCut at safe
  rw [cut] at safe
  simp only at safe
  have sides := carve_shrink_eq aFits uFits cut
  unfold Region.Fits at aFits uFits
  rcases sides with ⟨early, after, -, rfl⟩ | ⟨late, inside, -, rfl⟩
  · rw [if_pos early] at safe
    left
    have sum : wrap (u.addr + u.len + pageSize) = u.addr + u.len + pageSize :=
      wrap_of_lt (by omega)
    have gap : wrapSub (a.addr + a.len) (u.addr + u.len) = a.addr + a.len - (u.addr + u.len) :=
      wrapSub_of_le (by omega) (by omega)
    rw [sum, gap, wrapSub_of_le (by omega) (by omega), Nat.sub_sub]
    exact ⟨rfl, after, safe⟩
  · rw [if_neg (Nat.not_le_of_lt late)] at safe
    right
    have gap : wrapSub (u.addr + u.len) a.addr = u.addr + u.len - a.addr :=
      wrapSub_of_le (by omega) (by omega)
    rw [gap, wrapSub_of_le (by omega) (by omega)]
    simp only
    refine ⟨trivial, ?_, inside⟩
    omega

end Pass

/-! ## The end of the lambda -/

/-- The headers so far hold good bytes only, on page boundaries and below the end of the
address space. -/
def GoodSpans (available unavailable : List Region) (headers : List Span) : Prop :=
  ∀ h ∈ headers, pageSize ∣ h.memory ∧ h.memory + h.size < wordLimit ∧
    ∀ x, h.Has x → Good available unavailable x

/-- The regions the loop works on hold only bytes of available regions, and none of the
unavailable regions it has passed. -/
structure Carved (available done : List Region) (a : Region) : Prop where
  /-- The region ends below the end of the address space. -/
  fits : a.Fits
  /-- Its bytes are available. -/
  available : ∀ x, a.Has x → ∃ r ∈ available, r.Has x
  /-- None of them is in an unavailable region passed. -/
  clear : ∀ x, a.Has x → ∀ u ∈ done, ¬ u.Has x

/-- The bytes of the region's first page below its start are good. -/
def SafeStart (available unavailable : List Region) (a : Region) : Prop :=
  ∀ x, pageFloor a.addr ≤ x → x < a.addr → Good available unavailable x

/-- Past all unavailable regions the bytes of the region are good, from its first page on. -/
theorem Carved.good (carved : Carved available unavailable a)
    (start : SafeStart available unavailable a) {x : Nat} (above : pageFloor a.addr ≤ x)
    (below : x < a.addr + a.len) : Good available unavailable x := by
  by_cases early : x < a.addr
  · exact start x above early
  · have has : a.Has x := ⟨Nat.le_of_not_lt early, below⟩
    exact ⟨carved.available x has, carved.clear x has⟩

/-- A header extended by a good region that overlaps it holds good bytes only. -/
theorem extend_good {h : Span} {size : Nat} (region : Carved available unavailable a)
    (start : SafeStart available unavailable a) (aligned : pageSize ∣ h.memory)
    (fits : h.memory + h.size < wordLimit)
    (good : ∀ x, h.Has x → Good available unavailable x) (overlaps : overlap a.range h.range = true)
    (computed : pageSub (pageFloor (max a.range.stop h.range.stop))
      (pageFloor (min a.range.start h.range.start)) = .ok size) :
    GoodSpans available unavailable [⟨pageFloor (min a.range.start h.range.start), size⟩] := by
  have aFits := region.fits
  unfold Region.Fits at aFits
  have aRange : a.range = ⟨a.addr, a.addr + a.len⟩ := by
    unfold Region.range
    rw [wrap_of_lt aFits]
  have hRange : h.range = ⟨h.memory, h.memory + h.size⟩ := by
    unfold Span.range
    rw [wrap_of_lt fits]
  rw [aRange, hRange] at overlaps computed ⊢
  simp only [overlap, Bool.and_eq_true, decide_eq_true_eq] at overlaps computed ⊢
  have memory : pageFloor h.memory = h.memory := pageFloor_of_dvd aligned
  have below := pageFloor_le (max (a.addr + a.len) (h.memory + h.size))
  have down := pageFloor_le a.addr
  have floors : pageFloor (min a.addr h.memory) = min (pageFloor a.addr) h.memory := by
    rw [pageFloor_min, memory]
  rw [floors] at computed ⊢
  obtain ⟨ordered, sizeEq⟩ := pageSub_eq computed
  intro g member
  obtain rfl : g = _ := List.mem_singleton.mp member
  refine ⟨?_, ?_, ?_⟩
  · rw [← floors]
    exact pageSize_dvd_pageFloor _
  · simp only
    omega
  · intro x has
    simp only [Span.Has] at has
    by_cases inHeader : h.memory ≤ x ∧ x < h.memory + h.size
    · exact good x inHeader
    · apply region.good start
      · omega
      · omega

/-- Adding a good region keeps the headers good. -/
theorem addRegion_good {headers headers' : List Span} (region : Carved available unavailable a)
    (start : SafeStart available unavailable a) (good : GoodSpans available unavailable headers)
    (returned : addRegion a headers = .ok headers') :
    GoodSpans available unavailable headers' := by
  induction headers generalizing headers' with
  | nil =>
    simp only [addRegion] at returned
    cases returned
    have aFits := region.fits
    unfold Region.Fits at aFits
    have down := pageFloor_le a.addr
    have short := pageFloor_le a.len
    intro g member
    obtain rfl := List.mem_singleton.mp member
    refine ⟨pageSize_dvd_pageFloor _, ?_, ?_⟩
    · simp only
      omega
    · intro x has
      simp only [Span.Has] at has
      exact region.good start has.1 (by omega)
  | cons h headers ih =>
    obtain ⟨aligned, fits, bytes⟩ := good h List.mem_cons_self
    have others : GoodSpans available unavailable headers :=
      fun g member => good g (List.mem_cons_of_mem h member)
    simp only [addRegion] at returned
    by_cases overlaps : overlap a.range h.range = true
    · rw [if_pos overlaps] at returned
      obtain ⟨size, computed, returned⟩ := of_bind_ok returned
      cases returned
      intro g member
      rcases List.mem_cons.mp member with rfl | later
      · exact extend_good region start aligned fits bytes overlaps computed _
          (List.mem_singleton_self _)
      · exact others g later
    · rw [if_neg overlaps] at returned
      obtain ⟨rest, added, returned⟩ := of_bind_ok returned
      cases returned
      intro g member
      rcases List.mem_cons.mp member with rfl | later
      · exact good g List.mem_cons_self
      · exact ih others added g later

/-! ## The loop -/

/-- One pass of the loop, from a region and the unavailable regions still to come; a recursive
call starts with all of them again. -/
inductive Pass (unavailable : List Region) : Region × List Region → Region × List Region → Prop
    where
  | skip {a u : Region} {us : List Region} (cut : carve a u = .skip) :
      Pass unavailable (a, u :: us) (a, us)
  | front {a u front rest : Region} {us : List Region} (cut : carve a u = .split front rest) :
      Pass unavailable (a, u :: us) (front, unavailable)
  | rest {a u front rest : Region} {us : List Region} (cut : carve a u = .split front rest) :
      Pass unavailable (a, u :: us) (rest, us)
  | shrink {a u part : Region} {us : List Region} (cut : carve a u = .shrink part) :
      Pass unavailable (a, u :: us) (part, us)

/-- The pass stays clear of the defects: the cut is safe, or, where the loop is done, the start
of the region may be rounded down. -/
def SafePass (available unavailable : List Region) : Region × List Region → Prop
  | (a, []) => SafeStart available unavailable a
  | (a, u :: _) => SafeCut a u

/-- Every pass that carving the region comes to is safe. -/
def SafePasses (available unavailable : List Region) (start : Region × List Region) : Prop :=
  ∀ pass, Relation.ReflTransGen (Pass unavailable) start pass → SafePass available unavailable pass

/-- The passes that remain are safe as well. -/
theorem SafePasses.after {start next : Region × List Region}
    (safe : SafePasses available unavailable start) (pass : Pass unavailable start next) :
    SafePasses available unavailable next := fun last reach => safe last (.head pass reach)

/-- The part of a region behind a cut lies in the region and apart from the cut. -/
theorem has_behind {x : Nat} (after : a.addr ≤ u.addr + u.len)
    (fits : u.addr + u.len + pageSize ≤ a.addr + a.len)
    (has : Region.Has ⟨u.addr + u.len + pageSize,
      a.addr + a.len - (u.addr + u.len + pageSize)⟩ x) : a.Has x ∧ ¬ u.Has x := by
  unfold Region.Has at *
  simp only at has
  omega

/-- A part of a region that is apart from the next unavailable region. -/
theorem Carved.narrow {done : List Region} {part : Region} (carved : Carved available done a)
    (fits : part.Fits) (inside : ∀ x, part.Has x → a.Has x ∧ ¬ u.Has x) :
    Carved available (done ++ [u]) part where
  fits := fits
  available := fun x has => carved.available x (inside x has).1
  clear := by
    intro x has w member
    rcases List.mem_append.mp member with passed | here
    · exact carved.clear x (inside x has).1 w passed
    · obtain rfl := List.mem_singleton.mp here
      exact (inside x has).2

/-- A region the loop skips has no byte in common with the unavailable one. -/
theorem Carved.skip {done : List Region} (carved : Carved available done a) (uFits : u.Fits)
    (cut : carve a u = .skip) : Carved available (done ++ [u]) a := by
  refine carved.narrow carved.fits fun x has => ⟨has, ?_⟩
  obtain ⟨aRange, uRange⟩ := range_eq carved.fits uFits
  have apart := carve_skip cut
  rw [aRange, uRange] at apart
  simp only [overlap, Bool.and_eq_false_iff, decide_eq_false_iff_not] at apart
  unfold Region.Has at *
  omega

section CutResults

variable {done : List Region} (carved : Carved available done a) (uFits : u.Fits)
  (safe : SafeCut a u)

include carved uFits safe

/-- A safe split passes it with the rest, and the front has passed nothing yet. -/
theorem Carved.split (cut : carve a u = .split front rest) :
    Carved available [] front ∧ Carved available (done ++ [u]) rest := by
  obtain ⟨rfl, rfl, before, behind⟩ := carve_split carved.fits uFits safe cut
  have aFits := carved.fits
  unfold Region.Fits at aFits
  constructor
  · refine ⟨?_, fun x has => carved.available x ⟨has.1, ?_⟩, fun x _ w passed => by cases passed⟩
    · unfold Region.Fits
      simp only
      omega
    · have stop := has.2
      simp only at stop
      omega
  · refine carved.narrow ?_ fun x has => has_behind (by omega) behind has
    unfold Region.Fits
    simp only
    omega

/-- A safe cut passes it with the part that remains. -/
theorem Carved.shrink {part : Region} (cut : carve a u = .shrink part) :
    Carved available (done ++ [u]) part := by
  have aFits := carved.fits
  unfold Region.Fits at aFits
  rcases carve_shrink carved.fits uFits safe cut with
    ⟨rfl, after, behind⟩ | ⟨same, before, inside⟩
  · refine carved.narrow ?_ fun x has => has_behind after behind has
    unfold Region.Fits
    simp only
    omega
  · refine carved.narrow ?_ fun x has => ?_
    · unfold Region.Fits
      omega
    · unfold Region.Has at *
      rw [same] at has
      omega

end CutResults

/-- The loop keeps the headers good, when the recursive calls do. -/
theorem carveLoop_good {recursiveSelf : Region → List Span → Except Fault (List Span)}
    (recurses : ∀ front headers headers', Carved available [] front →
      SafePasses available unavailable (front, unavailable) → GoodSpans available unavailable headers →
      recursiveSelf front headers = .ok headers' → GoodSpans available unavailable headers')
    (words : ∀ u ∈ unavailable, u.Fits) (us : List Region) {done : List Region}
    (parts : done ++ us = unavailable) (carved : Carved available done a)
    (safe : SafePasses available unavailable (a, us)) {headers headers' : List Span}
    (good : GoodSpans available unavailable headers)
    (returned : carveLoop recursiveSelf us a headers = .ok headers') :
    GoodSpans available unavailable headers' := by
  induction us generalizing a done headers with
  | nil =>
    rw [List.append_nil] at parts
    subst parts
    exact addRegion_good carved (safe _ .refl) good returned
  | cons u us ih =>
    have uFits : u.Fits := words u (by simp [← parts])
    have here : SafeCut a u := safe _ .refl
    have regrouped : (done ++ [u]) ++ us = unavailable := by simpa using parts
    simp only [carveLoop] at returned
    cases cut : carve a u with
    | skip =>
      rw [cut] at returned
      exact ih regrouped (carved.skip uFits cut) (safe.after (.skip cut)) good returned
    | drop =>
      rw [cut] at returned
      cases returned
      exact good
    | split front rest =>
      rw [cut] at returned
      obtain ⟨frontCarved, restCarved⟩ := carved.split uFits here cut
      obtain ⟨between, first, returned⟩ := of_bind_ok returned
      have midway := recurses front headers between frontCarved (safe.after (.front cut)) good first
      exact ih regrouped restCarved (safe.after (.rest cut)) midway returned
    | shrink part =>
      rw [cut] at returned
      exact ih regrouped (carved.shrink uFits here cut) (safe.after (.shrink cut)) good returned
    | missing =>
      rw [cut] at returned
      cases returned

/-- The lambda keeps the headers good. -/
theorem tryAddAvailableMemoryRegion_good (words : ∀ u ∈ unavailable, u.Fits) (fuel : Nat)
    (carved : Carved available [] a) (safe : SafePasses available unavailable (a, unavailable))
    {headers headers' : List Span} (good : GoodSpans available unavailable headers)
    (returned : tryAddAvailableMemoryRegion unavailable fuel a headers = .ok headers') :
    GoodSpans available unavailable headers' := by
  induction fuel generalizing a headers headers' with
  | zero => cases returned
  | succ fuel ih =>
    exact carveLoop_good (fun front before after frontCarved frontSafe frontGood ran =>
      ih frontCarved frontSafe frontGood ran) words unavailable (List.nil_append _) carved safe good
      returned

/-- A boot whose passes are all safe leaves headers that hold no byte of an unavailable region
and only bytes of available ones. -/
theorem addAvailableRegions_good (availableFit : ∀ a ∈ available, a.Fits)
    (unavailableFit : ∀ u ∈ unavailable, u.Fits)
    (safe : ∀ a ∈ available, SafePasses available unavailable (a, unavailable)) {fuel : Nat}
    {headers : List Span}
    (returned : addAvailableRegions unavailable fuel available [] = .ok headers) :
    ∀ h ∈ headers, ∀ x, h.Has x →
      (∀ u ∈ unavailable, ¬ u.Has x) ∧ ∃ a ∈ available, a.Has x := by
  have all : ∀ (regions : List Region), (∀ a ∈ regions, a ∈ available) →
      ∀ before, GoodSpans available unavailable before →
      addAvailableRegions unavailable fuel regions before = .ok headers →
      GoodSpans available unavailable headers := by
    intro regions
    induction regions with
    | nil =>
      intro _ before good ran
      cases ran
      exact good
    | cons a regions ih =>
      intro listed before good ran
      have member := listed a List.mem_cons_self
      have carved : Carved available [] a :=
        ⟨availableFit a member, fun x has => ⟨a, member, has⟩, fun x _ w passed => by cases passed⟩
      obtain ⟨between, first, ran⟩ := of_bind_ok ran
      exact ih (fun b later => listed b (List.mem_cons_of_mem a later)) between
        (tryAddAvailableMemoryRegion_good unavailableFit fuel carved (safe a member) good first) ran
  intro h member x has
  have good := all available (fun a inside => inside) [] (fun g none => by cases none) returned
  obtain ⟨inside, outside⟩ := (good h member).2.2 x has
  exact ⟨outside, inside⟩

/-- A region above the reserved bytes below the first megabyte. -/
theorem addAvailableRegions_good_aboveHole :
    addAvailableRegions [⟨0xA0000, 0x60000⟩] 1 [⟨0x100000, 0x100000⟩] [] =
        .ok [⟨0x101000, 0xFF000⟩] ∧
      ∀ h ∈ [(⟨0x101000, 0xFF000⟩ : Span)], ∀ x, h.Has x →
        (∀ u ∈ [(⟨0xA0000, 0x60000⟩ : Region)], ¬ u.Has x) ∧
          ∃ a ∈ [(⟨0x100000, 0x100000⟩ : Region)], a.Has x := by
  have returned : addAvailableRegions [⟨0xA0000, 0x60000⟩] 1 [⟨0x100000, 0x100000⟩] [] =
      .ok [⟨0x101000, 0xFF000⟩] := by decide
  refine ⟨returned, addAvailableRegions_good ?_ ?_ ?_ returned⟩
  · simp [Region.Fits, wordLimit]
  · simp [Region.Fits, wordLimit]
  · have cut : carve ⟨0x100000, 0x100000⟩ ⟨0xA0000, 0x60000⟩ = .shrink ⟨0x101000, 0xFF000⟩ := by
      decide
    intro a member
    obtain rfl := List.mem_singleton.mp member
    intro pass reach
    rcases reach.cases_head with rfl | ⟨next, first, more⟩
    · exact (by decide : SafeCut ⟨0x100000, 0x100000⟩ ⟨0xA0000, 0x60000⟩)
    · have there : next = (⟨0x101000, 0xFF000⟩, []) := by
        cases first with
        | skip same => rw [cut] at same; cases same
        | front same => rw [cut] at same; cases same
        | rest same => rw [cut] at same; cases same
        | shrink same => rw [cut] at same; cases same; rfl
      subst there
      rcases more.cases_head with rfl | ⟨next, second, -⟩
      · intro x above below
        have floor : pageFloor 0x101000 = 0x101000 := by decide
        simp only [floor] at above
        simp only at below
        omega
      · cases second

/-- An available region whose end is unavailable: the header that comes out reaches through the
unavailable region and past the available one. -/
theorem addAvailableRegions_not_good :
    addAvailableRegions [⟨0x8000, 0x18000⟩] 1 [⟨0, 0x10000⟩] [] = .ok [⟨0, 0x1F000⟩] ∧
      (Span.Has ⟨0, 0x1F000⟩ 0x8000 ∧ Region.Has ⟨0x8000, 0x18000⟩ 0x8000) ∧
      (Span.Has ⟨0, 0x1F000⟩ 0x1E000 ∧ ¬ Region.Has ⟨0, 0x10000⟩ 0x1E000) := by
  decide

end FelineOS.Boot
