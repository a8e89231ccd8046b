import FelineOS.Verif.CarvingEnds
import Mathlib.Data.List.Pairwise

/-!
# The pieces that the carving hands on

The regions that the carving hands on are the same whatever headers there are, so a boot is a list
of pieces, added one after the other (`addAvailableRegions_pieces`). Where every cut has room within
what the loop has left of the region (`NarrowPasses`), the pieces of a region lie in it, in ascending
order and with an unavailable region between each two, each begins with the region or a page behind
an unavailable region, and no unavailable region ends in one (`piecesOf_pieces`).
-/

namespace FelineOS.Boot

variable {unavailable available pieces done us : List Region} {whole a u front rest part : Region}
  {headers headers' : List Span} {fuel : Nat}

/-! ## Boots as lists of pieces -/

/-- The loop over the unavailable regions, without the headers: the pieces it hands on. -/
def pieceLoop (recursiveSelf : Region → Except Fault (List Region)) :
    List Region → Region → Except Fault (List Region)
  | [], region => .ok [region]
  | unavail :: rest, region =>
    match carve region unavail with
    | .skip => pieceLoop recursiveSelf rest region
    | .drop => .ok []
    | .split front back => do
      let first ← recursiveSelf front
      let others ← pieceLoop recursiveSelf rest back
      pure (first ++ others)
    | .shrink part => pieceLoop recursiveSelf rest part
    | .missing => .error .abort

/-- The pieces that one available region is carved into. -/
def piecesOf (unavailable : List Region) : Nat → Region → Except Fault (List Region)
  | 0, _ => .error .divergence
  | fuel + 1, region => pieceLoop (piecesOf unavailable fuel) unavailable region

/-- The pieces of all available regions, in the order in which they are added. -/
def allPieces (unavailable : List Region) (fuel : Nat) : List Region → Except Fault (List Region)
  | [] => .ok []
  | region :: rest => do
    let first ← piecesOf unavailable fuel region
    let others ← allPieces unavailable fuel rest
    pure (first ++ others)

/-- Add pieces one after the other. -/
def addAll : List Region → List Span → Except Fault (List Span)
  | [], headers => .ok headers
  | r :: rs, headers => do
    let headers ← addRegion r headers
    addAll rs headers

/-- Pieces may be added in two rounds. -/
theorem addAll_append {between : List Span} {rs : List Region}
    (first : addAll pieces headers = .ok between) (second : addAll rs between = .ok headers') :
    addAll (pieces ++ rs) headers = .ok headers' := by
  induction pieces generalizing headers with
  | nil =>
    cases first
    exact second
  | cons r pieces ih =>
    obtain ⟨next, added, rest⟩ := of_bind_ok first
    simp only [List.cons_append, addAll, added, ok_bind]
    exact ih rest

/-- And pieces that were added in one round were added in two. -/
theorem of_addAll_append {rs : List Region}
    (returned : addAll (pieces ++ rs) headers = .ok headers') :
    ∃ between, addAll pieces headers = .ok between ∧ addAll rs between = .ok headers' := by
  induction pieces generalizing headers with
  | nil => exact ⟨headers, rfl, returned⟩
  | cons r pieces ih =>
    obtain ⟨next, added, rest⟩ := of_bind_ok returned
    obtain ⟨between, first, second⟩ := ih rest
    refine ⟨between, ?_, second⟩
    rw [addAll, added, ok_bind, first]

/-- A loop that returned has added its pieces, when the recursive calls have. -/
theorem carveLoop_pieces {recursiveSelf : Region → List Span → Except Fault (List Span)}
    {recursivePieces : Region → Except Fault (List Region)}
    (recurses : ∀ front headers headers', recursiveSelf front headers = .ok headers' →
      ∃ pieces, recursivePieces front = .ok pieces ∧ addAll pieces headers = .ok headers')
    (us : List Region) (returned : carveLoop recursiveSelf us a headers = .ok headers') :
    ∃ pieces, pieceLoop recursivePieces us a = .ok pieces ∧ addAll pieces headers = .ok headers' := by
  induction us generalizing a headers with
  | nil =>
    refine ⟨[a], rfl, ?_⟩
    simp only [carveLoop] at returned
    simp only [addAll, returned, ok_bind]
  | cons u us ih =>
    simp only [carveLoop, pieceLoop] at returned ⊢
    cases cut : carve a u with
    | skip =>
      rw [cut] at returned
      exact ih returned
    | drop =>
      rw [cut] at returned
      cases returned
      exact ⟨[], rfl, rfl⟩
    | split front rest =>
      rw [cut] at returned
      obtain ⟨between, first, second⟩ := of_bind_ok returned
      obtain ⟨fronts, carved, added⟩ := recurses front headers between first
      obtain ⟨rests, carved', added'⟩ := ih second
      refine ⟨fronts ++ rests, ?_, addAll_append added added'⟩
      simp only [carved, carved', ok_bind]
      rfl
    | shrink part =>
      rw [cut] at returned
      exact ih returned
    | missing =>
      rw [cut] at returned
      cases returned

/-- A call of the lambda that returned has added the pieces of its region. -/
theorem tryAddAvailableMemoryRegion_pieces
    (returned : tryAddAvailableMemoryRegion unavailable fuel a headers = .ok headers') :
    ∃ pieces, piecesOf unavailable fuel a = .ok pieces ∧ addAll pieces headers = .ok headers' := by
  induction fuel generalizing a headers headers' with
  | zero => cases returned
  | succ fuel ih => exact carveLoop_pieces (fun _ _ _ ran => ih ran) unavailable returned

/-- A boot that returned has added the pieces of its available regions. -/
theorem addAvailableRegions_pieces
    (returned : addAvailableRegions unavailable fuel available headers = .ok headers') :
    ∃ pieces, allPieces unavailable fuel available = .ok pieces ∧
      addAll pieces headers = .ok headers' := by
  induction available generalizing headers with
  | nil =>
    cases returned
    exact ⟨[], rfl, rfl⟩
  | cons region available ih =>
    obtain ⟨between, first, second⟩ := of_bind_ok returned
    obtain ⟨fronts, carved, added⟩ := tryAddAvailableMemoryRegion_pieces first
    obtain ⟨rests, carved', added'⟩ := ih second
    refine ⟨fronts ++ rests, ?_, addAll_append added added'⟩
    simp only [allPieces, carved, carved', ok_bind]
    rfl

/-! ## The pieces of a region -/

/-- Every cut that the carving comes to has room within what the loop has left of the region. -/
def NarrowPasses (unavailable : List Region) (start : Region × List Region) : Prop :=
  ∀ a u us, Relation.ReflTransGen (Pass unavailable) start (a, u :: us) → RoomyCut a a u

/-- The passes that remain have room as well. -/
theorem NarrowPasses.after {start next : Region × List Region}
    (narrow : NarrowPasses unavailable start) (pass : Pass unavailable start next) :
    NarrowPasses unavailable next := fun a u us reach => narrow a u us (.head pass reach)

/-- What the loop has left of the region `whole` when it has passed the regions `done`. -/
structure Left (unavailable done : List Region) (whole a : Region) : Prop where
  /-- It ends below the end of the address space. -/
  fits : a.Fits
  /-- It begins with the region, or a page behind an unavailable region that ends in it. -/
  start : a.addr = whole.addr ∨
    ∃ v ∈ unavailable, whole.addr ≤ v.addr + v.len ∧ a.addr = v.addr + v.len + pageSize
  /-- It does not begin before the region. -/
  above : whole.addr ≤ a.addr
  /-- Nor does it end behind it. -/
  below : a.addr + a.len ≤ whole.addr + whole.len
  /-- No region that has been passed ends in it. -/
  passed : ∀ w ∈ done, w.addr + w.len < a.addr ∨ a.addr + a.len ≤ w.addr + w.len

/-- One more region has been passed. -/
theorem Left.pass (left : Left unavailable done whole a) (fits : part.Fits)
    (start : part.addr = a.addr ∨
      ∃ v ∈ unavailable, whole.addr ≤ v.addr + v.len ∧ part.addr = v.addr + v.len + pageSize)
    (above : a.addr ≤ part.addr) (below : part.addr + part.len ≤ a.addr + a.len)
    (here : u.addr + u.len < part.addr ∨ part.addr + part.len ≤ u.addr + u.len) :
    Left unavailable (done ++ [u]) whole part where
  fits := fits
  start := by
    rcases start with same | behind
    · rw [same]
      exact left.start
    · exact .inr behind
  above := Nat.le_trans left.above above
  below := Nat.le_trans below left.below
  passed := by
    intro w member
    rcases List.mem_append.mp member with earlier | last
    · rcases left.passed w earlier with before | behind
      · exact .inl (Nat.lt_of_lt_of_le before above)
      · exact .inr (Nat.le_trans below behind)
    · obtain rfl := List.mem_singleton.mp last
      exact here

section Cuts

variable (left : Left unavailable done whole a) (listed : u ∈ unavailable) (uFits : u.Fits)
  (narrow : RoomyCut a a u)

include left uFits

/-- A region that is skipped does not end in what is left. -/
theorem Left.skip (cut : carve a u = .skip) : Left unavailable (done ++ [u]) whole a := by
  refine left.pass left.fits (.inl rfl) (Nat.le_refl _) (Nat.le_refl _) ?_
  obtain ⟨aRange, uRange⟩ := range_eq left.fits uFits
  have apart := carve_skip cut
  rw [← Bool.not_eq_true, overlap_iff (by rw [aRange]; exact Nat.le_add_right _ _), aRange, uRange]
    at apart
  simp only at apart
  omega

include listed narrow

/-- A split leaves a front a page before the region and a rest a page behind it. -/
theorem Left.split (cut : carve a u = .split front rest) :
    Left unavailable [] whole front ∧ Left unavailable (done ++ [u]) whole rest ∧
      front.addr = a.addr ∧ front.addr + front.len + pageSize ≤ u.addr ∧
        u.addr + u.len + pageSize ≤ rest.addr ∧ rest.addr + rest.len ≤ a.addr + a.len := by
  have aFits := left.fits
  have above := left.above
  have below := left.below
  unfold Region.Fits at aFits
  have inside : Visit.Inside ⟨a, a, [u]⟩ := ⟨left.fits, Nat.le_refl _, Nat.le_refl _⟩
  obtain ⟨frontEq, restEq, before, behind⟩ := narrow.split inside uFits cut
  have frontAddr : front.addr = a.addr := by rw [frontEq]
  have frontLen : front.len = u.addr - a.addr - pageSize := by rw [frontEq]
  have restAddr : rest.addr = u.addr + u.len + pageSize := by rw [restEq]
  have restLen : rest.len = a.addr + a.len - (u.addr + u.len + pageSize) := by rw [restEq]
  refine ⟨⟨?_, ?_, by omega, by omega, fun w none => by cases none⟩, ?_, frontAddr, by omega,
    by omega, by omega⟩
  · unfold Region.Fits
    omega
  · rw [frontAddr]
    exact left.start
  · refine left.pass ?_ (.inr ⟨u, listed, by omega, restAddr⟩) (by omega) (by omega) (.inl ?_)
    · unfold Region.Fits
      omega
    · have page : 0 < pageSize := by decide
      omega

/-- A cut at one end leaves a part of what was left. -/
theorem Left.shrink (cut : carve a u = .shrink part) :
    Left unavailable (done ++ [u]) whole part ∧ a.addr ≤ part.addr ∧
      part.addr + part.len ≤ a.addr + a.len := by
  have aFits := left.fits
  have above := left.above
  unfold Region.Fits at aFits
  have inside : Visit.Inside ⟨a, a, [u]⟩ := ⟨left.fits, Nat.le_refl _, Nat.le_refl _⟩
  have page : 0 < pageSize := by decide
  rcases narrow.shrink inside uFits cut with ⟨early, behind, after, partEq⟩ | ⟨late, before, moved, partEq⟩
  · have addr : part.addr = u.addr + u.len + pageSize := by rw [partEq]
    have len : part.len = a.addr + a.len - (u.addr + u.len + pageSize) := by rw [partEq]
    refine ⟨left.pass ?_ (.inr ⟨u, listed, by omega, addr⟩) (by omega) (by omega) (.inl (by omega)),
      by omega, by omega⟩
    unfold Region.Fits
    omega
  · have addr : part.addr = a.addr := by rw [partEq]
    have len : part.len = u.addr + u.len - a.addr - pageSize := by rw [partEq]
    refine ⟨left.pass ?_ (.inl addr) (by omega) (by omega) (.inr (by omega)), by omega, by omega⟩
    unfold Region.Fits
    omega

end Cuts

/-- An unavailable region lies between the pieces, a page from both. -/
def Parted (unavailable : List Region) (p q : Region) : Prop :=
  ∃ u ∈ unavailable, p.addr + p.len + pageSize ≤ u.addr ∧ u.addr + u.len + pageSize ≤ q.addr

/-- The pieces that are left of a part `a` of the region `whole`. -/
structure Pieces (unavailable : List Region) (whole a : Region) (pieces : List Region) : Prop where
  /-- Every unavailable region has been passed. -/
  left : ∀ p ∈ pieces, Left unavailable unavailable whole p
  /-- The pieces lie in the part. -/
  within : ∀ p ∈ pieces, a.addr ≤ p.addr ∧ p.addr + p.len ≤ a.addr + a.len
  /-- They are parted, in ascending order. -/
  ascending : pieces.Pairwise (Parted unavailable)

/-- The pieces that the loop hands on, when those of the recursive calls are as they should be. -/
theorem pieceLoop_pieces {recursiveSelf : Region → Except Fault (List Region)}
    (recurses : ∀ front pieces, Left unavailable [] whole front →
      NarrowPasses unavailable (front, unavailable) → recursiveSelf front = .ok pieces →
      Pieces unavailable whole front pieces)
    (words : ∀ u ∈ unavailable, u.Fits) (us : List Region) (parts : done ++ us = unavailable)
    (left : Left unavailable done whole a) (narrow : NarrowPasses unavailable (a, us))
    (returned : pieceLoop recursiveSelf us a = .ok pieces) : Pieces unavailable whole a pieces := by
  induction us generalizing a done pieces with
  | nil =>
    rw [List.append_nil] at parts
    subst parts
    cases returned
    exact ⟨by simpa using left, by simp, List.pairwise_singleton _ _⟩
  | cons u us ih =>
    have listed : u ∈ unavailable := by simp [← parts]
    have uFits := words u listed
    have here : RoomyCut a a u := narrow a u us .refl
    have regrouped : (done ++ [u]) ++ us = unavailable := by simpa using parts
    simp only [pieceLoop] at returned
    cases cut : carve a u with
    | skip =>
      rw [cut] at returned
      exact ih regrouped (left.skip uFits cut) (narrow.after (.skip cut)) returned
    | drop =>
      rw [cut] at returned
      cases returned
      exact ⟨by simp, by simp, List.Pairwise.nil⟩
    | split front rest =>
      rw [cut] at returned
      obtain ⟨leftFront, leftRest, addr, before, behind, stop⟩ := left.split listed uFits here cut
      obtain ⟨fronts, first, returned⟩ := of_bind_ok returned
      obtain ⟨rests, second, returned⟩ := of_bind_ok returned
      cases returned
      have one := recurses front fronts leftFront (narrow.after (.front cut)) first
      have two := ih regrouped leftRest (narrow.after (.rest cut)) second
      have page : 0 < pageSize := by decide
      refine ⟨?_, ?_, List.pairwise_append.mpr ⟨one.ascending, two.ascending, ?_⟩⟩
      · exact List.forall_mem_append.mpr ⟨one.left, two.left⟩
      · refine List.forall_mem_append.mpr ⟨fun p member => ?_, fun p member => ?_⟩
        · obtain ⟨low, high⟩ := one.within p member
          have room := leftRest.fits
          omega
        · obtain ⟨low, high⟩ := two.within p member
          omega
      · intro p inFront q inRest
        have high := (one.within p inFront).2
        have low := (two.within q inRest).1
        exact ⟨u, listed, by omega, by omega⟩
    | shrink part =>
      rw [cut] at returned
      obtain ⟨leftPart, addr, stop⟩ := left.shrink listed uFits here cut
      have parts := ih regrouped leftPart (narrow.after (.shrink cut)) returned
      refine ⟨parts.left, fun p member => ?_, parts.ascending⟩
      obtain ⟨low, high⟩ := parts.within p member
      omega
    | missing =>
      rw [cut] at returned
      cases returned

/-- The pieces of a region whose cuts have room. -/
theorem piecesOf_pieces (words : ∀ u ∈ unavailable, u.Fits) (left : Left unavailable [] whole a)
    (narrow : NarrowPasses unavailable (a, unavailable))
    (returned : piecesOf unavailable fuel a = .ok pieces) : Pieces unavailable whole a pieces := by
  induction fuel generalizing a pieces with
  | zero => cases returned
  | succ fuel ih =>
    exact pieceLoop_pieces (fun front fronts leftFront narrowFront ran => ih leftFront narrowFront ran)
      words unavailable (List.nil_append _) left narrow returned

/-- The pieces are what the loop ends with, when those of the recursive calls are. -/
theorem pieceLoop_reached {recursiveSelf : Region → Except Fault (List Region)}
    {start : Region × List Region}
    (recurses : ∀ front pieces, Relation.ReflTransGen (Pass unavailable) start (front, unavailable) →
      recursiveSelf front = .ok pieces →
      ∀ p ∈ pieces, Relation.ReflTransGen (Pass unavailable) start (p, []))
    (us : List Region) (reach : Relation.ReflTransGen (Pass unavailable) start (a, us))
    (returned : pieceLoop recursiveSelf us a = .ok pieces) :
    ∀ p ∈ pieces, Relation.ReflTransGen (Pass unavailable) start (p, []) := by
  induction us generalizing a pieces with
  | nil =>
    cases returned
    simpa using reach
  | cons u us ih =>
    simp only [pieceLoop] at returned
    cases cut : carve a u with
    | skip =>
      rw [cut] at returned
      exact ih (reach.tail (.skip cut)) returned
    | drop =>
      rw [cut] at returned
      cases returned
      simp
    | split front rest =>
      rw [cut] at returned
      obtain ⟨fronts, first, returned⟩ := of_bind_ok returned
      obtain ⟨rests, second, returned⟩ := of_bind_ok returned
      cases returned
      exact List.forall_mem_append.mpr ⟨recurses front fronts (reach.tail (.front cut)) first,
        ih (reach.tail (.rest cut)) second⟩
    | shrink part =>
      rw [cut] at returned
      exact ih (reach.tail (.shrink cut)) returned
    | missing =>
      rw [cut] at returned
      cases returned

/-- The pieces of a region are what the carving of it ends with. -/
theorem piecesOf_reached {start : Region × List Region}
    (reach : Relation.ReflTransGen (Pass unavailable) start (a, unavailable))
    (returned : piecesOf unavailable fuel a = .ok pieces) :
    ∀ p ∈ pieces, Relation.ReflTransGen (Pass unavailable) start (p, []) := by
  induction fuel generalizing a pieces with
  | zero => cases returned
  | succ fuel ih =>
    exact pieceLoop_reached (fun front fronts reachFront ran => ih reachFront ran) unavailable reach
      returned

/-- The region itself is left when nothing has been passed. -/
theorem Left.refl (fits : a.Fits) : Left unavailable [] a a :=
  ⟨fits, .inl rfl, Nat.le_refl _, Nat.le_refl _, fun w none => by cases none⟩

end FelineOS.Boot
