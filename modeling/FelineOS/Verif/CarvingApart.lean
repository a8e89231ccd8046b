import FelineOS.Library.Blocks
import FelineOS.Verif.CarvingPieces
import Mathlib.Logic.Function.Basic
import Mathlib.Logic.Relation

/-!
# When the carved headers are disjoint

A piece is added to the first header it overlaps, and the loop looks no further: a piece that
overlaps two headers is joined with one of them and reaches into the other. Which headers there are
depends on what was joined before, so the condition is one on the pieces. A piece `Meets` an earlier
one when the loop would join it with a header for that one alone, and `Touches` it when it reaches to
it at all. In `Hangs` every two earlier pieces that a piece touches are connected, through pieces
that meet; they are then in one header, and the headers are disjoint (`Hangs.apart`). Without
unavailable regions the pieces are the available regions; with them it is enough that each available
region touches one earlier region at most (`hangs_of_regions`).
-/

namespace FelineOS.Boot

open Library

variable {unavailable available pieces before : List Region} {r : Region} {h : Span}
  {headers headers' post : List Span} {fuel : Nat} {own : Nat → Nat}

/-! ## One piece -/

/-- The range of a header as a block of free memory. -/
def Span.block (h : Span) : Block := ⟨h.memory, h.size, false⟩

/-- Two headers have no byte in common. -/
def Span.Apart (g h : Span) : Prop := g.block.Apart h.block

instance : Std.Symm Span.Apart := ⟨fun _ _ => Block.Apart.symm⟩

instance (g h : Span) : Decidable (g.Apart h) := inferInstanceAs (Decidable (g.block.Apart h.block))

/-- Headers are apart when one is empty or they are ordered. -/
theorem Span.apart_iff {g h : Span} : g.Apart h ↔
    g.size = 0 ∨ h.size = 0 ∨ g.memory + g.size ≤ h.memory ∨ h.memory + h.size ≤ g.memory :=
  Block.apart_iff g.block h.block

/-- A header extended by a region that overlaps it. -/
def Span.joined (r : Region) (h : Span) : Span where
  memory := pageFloor (min r.range.start h.range.start)
  size := pageFloor (max r.range.stop h.range.stop) - pageFloor (min r.range.start h.range.start)

/-- A header that is filled for a region. -/
def Region.span (r : Region) : Span := ⟨pageFloor r.addr, pageFloor r.len⟩

/-- The header lies on page boundaries and ends below the end of the address space. -/
structure Span.Placed (h : Span) : Prop where
  /-- It starts on a page. -/
  memory : pageSize ∣ h.memory
  /-- It has whole pages. -/
  size : pageSize ∣ h.size
  /-- It ends below the end of the address space. -/
  fits : h.memory + h.size < wordLimit

/-- The range of a placed header. -/
theorem Span.Placed.range_eq (placed : h.Placed) : h.range = ⟨h.memory, h.memory + h.size⟩ := by
  unfold Span.range
  rw [wrap_of_lt placed.fits]

/-- What adding a piece to a list does: it extends the first header, or goes on with the others. -/
theorem addRegion_cons (returned : addRegion r (h :: post) = .ok headers') :
    (overlap r.range h.range = true ∧ headers' = h.joined r :: post) ∨
      (overlap r.range h.range = false ∧ ∃ rest, addRegion r post = .ok rest ∧ headers' = h :: rest) := by
  simp only [addRegion] at returned
  cases overlaps : overlap r.range h.range with
  | true =>
    rw [overlaps, if_pos rfl] at returned
    obtain ⟨size, computed, last⟩ := of_bind_ok returned
    cases last
    obtain ⟨-, rfl⟩ := pageSub_eq computed
    exact Or.inl ⟨rfl, rfl⟩
  | false =>
    rw [overlaps, if_neg (by simp)] at returned
    obtain ⟨rest, added, last⟩ := of_bind_ok returned
    cases last
    exact Or.inr ⟨rfl, rest, added, rfl⟩

/-- What adding a piece does: it extends the first header it overlaps, or fills a new one. -/
theorem addRegion_ok (returned : addRegion r headers = .ok headers') :
    (∃ k h, headers[k]? = some h ∧ overlap r.range h.range = true ∧
        headers' = headers.set k (h.joined r)) ∨
      (∀ h ∈ headers, overlap r.range h.range = false) ∧ headers' = headers ++ [r.span] := by
  induction headers generalizing headers' with
  | nil =>
    cases returned
    exact .inr ⟨by simp, rfl⟩
  | cons h post ih =>
    rcases addRegion_cons returned with ⟨overlaps, rfl⟩ | ⟨separate, rest, added, rfl⟩
    · exact .inl ⟨0, h, rfl, overlaps, rfl⟩
    · rcases ih added with ⟨k, g, here, overlaps, rfl⟩ | ⟨none, rfl⟩
      · exact .inl ⟨k + 1, g, by simpa using here, overlaps, rfl⟩
      · exact .inr ⟨by simpa using ⟨separate, none⟩, rfl⟩

section Piece

variable (fits : r.Fits)

include fits

/-- The range of a piece that fits. -/
theorem Region.Fits.range_eq : r.range = ⟨r.addr, r.addr + r.len⟩ := by
  unfold Region.range
  rw [wrap_of_lt fits]

/-- A header that is filled for a piece is placed, and ends in the piece. -/
theorem Region.Fits.placed :
    r.span.Placed ∧ r.span.memory + r.span.size ≤ r.addr + r.len := by
  have addr := pageFloor_le r.addr
  have len := pageFloor_le r.len
  unfold Region.Fits at fits
  unfold Region.span
  refine ⟨⟨pageSize_dvd_pageFloor _, pageSize_dvd_pageFloor _, ?_⟩, ?_⟩
  · simp only
    omega
  · simp only
    omega

variable (placed : h.Placed)

include placed

/-- The piece overlaps a placed header when neither lies before the other. -/
theorem Region.Fits.overlap_iff :
    overlap r.range h.range = true ↔
      h.memory ≤ r.addr + r.len ∧ r.addr ≤ h.memory + h.size := by
  rw [fits.range_eq, placed.range_eq, Boot.overlap_iff (Nat.le_add_right _ _)]

/-- A header that is filled for a piece has no byte of a header that the piece does not overlap. -/
theorem Region.Fits.apart (separate : overlap r.range h.range = false) : h.Apart r.span := by
  rw [← Bool.not_eq_true, fits.overlap_iff placed] at separate
  have addr := pageFloor_le r.addr
  have short := fits.placed.2
  have stop : pageFloor (h.memory + h.size) = h.memory + h.size :=
    pageFloor_of_dvd (Nat.dvd_add placed.memory placed.size)
  rw [Span.apart_iff]
  by_cases below : h.memory + h.size < r.addr
  · have ordered := pageFloor_mono (Nat.le_of_lt below)
    exact .inr (.inr (.inl (by simp only [Region.span]; omega)))
  · exact .inr (.inr (.inr (by omega)))

/-- Where an extended header begins and ends. -/
theorem Region.Fits.joined_ends :
    (h.joined r).memory = min (pageFloor r.addr) h.memory ∧
      (h.joined r).memory + (h.joined r).size =
        max (pageFloor (r.addr + r.len)) (h.memory + h.size) := by
  have memory : pageFloor h.memory = h.memory := pageFloor_of_dvd placed.memory
  have stop : pageFloor (h.memory + h.size) = h.memory + h.size :=
    pageFloor_of_dvd (Nat.dvd_add placed.memory placed.size)
  unfold Span.joined
  rw [fits.range_eq, placed.range_eq]
  simp only [pageFloor_min, pageFloor_max, memory, stop]
  refine ⟨trivial, ?_⟩
  omega

/-- An extended header is placed. -/
theorem Region.Fits.joined : (h.joined r).Placed := by
  obtain ⟨memory, stop⟩ := fits.joined_ends placed
  have low := pageFloor_le (r.addr + r.len)
  have room := placed.fits
  unfold Region.Fits at fits
  refine ⟨pageSize_dvd_pageFloor _, ?_, by omega⟩
  exact Nat.dvd_sub (pageSize_dvd_pageFloor _) (pageSize_dvd_pageFloor _)

/-- A header that is apart from the one that is extended, and that the piece does not overlap, is
apart from the extended one. -/
theorem Region.Fits.joined_apart {g : Span} (placedG : g.Placed)
    (overlaps : overlap r.range h.range = true) (separate : overlap r.range g.range = false)
    (apart : g.Apart h) : g.Apart (h.joined r) := by
  rw [fits.overlap_iff placed] at overlaps
  rw [← Bool.not_eq_true, fits.overlap_iff placedG] at separate
  obtain ⟨memory, stop⟩ := fits.joined_ends placed
  have low := pageFloor_le (r.addr + r.len)
  have down := pageFloor_le r.addr
  have last : pageFloor (g.memory + g.size) = g.memory + g.size :=
    pageFloor_of_dvd (Nat.dvd_add placedG.memory placedG.size)
  rw [Span.apart_iff] at apart ⊢
  by_cases below : g.memory + g.size < r.addr
  · have ordered := pageFloor_mono (Nat.le_of_lt below)
    omega
  · omega

omit placed

/-- Adding a piece keeps the headers placed. -/
theorem addRegion_placed (placed : ∀ h ∈ headers, h.Placed)
    (returned : addRegion r headers = .ok headers') : ∀ h ∈ headers', h.Placed := by
  rcases addRegion_ok returned with ⟨k, h, here, -, rfl⟩ | ⟨-, rfl⟩
  · intro g member
    rcases List.mem_or_eq_of_mem_set member with old | rfl
    · exact placed g old
    · exact fits.joined (placed h (List.mem_of_getElem? here))
  · intro g member
    rcases List.mem_append.mp member with old | new
    · exact placed g old
    · obtain rfl := List.mem_singleton.mp new
      exact fits.placed.1

end Piece

/-! ## Pieces that hang together -/

/-- The loop would join the piece `r` with a header for `q` alone. -/
def Region.Meets (r q : Region) : Prop :=
  q.span.memory ≤ r.addr + r.len ∧ r.addr ≤ q.span.memory + q.span.size

/-- The piece `r` reaches to `q`, which counts from its first page on. -/
def Region.Touches (r q : Region) : Prop :=
  pageFloor q.addr ≤ r.addr + r.len ∧ r.addr ≤ q.addr + q.len

instance (r q : Region) : Decidable (r.Touches q) := inferInstanceAs (Decidable (_ ∧ _))

/-- The later of two pieces meets the earlier. -/
def Link (pieces : List Region) (i j : Nat) : Prop :=
  ∃ q r, i < j ∧ pieces[i]? = some q ∧ pieces[j]? = some r ∧ r.Meets q

/-- Any two earlier pieces that the piece touches are connected by pieces that meet. -/
def HangsOn (before : List Region) (r : Region) : Prop :=
  ∀ i j p q, before[i]? = some p → before[j]? = some q → r.Touches p → r.Touches q →
    Relation.EqvGen (Link before) i j

/-- Every piece ends below the end of the address space, and the earlier pieces that it touches hang
together. -/
structure Hangs (pieces : List Region) : Prop where
  /-- No piece runs past the end. -/
  fits : ∀ r ∈ pieces, r.Fits
  /-- The pieces before each hang together where it touches them. -/
  hangsOn : ∀ before r after, pieces = before ++ r :: after → HangsOn before r

/-- The first pieces hang together. -/
theorem Hangs.front (hangs : Hangs (before ++ pieces)) : Hangs before where
  fits r member := hangs.fits r (List.mem_append_left _ member)
  hangsOn done r after split := hangs.hangsOn done r (after ++ pieces) (by rw [split]; simp)

section Pairs

variable {α : Type} {R : α → α → Prop} [Std.Symm R] {l : List α} {a b : α} {i j k : Nat}

/-- A symmetric relation of a list holds between any two places. -/
theorem pairwise_at (pairs : l.Pairwise R) (different : i ≠ j) (first : l[i]? = some a)
    (second : l[j]? = some b) : R a b := by
  obtain ⟨insideI, rfl⟩ := List.getElem?_eq_some_iff.mp first
  obtain ⟨insideJ, rfl⟩ := List.getElem?_eq_some_iff.mp second
  have ordered := List.pairwise_iff_getElem.mp pairs
  rcases Nat.lt_or_gt_of_ne different with before | behind
  · exact ordered i j insideI insideJ before
  · exact Std.Symm.symm _ _ (ordered j i insideJ insideI behind)

/-- Where one element at most has a property, two at different places do not both have it. -/
theorem not_both_at {test : α → Prop} (one : l.Pairwise fun a b => ¬ (test a ∧ test b))
    (different : i ≠ j) (first : l[i]? = some a) (second : l[j]? = some b) :
    ¬ (test a ∧ test b) := by
  have symmetric : Std.Symm fun a b => ¬ (test a ∧ test b) :=
    ⟨fun a b neither both => neither both.symm⟩
  exact pairwise_at one different first second

/-- A symmetric relation stays when an element is replaced by one that stands in it to all others. -/
theorem pairwise_set (pairs : l.Pairwise R) (beside : ∀ j ≠ k, ∀ a, l[j]? = some a → R a b) :
    (l.set k b).Pairwise R := by
  have kept := List.pairwise_iff_getElem.mp pairs
  rw [List.pairwise_iff_getElem]
  intro i j insideI insideJ ordered
  rw [List.length_set] at insideI insideJ
  rw [List.getElem_set, List.getElem_set]
  by_cases first : k = i
  · rw [if_pos first, if_neg (by omega)]
    exact Std.Symm.symm _ _ (beside j (by omega) _ (List.getElem?_eq_getElem insideJ))
  · rw [if_neg first]
    by_cases second : k = j
    · rw [if_pos second]
      exact beside i (Ne.symm first) _ (List.getElem?_eq_getElem insideI)
    · rw [if_neg second]
      exact kept i j insideI insideJ ordered

end Pairs

/-- The earlier pieces hang together where the piece touches one of them at most. -/
theorem hangsOn_of_pairwise (one : before.Pairwise fun p q => ¬ (r.Touches p ∧ r.Touches q)) :
    HangsOn before r := by
  intro i j p q first second touchesP touchesQ
  by_cases same : i = j
  · subst same
    exact .refl i
  · exact absurd ⟨touchesP, touchesQ⟩ (not_both_at one same first second)

/-- The headers of the pieces so far: the piece `i` went to the header `own i`. -/
structure Grouped (before : List Region) (headers : List Span) (own : Nat → Nat) : Prop where
  /-- The headers are placed. -/
  placed : ∀ h ∈ headers, h.Placed
  /-- They are disjoint. -/
  apart : headers.Pairwise Span.Apart
  /-- A header holds its pieces, as they would be alone. -/
  holds : ∀ i p, before[i]? = some p → ∃ h, headers[own i]? = some h ∧
    h.memory ≤ p.span.memory ∧ p.span.memory + p.span.size ≤ h.memory + h.size
  /-- It has no byte beside its pieces. -/
  covered : ∀ k h, headers[k]? = some h → ∀ x, h.memory ≤ x → x ≤ h.memory + h.size →
    ∃ i p, before[i]? = some p ∧ own i = k ∧ pageFloor p.addr ≤ x ∧ x ≤ p.addr + p.len
  /-- Pieces that meet are in one header. -/
  linked : ∀ i j, Link before i j → own i = own j

/-- So are pieces that are connected. -/
theorem Grouped.own_eq (grouped : Grouped before headers own) {i j : Nat}
    (connected : Relation.EqvGen (Link before) i j) : own i = own j := by
  induction connected with
  | rel i j link => exact grouped.linked i j link
  | refl i => rfl
  | symm i j _ ih => exact ih.symm
  | trans i j k _ _ first second => exact first.trans second

/-- An element of a list with one more is an old one or the last. -/
theorem getElem?_concat_cases {α : Type} {l : List α} {a b : α} {i : Nat}
    (listed : (l ++ [a])[i]? = some b) :
    i < l.length ∧ l[i]? = some b ∨ i = l.length ∧ b = a := by
  rcases Nat.lt_trichotomy i l.length with old | rfl | outside
  · rw [List.getElem?_append_left old] at listed
    exact .inl ⟨old, listed⟩
  · rw [List.getElem?_concat_length] at listed
    exact .inr ⟨rfl, (Option.some.inj listed).symm⟩
  · rw [List.getElem?_eq_none (by rw [List.length_append]; exact outside)] at listed
    cases listed

section Step

variable (grouped : Grouped before headers own) (fits : r.Fits)

include grouped fits

/-- A piece that overlaps a header touches one of its pieces. -/
theorem Grouped.touches {k : Nat} (here : headers[k]? = some h)
    (overlaps : overlap r.range h.range = true) :
    ∃ i p, before[i]? = some p ∧ own i = k ∧ r.Touches p := by
  rw [fits.overlap_iff (grouped.placed h (List.mem_of_getElem? here))] at overlaps
  obtain ⟨i, p, listed, owner, low, high⟩ := grouped.covered k h here (max r.addr h.memory)
    (Nat.le_max_right _ _) (by omega)
  exact ⟨i, p, listed, owner, by omega, by omega⟩

/-- A piece that hangs on the earlier ones overlaps one header at most. -/
theorem Grouped.single (hangs : HangsOn before r) {k l : Nat} {g : Span}
    (here : headers[k]? = some h) (there : headers[l]? = some g)
    (overlaps : overlap r.range h.range = true) (different : l ≠ k) :
    overlap r.range g.range = false := by
  rw [← Bool.not_eq_true]
  intro also
  obtain ⟨i, p, listed, owner, touches⟩ := grouped.touches fits here overlaps
  obtain ⟨j, q, listed', owner', touches'⟩ := grouped.touches fits there also
  have same := grouped.own_eq (hangs i j p q listed listed' touches touches')
  exact different (by rw [← owner, ← owner', same])

/-- A piece that meets an earlier one overlaps its header. -/
theorem Grouped.overlaps {i : Nat} {p : Region} (listed : before[i]? = some p) (meets : r.Meets p) :
    ∃ h, headers[own i]? = some h ∧ overlap r.range h.range = true := by
  obtain ⟨h, here, low, high⟩ := grouped.holds i p listed
  refine ⟨h, here, (fits.overlap_iff (grouped.placed h (List.mem_of_getElem? here))).mpr ?_⟩
  unfold Region.Meets at meets
  omega

omit fits in
/-- The links of the pieces with one more: those there were, and those of the last piece. -/
theorem Grouped.linked_add {k : Nat} (last : ∀ i p, before[i]? = some p → r.Meets p → own i = k) :
    ∀ i j, Link (before ++ [r]) i j →
      Function.update own before.length k i = Function.update own before.length k j := by
  rintro i j ⟨p, q, ordered, first, second, meets⟩
  rcases getElem?_concat_cases second with ⟨inside, second⟩ | ⟨rfl, rfl⟩
  · rw [List.getElem?_append_left (Nat.lt_trans ordered inside)] at first
    rw [Function.update_of_ne (by omega), Function.update_of_ne (Nat.ne_of_lt inside)]
    exact grouped.linked i j ⟨p, q, ordered, first, second, meets⟩
  · rw [List.getElem?_append_left ordered] at first
    rw [Function.update_of_ne (Nat.ne_of_lt ordered), Function.update_self]
    exact last i p first meets

/-- A piece that overlaps no header fills a new one. -/
theorem Grouped.addNew (none : ∀ h ∈ headers, overlap r.range h.range = false) :
    Grouped (before ++ [r]) (headers ++ [r.span])
      (Function.update own before.length headers.length) := by
  obtain ⟨placed, short⟩ := fits.placed
  refine ⟨?_, ?_, ?_, ?_, grouped.linked_add fun i p listed meets => ?_⟩
  · exact List.forall_mem_append.mpr ⟨grouped.placed, by simpa using placed⟩
  · rw [List.pairwise_append]
    refine ⟨grouped.apart, List.pairwise_singleton _ _, fun h member g last => ?_⟩
    obtain rfl := List.mem_singleton.mp last
    exact fits.apart (grouped.placed h member) (none h member)
  · intro i p listed
    rcases getElem?_concat_cases listed with ⟨old, listed⟩ | ⟨rfl, rfl⟩
    · rw [Function.update_of_ne (Nat.ne_of_lt old)]
      obtain ⟨h, here, ends⟩ := grouped.holds i p listed
      obtain ⟨inside, -⟩ := List.getElem?_eq_some_iff.mp here
      exact ⟨h, by rw [List.getElem?_append_left inside, here], ends⟩
    · rw [Function.update_self, List.getElem?_concat_length]
      exact ⟨_, rfl, Nat.le_refl _, Nat.le_refl _⟩
  · intro k h here x low high
    rcases getElem?_concat_cases here with ⟨-, here⟩ | ⟨rfl, rfl⟩
    · obtain ⟨i, p, listed, owner, ends⟩ := grouped.covered k h here x low high
      obtain ⟨inside, -⟩ := List.getElem?_eq_some_iff.mp listed
      refine ⟨i, p, by rw [List.getElem?_append_left inside, listed], ?_, ends⟩
      rw [Function.update_of_ne (Nat.ne_of_lt inside), owner]
    · refine ⟨before.length, r, List.getElem?_concat_length, Function.update_self .., low, ?_⟩
      exact Nat.le_trans high short
  · obtain ⟨h, here, overlaps⟩ := grouped.overlaps fits listed meets
    rw [none h (List.mem_of_getElem? here)] at overlaps
    contradiction

/-- A piece that overlaps one header only is joined with it. -/
theorem Grouped.addJoined {k : Nat} (here : headers[k]? = some h)
    (overlaps : overlap r.range h.range = true)
    (single : ∀ l g, headers[l]? = some g → l ≠ k → overlap r.range g.range = false) :
    Grouped (before ++ [r]) (headers.set k (h.joined r)) (Function.update own before.length k) := by
  obtain ⟨inside, -⟩ := List.getElem?_eq_some_iff.mp here
  have placed := grouped.placed h (List.mem_of_getElem? here)
  obtain ⟨memory, stop⟩ := fits.joined_ends placed
  have touch := (fits.overlap_iff placed).mp overlaps
  have down := pageFloor_le r.addr
  refine ⟨?_, ?_, ?_, ?_, grouped.linked_add fun i p listed meets => ?_⟩
  · intro g member
    rcases List.mem_or_eq_of_mem_set member with old | rfl
    · exact grouped.placed g old
    · exact fits.joined placed
  · -- Only the header that is extended is another.
    refine pairwise_set grouped.apart fun l different g there => ?_
    exact fits.joined_apart placed (grouped.placed g (List.mem_of_getElem? there)) overlaps
      (single l g there different) (pairwise_at grouped.apart different there here)
  · have short := fits.placed
    have last := pageFloor_mono short.2
    rw [pageFloor_of_dvd (Nat.dvd_add short.1.memory short.1.size)] at last
    have alone : r.span.memory = pageFloor r.addr := rfl
    intro i p listed
    rcases getElem?_concat_cases listed with ⟨old, listed⟩ | ⟨rfl, rfl⟩
    · rw [Function.update_of_ne (Nat.ne_of_lt old)]
      obtain ⟨g, there, low, high⟩ := grouped.holds i p listed
      by_cases same : own i = k
      · rw [same, here] at there
        cases there
        rw [same, List.getElem?_set_self inside]
        exact ⟨_, rfl, by omega, by omega⟩
      · rw [List.getElem?_set_ne (Ne.symm same)]
        exact ⟨g, there, low, high⟩
    · rw [Function.update_self, List.getElem?_set_self inside]
      exact ⟨_, rfl, by omega, by omega⟩
  · intro l g there x low high
    -- A byte of an old header is a byte of one of its pieces.
    have old : ∀ f, headers[l]? = some f → f.memory ≤ x → x ≤ f.memory + f.size →
        ∃ i p, (before ++ [r])[i]? = some p ∧ Function.update own before.length k i = l ∧
          pageFloor p.addr ≤ x ∧ x ≤ p.addr + p.len := by
      intro f there low high
      obtain ⟨i, p, listed, owner, ends⟩ := grouped.covered l f there x low high
      obtain ⟨short, -⟩ := List.getElem?_eq_some_iff.mp listed
      refine ⟨i, p, by rw [List.getElem?_append_left short, listed], ?_, ends⟩
      rw [Function.update_of_ne (Nat.ne_of_lt short), owner]
    by_cases same : l = k
    · subst same
      rw [List.getElem?_set_self inside] at there
      cases there
      have end_ := pageFloor_le (r.addr + r.len)
      by_cases within : h.memory ≤ x ∧ x ≤ h.memory + h.size
      · exact old h here within.1 within.2
      · refine ⟨before.length, r, List.getElem?_concat_length, Function.update_self .., ?_, ?_⟩
        · omega
        · omega
    · rw [List.getElem?_set_ne (Ne.symm same)] at there
      exact old g there low high
  · obtain ⟨g, there, also⟩ := grouped.overlaps fits listed meets
    by_contra different
    rw [single _ g there different] at also
    contradiction

/-- Adding a piece that hangs on the earlier ones keeps the headers grouped. -/
theorem Grouped.add (hangs : HangsOn before r) (returned : addRegion r headers = .ok headers') :
    ∃ own, Grouped (before ++ [r]) headers' own := by
  rcases addRegion_ok returned with ⟨k, h, here, overlaps, rfl⟩ | ⟨none, rfl⟩
  · exact ⟨_, grouped.addJoined fits here overlaps fun l g there different =>
      grouped.single fits hangs here there overlaps different⟩
  · exact ⟨_, grouped.addNew fits none⟩

end Step

/-- So does adding all pieces. -/
theorem Grouped.addAll (grouped : Grouped before headers own) (hangs : Hangs (before ++ pieces))
    (returned : addAll pieces headers = .ok headers') :
    ∃ own, Grouped (before ++ pieces) headers' own := by
  induction pieces generalizing before headers own with
  | nil =>
    cases returned
    rw [List.append_nil]
    exact ⟨own, grouped⟩
  | cons r pieces ih =>
    obtain ⟨next, added, rest⟩ := of_bind_ok returned
    obtain ⟨own', after⟩ := grouped.add (hangs.fits r (by simp)) (hangs.hangsOn before r pieces rfl)
      added
    have regrouped : before ++ r :: pieces = (before ++ [r]) ++ pieces := by simp
    rw [regrouped] at hangs ⊢
    exact ih after hangs rest

/-! ## All pieces -/

/-- No piece overlaps an earlier one, each as a header of its own, so that the loop extends none,
and they have no byte in common. -/
def Unmerged (pieces : List Region) : Prop :=
  pieces.Pairwise fun q r => overlap r.range q.span.range = false ∧ q.span.Apart r.span

/-- The headers of such pieces are the rounded pieces. -/
theorem Unmerged.addAll (unmerged : Unmerged pieces) (headers : List Span)
    (beside : ∀ h ∈ headers, ∀ r ∈ pieces, overlap r.range h.range = false)
    (returned : addAll pieces headers = .ok headers') :
    headers' = headers ++ pieces.map Region.span := by
  induction pieces generalizing headers with
  | nil =>
    cases returned
    simp
  | cons r pieces ih =>
    obtain ⟨next, added, rest⟩ := of_bind_ok returned
    obtain ⟨first, others⟩ := List.pairwise_cons.mp unmerged
    rcases addRegion_ok added with ⟨k, h, here, overlaps, -⟩ | ⟨-, rfl⟩
    · rw [beside h (List.mem_of_getElem? here) r List.mem_cons_self] at overlaps
      contradiction
    · rw [ih others (headers ++ [r.span]) ?_ rest]
      · simp
      · intro h member q later
        rcases List.mem_append.mp member with old | new
        · exact beside h old q (List.mem_cons_of_mem r later)
        · obtain rfl := List.mem_singleton.mp new
          exact (first q later).1

/-- Pieces that hang together are grouped into headers. -/
theorem Hangs.grouped (hangs : Hangs pieces) (added : Boot.addAll pieces [] = .ok headers) :
    ∃ own, Grouped pieces headers own := by
  have start : Grouped [] [] fun i => i :=
    ⟨by simp, List.Pairwise.nil, by simp, by simp, by rintro i j ⟨p, q, -, none, -⟩; cases none⟩
  simpa using start.addAll (by simpa using hangs) added

/-- So these are disjoint. -/
theorem Hangs.apart (hangs : Hangs pieces) (added : Boot.addAll pieces [] = .ok headers) :
    headers.Pairwise Span.Apart := by
  obtain ⟨own, grouped⟩ := hangs.grouped added
  exact grouped.apart

/-! ## Available regions -/

/-- Each region touches one region before it at most. -/
def TouchesOne (regions : List Region) : Prop :=
  ∀ before r after, regions = before ++ r :: after →
    before.Pairwise fun p q => ¬ (r.Touches p ∧ r.Touches q)

/-- The pieces of a boot, region by region. -/
theorem allPieces_eq (carved : allPieces unavailable fuel available = .ok pieces) :
    ∃ f : Region → List Region, pieces = available.flatMap f ∧
      ∀ a ∈ available, piecesOf unavailable fuel a = .ok (f a) := by
  refine ⟨fun a => (piecesOf unavailable fuel a).toOption.getD [], ?_⟩
  induction available generalizing pieces with
  | nil =>
    cases carved
    simp
  | cons a available ih =>
    obtain ⟨first, here, carved⟩ := of_bind_ok carved
    obtain ⟨others, later, carved⟩ := of_bind_ok carved
    cases carved
    obtain ⟨rfl, each⟩ := ih later
    refine ⟨?_, fun b member => ?_⟩
    · rw [List.flatMap_cons, here]
      rfl
    · rcases List.mem_cons.mp member with rfl | rest
      · simp [here, Except.toOption]
      · exact each b rest

/-- Where a list of pieces is cut, one of the regions is, and its pieces. -/
theorem flatMap_split {f : Region → List Region} {after : List Region}
    (split : available.flatMap f = before ++ r :: after) :
    ∃ regions a others front back, available = regions ++ a :: others ∧
      f a = front ++ r :: back ∧ before = regions.flatMap f ++ front := by
  induction available generalizing before with
  | nil => simp at split
  | cons a available ih =>
    rw [List.flatMap_cons] at split
    rcases List.append_eq_append_iff.mp split with ⟨middle, rfl, rest⟩ | ⟨middle, here, rest⟩
    · obtain ⟨regions, b, others, front, back, rfl, parts, rfl⟩ := ih rest
      exact ⟨a :: regions, b, others, front, back, rfl, parts, by simp⟩
    · cases middle with
      | nil =>
        obtain ⟨regions, b, others, front, back, rfl, parts, none⟩ :=
          ih (show _ = [] ++ r :: after from rest.symm)
        refine ⟨a :: regions, b, others, front, back, rfl, parts, ?_⟩
        rw [List.flatMap_cons, List.append_assoc, ← none, List.append_nil, here, List.append_nil]
      | cons p middle =>
        obtain ⟨rfl, -⟩ := List.cons_eq_cons.mp rest
        exact ⟨[], a, available, before, middle, rfl, here, by simp⟩

/-- What touches a part touches the region as well. -/
theorem Region.Touches.mono {p q b : Region} (touches : r.Touches p) (low : b.addr ≤ r.addr)
    (high : r.addr + r.len ≤ b.addr + b.len) (lowQ : q.addr ≤ p.addr)
    (highQ : p.addr + p.len ≤ q.addr + q.len) : b.Touches q := by
  have floor := pageFloor_mono lowQ
  unfold Region.Touches at *
  omega

/-- The pieces of such regions hang together. -/
theorem hangs_of_regions (words : ∀ u ∈ unavailable, u.Fits) (fits : ∀ a ∈ available, a.Fits)
    (narrow : ∀ a ∈ available, NarrowPasses unavailable (a, unavailable))
    (one : TouchesOne available) (carved : allPieces unavailable fuel available = .ok pieces) :
    Hangs pieces := by
  obtain ⟨f, rfl, each⟩ := allPieces_eq carved
  have parts : ∀ a ∈ available, Pieces unavailable a a (f a) := fun a member =>
    piecesOf_pieces words (.refl (fits a member)) (narrow a member) (each a member)
  refine ⟨fun r member => ?_, fun before r after split => ?_⟩
  · obtain ⟨a, listed, piece⟩ := List.mem_flatMap.mp member
    exact ((parts a listed).left r piece).fits
  · obtain ⟨regions, a, others, front, back, rfl, here, rfl⟩ := flatMap_split split
    have partsA := parts a (by simp)
    have left := partsA.left r (by simp [here])
    have ordered := partsA.ascending
    rw [here, List.pairwise_append] at ordered
    apply hangsOn_of_pairwise
    -- A piece of the same region ends before the piece.
    have own : ∀ p ∈ front, ¬ r.Touches p := by
      intro p member touches
      obtain ⟨u, -, before, behind⟩ := ordered.2.2 p member r List.mem_cons_self
      have high := touches.2
      have page : 0 < pageSize := by decide
      omega
    -- Of one earlier region the piece touches one piece, since it is on one side of what parts them.
    have inside : ∀ b ∈ regions, (f b).Pairwise fun p q => ¬ (r.Touches p ∧ r.Touches q) := by
      intro b member
      refine (parts b (by simp [member])).ascending.imp ?_
      rintro p q ⟨u, listed, before, behind⟩ ⟨touchesP, touchesQ⟩
      have low := touchesP.2
      have high := touchesQ.1
      have close := lt_pageFloor_add q.addr
      have passed := left.passed u listed
      omega
    rw [List.pairwise_append, List.flatMap, List.pairwise_flatten, List.pairwise_map]
    refine ⟨⟨by simpa using inside, ?_⟩, ?_, ?_⟩
    · refine (one regions a others rfl).imp_of_mem fun {b c} memberB memberC apart => ?_
      intro p pieceP q pieceQ both
      have partB := (parts b (by simp [memberB])).within p pieceP
      have partC := (parts c (by simp [memberC])).within q pieceQ
      exact apart ⟨both.1.mono left.above left.below partB.1 partB.2,
        both.2.mono left.above left.below partC.1 partC.2⟩
    · exact List.pairwise_of_forall_mem_list fun p member q _ both => own p member both.1
    · exact fun p _ q member both => own q member both.2

/-! ## All regions -/

/-- No piece reaches into two headers. -/
inductive Untangled (unavailable : List Region) (fuel : Nat) (available : List Region) : Prop where
  /-- Every cut has room, and each available region touches one region before it at most. -/
  | regions (words : ∀ u ∈ unavailable, u.Fits) (fits : ∀ a ∈ available, a.Fits)
      (narrow : ∀ a ∈ available, NarrowPasses unavailable (a, unavailable))
      (one : TouchesOne available)
  /-- Every piece touches earlier pieces only that hang together. -/
  | pieces {pieces : List Region} (carved : allPieces unavailable fuel available = .ok pieces)
      (hangs : Hangs pieces)
  /-- No piece overlaps an earlier one. -/
  | unmerged {pieces : List Region} (carved : allPieces unavailable fuel available = .ok pieces)
      (unmerged : Unmerged pieces)

/-- The places at which a list can be split at an element. -/
theorem forall_split_cons {α : Type} {P : List α → α → Prop} {a : α} {l : List α} :
    (∀ before b after, a :: l = before ++ b :: after → P before b) ↔
      P [] a ∧ ∀ before b after, l = before ++ b :: after → P (a :: before) b := by
  constructor
  · intro every
    exact ⟨every [] a l rfl, fun before b after split => every (a :: before) b after (by simp [split])⟩
  · rintro ⟨first, others⟩ before b after split
    cases before with
    | nil =>
      cases split
      exact first
    | cons c before =>
      obtain ⟨rfl, rest⟩ := List.cons_eq_cons.mp split
      exact others before b after rest

/-- There are none in the empty list. -/
theorem forall_split_nil {α : Type} {P : List α → α → Prop} :
    (∀ before b after, [] = before ++ b :: after → P before b) ↔ True := by
  simp

end FelineOS.Boot
