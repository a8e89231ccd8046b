import FelineOS.Verif.HeaderPlace
import FelineOS.Verif.OwnMemory

/-!
# Where the chunk and its header agree

The place of the first chunk is the lowest clear page of an available region (`HeaderPlace`), and the
free headers are the pieces that the regions are carved into (`CarvingPieces`). A piece that begins a
page behind an unavailable region begins in the page at which the search goes on behind it, so the
two agree about that page; they disagree where a region begins within a page, and where another
unavailable region ends in the bytes that the rounding adds to a piece. `Sheltered` says of the lists
that this does not happen around the chunk: the other available regions stay clear of it, or they
overlap without a piece that reaches into two headers or across the start of the chunk. Then a header
begins at the chunk or stays clear of it, and the reservation takes the chunk
(`startPhysMemManager_protects`).
-/

namespace FelineOS.PhysMem

open Boot
open Library (Block Obstacles)

variable {unavailable available pieces regions others : List Region} {a b r : Region}
  {headers headers' : List Span} {h : Span} {size p place fuel : Nat} {s' : Pmm}

/-! ## The region of the chunk -/

/-- The search for `size` bytes finds nothing in the region: it gives up, or it comes to null. -/
def FindsNothing (unavailable : List Region) (size : Nat) (b : Region) : Prop :=
  (∃ u, (regionObstacles unavailable (b.addr + b.len) size).GivesUp (nextPage b.addr) u) ∨
    LowestClear unavailable b.addr size 0

/-- The chunk goes to the lowest clear page of the region, since the regions before it have no place
for it. -/
structure Chosen (unavailable : List Region) (size : Nat) (regions : List Region) (a : Region)
    (p : Nat) : Prop where
  /-- The regions before have no place. -/
  nothing : ∀ b ∈ regions, FindsNothing unavailable size b
  /-- The place is the lowest clear page. -/
  lowest : LowestClear unavailable a.addr size p
  /-- The search comes to it. -/
  found : ∀ u, ¬ (regionObstacles unavailable (a.addr + a.len) size).GivesUp (nextPage a.addr) u
  /-- It is not null. -/
  some : p ≠ 0

/-- The search of the regions ends with the one that is chosen. -/
theorem exists_chosen (fits : ∀ b ∈ available, b.Fits)
    (sums : ∀ b ∈ available, SumsReached unavailable b.addr (b.addr + b.len) size)
    (returned : findHeaderSpace unavailable size fuel available = .ok place) (found : place ≠ 0) :
    ∃ regions a others, available = regions ++ a :: others ∧
      Chosen unavailable size regions a place := by
  induction available with
  | nil =>
    cases returned
    exact absurd rfl found
  | cons b available ih =>
    obtain ⟨here, sought, rest⟩ := of_bind_ok returned
    have word : wrap (b.addr + b.len) = b.addr + b.len := wrap_of_lt (fits b List.mem_cons_self)
    rw [word] at sought
    have outcome := findSpaceInArea_ok (sums b List.mem_cons_self) sought
    by_cases null : here = 0
    · rw [if_pos null] at rest
      obtain ⟨regions, a, others, rfl, chosen⟩ :=
        ih (fun c member => fits c (List.mem_cons_of_mem b member))
          (fun c member => sums c (List.mem_cons_of_mem b member)) rest
      refine ⟨b :: regions, a, others, rfl, ?_, chosen.lowest, chosen.found, chosen.some⟩
      refine List.forall_mem_cons.mpr ⟨?_, chosen.nothing⟩
      rcases outcome with ⟨lowest, -⟩ | ⟨-, quits⟩
      · rw [null] at lowest
        exact .inr lowest
      · exact .inl quits
    · rw [if_neg null] at rest
      cases rest
      rcases outcome with ⟨lowest, goesOn⟩ | ⟨null', -⟩
      · exact ⟨[], b, available, rfl, by simp, lowest, goesOn, found⟩
      · exact absurd null' null

/-! ## The condition -/

/-- Where the chunk goes to the page `p` of the region `a`: the header that it comes to begins with
it and is long enough, and the other regions are clear of it. -/
structure Agrees (unavailable : List Region) (size : Nat) (a : Region) (beside : List Region)
    (p : Nat) : Prop where
  /-- The region begins on a page, unless its first page is not the place. -/
  start : pageSize ∣ a.addr ∨ p ≠ nextPage a.addr
  /-- No unavailable region ends in the bytes that are added to a piece before the chunk when its
  start is rounded down. -/
  clean : ∀ r, Relation.ReflTransGen (Pass unavailable) (a, unavailable) (r, []) →
    pageFloor r.addr < p →
      ∀ u ∈ unavailable, ¬ (pageFloor r.addr ≤ u.addr + u.len ∧ u.addr + u.len < r.addr)
  /-- A piece that begins in the first page of the chunk is as long as the chunk, or has no page. -/
  long : ∀ r, Relation.ReflTransGen (Pass unavailable) (a, unavailable) (r, []) →
    pageFloor r.addr = p → r.len < pageSize ∨ size ≤ pageFloor r.len
  /-- Every other region ends before the chunk or begins behind it. -/
  beside : ∀ b ∈ beside, b.addr + b.len < p ∨ p + size ≤ pageFloor b.addr

/-- No sum wraps, every cut has room, and the chunk and its header agree. -/
structure RegionsAgree (unavailable available : List Region) (size : Nat) : Prop where
  /-- The unavailable regions end below the end of the address space. -/
  words : ∀ u ∈ unavailable, u.Fits
  /-- So do the available ones. -/
  fits : ∀ b ∈ available, b.Fits
  /-- The sums that the search comes to are words. -/
  sums : ∀ b ∈ available, SumsReached unavailable b.addr (b.addr + b.len) size
  /-- The cuts have room. -/
  narrow : ∀ b ∈ available, NarrowPasses unavailable (b, unavailable)
  /-- The region that is chosen agrees with its header. -/
  agrees : ∀ regions a others p, available = regions ++ a :: others →
    Chosen unavailable size regions a p → Agrees unavailable size a (regions ++ others) p

/-- No piece reaches across the start of the chunk, which begins one that is long enough. -/
structure Opens (pieces : List Region) (size p : Nat) : Prop where
  /-- A piece ends before the chunk, or begins in the first page of the chunk or behind it. -/
  side : ∀ r ∈ pieces, r.addr + r.len < p ∨ p ≤ pageFloor r.addr
  /-- One begins in that page and is as long as the chunk. It begins with the page, or no earlier one
  that begins there is shorter than a page. -/
  long : ∃ front r back, pieces = front ++ r :: back ∧ pageFloor r.addr = p ∧
    size ≤ pageFloor r.len ∧ (r.addr = p ∨ ∀ q ∈ front, pageFloor q.addr = p → pageSize ≤ q.len)

/-- No sum wraps, no piece reaches into two headers, and the chunk begins a piece. The available
regions may overlap. -/
structure PiecesAgree (unavailable available pieces : List Region) (size : Nat) : Prop where
  /-- The available regions end below the end of the address space. -/
  fits : ∀ b ∈ available, b.Fits
  /-- The sums that the search comes to are words. -/
  sums : ∀ b ∈ available, SumsReached unavailable b.addr (b.addr + b.len) size
  /-- The earlier pieces that a piece touches hang together. -/
  hangs : Hangs pieces
  /-- The chunk begins a piece. -/
  opens : ∀ regions a others p, available = regions ++ a :: others →
    Chosen unavailable size regions a p → Opens pieces size p

/-- The chunk and the header that holds it agree, as to the regions or as to their pieces. -/
inductive Sheltered (unavailable available : List Region) (fuel size : Nat) : Prop where
  /-- As to the regions: the other ones stay clear of the chunk. -/
  | regions (agree : RegionsAgree unavailable available size)
  /-- As to the pieces: none reaches into two headers. -/
  | pieces {pieces : List Region} (carved : allPieces unavailable fuel available = .ok pieces)
      (agree : PiecesAgree unavailable available pieces size)

/-! ## The pieces -/

/-- The range from `start` to `stop` ends before the chunk or begins behind it. -/
def Aside (p size start stop : Nat) : Prop := stop < p ∨ p + size ≤ start

/-- A piece of the region of the chunk begins in the first page of the chunk or stays aside. -/
theorem piece_aside (agrees : Agrees unavailable size a others p)
    (lowest : LowestClear unavailable a.addr size p) (left : Left unavailable unavailable a r)
    (reached : Relation.ReflTransGen (Pass unavailable) (a, unavailable) (r, [])) :
    pageFloor r.addr = p ∨ Aside p size (pageFloor r.addr) (r.addr + r.len) := by
  have page := lowest.aligned
  have above := lowest.above
  have down := pageFloor_le r.addr
  -- A piece behind an unavailable region begins in the page behind that one.
  have behind : ∀ v : Region, r.addr = v.addr + v.len + pageSize →
      pageFloor r.addr = pageFloor (v.addr + v.len) + pageSize := by
    intro v same
    rw [same]
    unfold pageFloor pageSize
    omega
  -- An unavailable region in the way of a lower page ends before the chunk, and before the piece.
  have before : ∀ q, pageSize ∣ q → a.addr ≤ q → q < p → p ≤ r.addr + r.len →
      ∃ u ∈ unavailable, q ≤ u.addr + u.len ∧ u.addr + u.len < r.addr := by
    intro q pageQ aboveQ lower reaches
    have blocked : ¬ ClearAt unavailable size q := fun clear =>
      absurd (lowest.lowest q pageQ aboveQ clear) (Nat.not_le_of_lt lower)
    unfold ClearAt at blocked
    push Not at blocked
    obtain ⟨u, listed, ends, begins⟩ := blocked
    have clear := lowest.clear u listed
    have passed := left.passed u listed
    exact ⟨u, listed, ends, by omega⟩
  rcases Nat.lt_trichotomy (pageFloor r.addr) p with lower | same | higher
  · by_cases low : r.addr + r.len < p
    · exact .inr (.inl low)
    · exfalso
      by_cases inside : a.addr ≤ pageFloor r.addr
      · obtain ⟨u, listed, ends, begins⟩ := before (pageFloor r.addr) (pageSize_dvd_pageFloor _)
          inside lower (Nat.le_of_not_lt low)
        exact agrees.clean r reached lower u listed ⟨ends, begins⟩
      · -- The piece begins with the region, within a page.
        have first : r.addr = a.addr := by
          rcases left.start with same | ⟨v, -, ends, same⟩
          · exact same
          · have next := behind v same
            have close := lt_pageFloor_add (v.addr + v.len)
            omega
        obtain ⟨pageN, aboveN, closest⟩ := nextPage_spec a.addr
        rcases agrees.start with aligned | other
        · rw [first, pageFloor_of_dvd aligned] at inside
          omega
        · have lowerN := Nat.lt_of_le_of_ne (closest p page above) (Ne.symm other)
          obtain ⟨u, -, ends, begins⟩ := before (nextPage a.addr) pageN aboveN lowerN
            (Nat.le_of_not_lt low)
          omega
  · exact .inl same
  · right
    right
    rcases left.start with same | ⟨v, listed, ends, same⟩
    · omega
    · have next := behind v same
      have clear := lowest.clear v listed
      have floor := pageFloor_le (v.addr + v.len)
      have close := lt_pageFloor_add (v.addr + v.len)
      unfold pageSize at page next close
      unfold pageFloor pageSize at *
      omega

/-- One element at most passes a test exactly when no two do. -/
theorem countP_le_one_iff {α : Type} {test : α → Bool} {l : List α} :
    l.countP test ≤ 1 ↔ l.Pairwise fun a b => ¬ (test a = true ∧ test b = true) := by
  induction l with
  | nil => simp
  | cons a l ih =>
    rw [List.pairwise_cons, ← ih]
    cases here : test a with
    | false =>
      rw [List.countP_cons_of_neg (by simp [here])]
      simp
    | true =>
      have none : l.countP test = 0 ↔ ∀ b ∈ l, ¬ (true = true ∧ test b = true) := by
        simp [List.countP_eq_zero]
      rw [List.countP_cons_of_pos here, ← none]
      omega

/-- What the pieces of a boot look like from the chunk. -/
structure Around (p size : Nat) (pieces : List Region) : Prop where
  /-- A piece begins in the first page of the chunk, and is as long or has no page, or it stays
  aside. -/
  piece : ∀ r ∈ pieces, r.Fits ∧
    (pageFloor r.addr = p ∧ (r.len < pageSize ∨ size ≤ pageFloor r.len) ∨
      Aside p size (pageFloor r.addr) (r.addr + r.len))
  /-- One piece at most begins in that page. -/
  single : pieces.countP (fun r => decide (pageFloor r.addr = p)) ≤ 1

/-- The pieces of such regions lie around the chunk. -/
theorem RegionsAgree.around (agree : RegionsAgree unavailable available size) (positive : 0 < size)
    (split : available = regions ++ a :: others)
    (chosen : Chosen unavailable size regions a p)
    (carved : allPieces unavailable fuel available = .ok pieces) : Around p size pieces := by
  have agrees := agree.agrees regions a others p split chosen
  obtain ⟨f, rfl, each⟩ := allPieces_eq carved
  have parts : ∀ b ∈ available, Pieces unavailable b b (f b) := fun b member =>
    piecesOf_pieces agree.words (.refl (agree.fits b member)) (agree.narrow b member)
      (each b member)
  have listed : a ∈ available := by simp [split]
  -- A piece of another region stays aside.
  have other : ∀ b ∈ regions ++ others, ∀ r ∈ f b,
      Aside p size (pageFloor r.addr) (r.addr + r.len) := by
    intro b member r piece
    have inside := (parts b (by rw [split]; simp at member ⊢; tauto)).within r piece
    have floor := pageFloor_mono inside.1
    rcases agrees.beside b member with before | behind
    · exact .inl (by omega)
    · exact .inr (by omega)
  have notThere : ∀ r : Region, Aside p size (pageFloor r.addr) (r.addr + r.len) →
      pageFloor r.addr ≠ p := by
    intro r aside
    have floor := pageFloor_le r.addr
    unfold Aside at aside
    omega
  have mine : ∀ r ∈ f a, pageFloor r.addr = p ∧ (r.len < pageSize ∨ size ≤ pageFloor r.len) ∨
      Aside p size (pageFloor r.addr) (r.addr + r.len) := by
    intro r piece
    have reached := piecesOf_reached .refl (each a listed) r piece
    rcases piece_aside agrees chosen.lowest ((parts a listed).left r piece) reached with here | aside
    · exact .inl ⟨here, agrees.long r reached here⟩
    · exact .inr aside
  constructor
  · intro r member
    obtain ⟨b, listed, piece⟩ := List.mem_flatMap.mp member
    refine ⟨((parts b listed).left r piece).fits, ?_⟩
    rw [split] at listed
    rcases List.mem_append.mp listed with earlier | rest
    · exact .inr (other b (List.mem_append_left _ earlier) r piece)
    · rcases List.mem_cons.mp rest with rfl | later
      · exact mine r piece
      · exact .inr (other b (List.mem_append_right _ later) r piece)
  · have none : ∀ bs : List Region, (∀ b ∈ bs, b ∈ regions ++ others) →
        (bs.flatMap f).countP (fun r => decide (pageFloor r.addr = p)) = 0 := by
      intro bs inside
      rw [List.countP_eq_zero]
      intro r member
      obtain ⟨b, listed, piece⟩ := List.mem_flatMap.mp member
      simpa using notThere r (other b (inside b listed) r piece)
    rw [split, List.flatMap_append, List.flatMap_cons, List.countP_append, List.countP_append,
      none regions fun b member => List.mem_append_left _ member,
      none others fun b member => List.mem_append_right _ member, Nat.zero_add, Nat.add_zero]
    -- Two pieces of the region are parted, so that they begin in different pages.
    rw [countP_le_one_iff]
    refine (parts a listed).ascending.imp ?_
    rintro q r ⟨u, -, before, behind⟩ ⟨first, second⟩
    have floor := pageFloor_le q.addr
    have close := lt_pageFloor_add r.addr
    simp only [decide_eq_true_eq] at first second
    omega

/-! ## The headers -/

/-- A header begins at the chunk and is as long, or empty, or it stays aside. -/
def HeaderFits (p size : Nat) (h : Span) : Prop :=
  h.memory = p ∧ (h.size = 0 ∨ size ≤ h.size) ∨ Aside p size h.memory (h.memory + h.size)

/-- A piece that is added keeps the headers around the chunk. -/
theorem headerFits_add (positive : 0 < size) (fits : r.Fits)
    (placed : ∀ h ∈ headers, h.Placed) (headersFit : ∀ h ∈ headers, HeaderFits p size h)
    (piece : pageFloor r.addr = p ∧ (r.len < pageSize ∨ size ≤ pageFloor r.len) ∨
      Aside p size (pageFloor r.addr) (r.addr + r.len))
    (single : headers.countP (fun h => decide (h.memory = p)) +
      (if pageFloor r.addr = p then 1 else 0) ≤ 1)
    (added : addRegion r headers = .ok headers') :
    (∀ h ∈ headers', HeaderFits p size h) ∧
      headers'.countP (fun h => decide (h.memory = p)) ≤
        headers.countP (fun h => decide (h.memory = p)) + (if pageFloor r.addr = p then 1 else 0) := by
  have down := pageFloor_le r.addr
  rcases addRegion_ok added with ⟨k, h, here, overlaps, rfl⟩ | ⟨-, rfl⟩
  · have member := List.mem_of_getElem? here
    obtain ⟨inside, same⟩ := List.getElem?_eq_some_iff.mp here
    obtain ⟨memory, stop⟩ := fits.joined_ends (placed h member)
    rw [fits.overlap_iff (placed h member)] at overlaps
    have low := pageFloor_le (r.addr + r.len)
    have header := headersFit h member
    -- At most one of the two begins at the chunk.
    have one : ¬ (h.memory = p ∧ pageFloor r.addr = p) := by
      rintro ⟨first, second⟩
      rw [if_pos second] at single
      have counted : 0 < headers.countP (fun h => decide (h.memory = p)) :=
        List.countP_pos_iff.mpr ⟨h, member, by simpa using first⟩
      omega
    constructor
    · intro g other
      rcases List.mem_or_eq_of_mem_set other with old | rfl
      · exact headersFit g old
      · unfold HeaderFits Aside at *
        omega
    · rw [List.countP_set inside, same]
      have counted : h.memory = p → 0 < headers.countP (fun h => decide (h.memory = p)) :=
        fun first => List.countP_pos_iff.mpr ⟨h, member, by simpa using first⟩
      simp only [decide_eq_true_eq]
      split <;> split <;> split <;> omega
  · constructor
    · intro g member
      rcases List.mem_append.mp member with old | new
      · exact headersFit g old
      · obtain rfl := List.mem_singleton.mp new
        have short := fits.placed.2
        have empty : r.len < pageSize → pageFloor r.len = 0 := by
          unfold pageFloor pageSize
          omega
        unfold HeaderFits Aside Region.span at *
        simp only at *
        omega
    · rw [List.countP_append, List.countP_singleton]
      by_cases here : pageFloor r.addr = p <;> simp [Region.span, here]

/-- So do all pieces. -/
theorem headerFits_addAll (positive : 0 < size) (around : Around p size pieces)
    (placed : ∀ h ∈ headers, h.Placed) (headersFit : ∀ h ∈ headers, HeaderFits p size h)
    (single : headers.countP (fun h => decide (h.memory = p)) +
      pieces.countP (fun r => decide (pageFloor r.addr = p)) ≤ 1)
    (added : addAll pieces headers = .ok headers') :
    (∀ h ∈ headers', h.Placed) ∧ (∀ h ∈ headers', HeaderFits p size h) ∧
      headers'.countP (fun h => decide (h.memory = p)) ≤ 1 := by
  induction pieces generalizing headers with
  | nil =>
    cases added
    exact ⟨placed, headersFit, by simpa using single⟩
  | cons r pieces ih =>
    obtain ⟨next, first, rest⟩ := of_bind_ok added
    obtain ⟨fits, piece⟩ := around.piece r List.mem_cons_self
    have later : pieces.countP (fun r => decide (pageFloor r.addr = p)) ≤ 1 :=
      Nat.le_trans (List.sublist_cons_self r pieces).countP_le around.single
    rw [List.countP_cons] at single
    simp only [decide_eq_true_eq] at single
    obtain ⟨nextFit, counted⟩ := headerFits_add positive fits placed headersFit piece (by omega)
      first
    exact ih ⟨fun q member => around.piece q (List.mem_cons_of_mem r member), later⟩
      (addRegion_placed fits placed first) nextFit (by omega) rest

/-- Headers around the chunk guard it. -/
theorem guarded_of_headerFits (positive : 0 < size) (placed : ∀ h ∈ headers, h.Placed)
    (headersFit : ∀ h ∈ headers, HeaderFits p size h)
    (single : headers.countP (fun h => decide (h.memory = p)) ≤ 1) : Guarded headers p size := by
  have clear : ∀ h ∈ headers, (h.memory = p → h.size = 0) → ClearOf p size h := by
    intro h member empty x above below has
    have fits := headersFit h member
    have start := has.1
    have stop := has.2
    unfold HeaderFits Aside at fits
    omega
  by_cases chunk : ∃ h ∈ headers, h.memory = p ∧ size ≤ h.size
  · obtain ⟨h, member, here, enough⟩ := chunk
    obtain ⟨i, inside, rfl⟩ := List.getElem_of_mem member
    -- No other header begins at the chunk.
    have other : ∀ j ≠ i, ∀ g, headers[j]? = some g → g.memory ≠ p := by
      intro j different g read there
      exact not_both_at (countP_le_one_iff.mp single) different read
        (List.getElem?_eq_getElem inside) ⟨by simpa using there, by simpa using here⟩
    have room := (placed _ member).fits
    refine .inr ⟨i, headers[i], ⟨List.getElem?_eq_getElem inside, ?_, ?_⟩, enough, .inl here, ?_⟩
    · refine ⟨Nat.le_of_eq here, ?_⟩
      rw [wrap_of_lt room]
      omega
    · intro j before g read reaches
      have different := other j (Nat.ne_of_lt before) g read
      have fits := headersFit g (List.mem_of_getElem? read)
      have start := reaches.1
      have stop := reaches.2
      rw [wrap_of_lt (placed g (List.mem_of_getElem? read)).fits] at stop
      unfold HeaderFits Aside at fits
      omega
    · intro j different g read
      exact clear g (List.mem_of_getElem? read) fun there => absurd there (other j different g read)
  · refine .inl fun h member => clear h member fun here => ?_
    have fits := headersFit h member
    have short : ¬ size ≤ h.size := fun enough => chunk ⟨h, member, here, enough⟩
    unfold HeaderFits Aside at fits
    omega

/-! ## The headers of overlapping regions -/

/-- A header ends before the chunk, or begins at the chunk or behind it. -/
def OnSide (p : Nat) (h : Span) : Prop := h.memory + h.size < p ∨ p ≤ h.memory

/-- A header that begins at the chunk is not empty. -/
def Filled (p : Nat) (h : Span) : Prop := h.memory = p → 0 < h.size

/-- A piece with a page ends at least a page behind the page that it begins in. -/
theorem long_piece (long : pageSize ≤ r.len) :
    pageFloor r.addr + pageSize ≤ pageFloor (r.addr + r.len) ∧ pageSize ≤ pageFloor r.len := by
  unfold pageFloor pageSize at *
  omega

section Step

variable (fits : r.Fits) (placed : ∀ h ∈ headers, h.Placed)

include fits placed

/-- A piece that stays on a side keeps the headers there. -/
theorem onSide_add (onSide : ∀ h ∈ headers, OnSide p h)
    (side : r.addr + r.len < p ∨ p ≤ pageFloor r.addr)
    (added : addRegion r headers = .ok headers') : ∀ h ∈ headers', OnSide p h := by
  have down := pageFloor_le r.addr
  rcases addRegion_ok added with ⟨k, h, here, overlaps, rfl⟩ | ⟨-, rfl⟩
  · have member := List.mem_of_getElem? here
    obtain ⟨memory, stop⟩ := fits.joined_ends (placed h member)
    rw [fits.overlap_iff (placed h member)] at overlaps
    have low := pageFloor_le (r.addr + r.len)
    have header := onSide h member
    intro g other
    rcases List.mem_or_eq_of_mem_set other with old | rfl
    · exact onSide g old
    · unfold OnSide at *
      omega
  · intro g member
    rcases List.mem_append.mp member with old | new
    · exact onSide g old
    · obtain rfl := List.mem_singleton.mp new
      have short := fits.placed.2
      unfold OnSide Region.span at *
      simp only at *
      omega

/-- A piece keeps the headers filled, unless it fills a new one at the chunk and has no page. -/
theorem filled_add (filled : ∀ h ∈ headers, Filled p h)
    (fills : (∀ h ∈ headers, overlap r.range h.range = false) → pageFloor r.addr = p →
      pageSize ≤ r.len)
    (added : addRegion r headers = .ok headers') : ∀ h ∈ headers', Filled p h := by
  have page : 0 < pageSize := by decide
  rcases addRegion_ok added with ⟨k, h, here, -, rfl⟩ | ⟨none, rfl⟩
  · have member := List.mem_of_getElem? here
    obtain ⟨memory, stop⟩ := fits.joined_ends (placed h member)
    have header := filled h member
    intro g other
    rcases List.mem_or_eq_of_mem_set other with old | rfl
    · exact filled g old
    · unfold Filled at *
      omega
  · intro g member
    rcases List.mem_append.mp member with old | new
    · exact filled g old
    · obtain rfl := List.mem_singleton.mp new
      intro start
      exact Nat.lt_of_lt_of_le page (long_piece (fills none start)).2

/-- A piece that begins with the chunk and has a page leaves all headers filled, when it overlaps one
header at most. -/
theorem filled_addAligned (start : r.addr = p) (aligned : pageSize ∣ p) (long : pageSize ≤ r.len)
    (single : ∀ (k l : Nat) (h g : Span), headers[k]? = some h → headers[l]? = some g →
      overlap r.range h.range = true → l ≠ k → overlap r.range g.range = false)
    (added : addRegion r headers = .ok headers') : ∀ h ∈ headers', Filled p h := by
  have page : 0 < pageSize := by decide
  have stops := (long_piece long).1
  rw [start, pageFloor_of_dvd aligned] at stops
  -- The piece overlaps every header that begins there.
  have overlapped : ∀ g ∈ headers, g.memory = p → overlap r.range g.range = true := by
    intro g member there
    rw [fits.overlap_iff (placed g member)]
    omega
  rcases addRegion_ok added with ⟨k, h, here, overlaps, rfl⟩ | ⟨none, rfl⟩
  · obtain ⟨memory, stop⟩ := fits.joined_ends (placed h (List.mem_of_getElem? here))
    intro g other there
    obtain ⟨l, inside, rfl⟩ := List.getElem_of_mem other
    rw [List.length_set] at inside
    rw [List.getElem_set] at there ⊢
    by_cases same : k = l
    · rw [if_pos same] at there ⊢
      rw [start] at stop
      omega
    · rw [if_neg same] at there
      have separate := single k l h _ here (List.getElem?_eq_getElem inside) overlaps
        (Ne.symm same)
      rw [overlapped _ (List.getElem_mem inside) there] at separate
      contradiction
  · intro g member there
    rcases List.mem_append.mp member with old | new
    · have separate := none g old
      rw [overlapped g old there] at separate
      contradiction
    · obtain rfl := List.mem_singleton.mp new
      exact Nat.lt_of_lt_of_le page (long_piece long).2

end Step

/-- Pieces that stay on the sides keep the headers there, and pieces with a page keep them filled. -/
theorem onSide_addAll (fits : ∀ r ∈ pieces, r.Fits)
    (side : ∀ r ∈ pieces, r.addr + r.len < p ∨ p ≤ pageFloor r.addr)
    (placed : ∀ h ∈ headers, h.Placed) (onSide : ∀ h ∈ headers, OnSide p h)
    (added : addAll pieces headers = .ok headers') :
    (∀ h ∈ headers', OnSide p h) ∧
      ((∀ r ∈ pieces, pageFloor r.addr = p → pageSize ≤ r.len) → (∀ h ∈ headers, Filled p h) →
        ∀ h ∈ headers', Filled p h) := by
  induction pieces generalizing headers with
  | nil =>
    cases added
    exact ⟨onSide, fun _ filled => filled⟩
  | cons r pieces ih =>
    obtain ⟨next, first, rest⟩ := of_bind_ok added
    obtain ⟨fitsR, fits⟩ := List.forall_mem_cons.mp fits
    obtain ⟨sideR, side⟩ := List.forall_mem_cons.mp side
    obtain ⟨later, laterFilled⟩ := ih fits side (addRegion_placed fitsR placed first)
      (onSide_add fitsR placed onSide sideR first) rest
    refine ⟨later, fun long filled => ?_⟩
    obtain ⟨longR, long⟩ := List.forall_mem_cons.mp long
    exact laterFilled long (filled_add fitsR placed filled (fun _ => longR) first)

/-- A header begins at the chunk, and the headers lie on its sides and are filled. -/
structure Opened (headers : List Span) (p : Nat) : Prop where
  /-- They are placed. -/
  placed : ∀ h ∈ headers, h.Placed
  /-- They lie on the sides. -/
  onSide : ∀ h ∈ headers, OnSide p h
  /-- They are filled. -/
  filled : ∀ h ∈ headers, Filled p h
  /-- One begins at the chunk. -/
  starts : ∃ h ∈ headers, h.memory = p

/-- Every piece that stays on a side keeps the headers so: one that begins in the first page of the
chunk joins a header. -/
theorem Opened.add (opened : Opened headers p) (fits : r.Fits)
    (side : r.addr + r.len < p ∨ p ≤ pageFloor r.addr)
    (added : addRegion r headers = .ok headers') : Opened headers' p := by
  obtain ⟨g, member, here⟩ := opened.starts
  have placed := opened.placed g member
  have down := pageFloor_le r.addr
  have close := lt_pageFloor_add r.addr
  have page := Nat.le_of_dvd (opened.filled g member here) placed.size
  refine ⟨addRegion_placed fits opened.placed added, onSide_add fits opened.placed opened.onSide side
    added, filled_add fits opened.placed opened.filled (fun none start => ?_) added, ?_⟩
  · have separate := none g member
    rw [(fits.overlap_iff placed).mpr (by omega)] at separate
    contradiction
  · rcases addRegion_ok added with ⟨k, h, there, overlaps, rfl⟩ | ⟨-, rfl⟩
    · obtain ⟨inside, same⟩ := List.getElem?_eq_some_iff.mp there
      obtain ⟨l, insideL, rfl⟩ := List.getElem_of_mem member
      by_cases joined : l = k
      · subst joined
        subst same
        refine ⟨_, List.mem_set inside _, ?_⟩
        obtain ⟨memory, -⟩ := fits.joined_ends placed
        rw [fits.overlap_iff placed] at overlaps
        omega
      · refine ⟨headers[l], ?_, here⟩
        exact List.mem_iff_getElem?.mpr
          ⟨l, by rw [List.getElem?_set_ne (Ne.symm joined), List.getElem?_eq_getElem insideL]⟩
    · exact ⟨g, List.mem_append_left _ member, here⟩

/-- So do all pieces. -/
theorem Opened.addAll (opened : Opened headers p) (fits : ∀ r ∈ pieces, r.Fits)
    (side : ∀ r ∈ pieces, r.addr + r.len < p ∨ p ≤ pageFloor r.addr)
    (added : addAll pieces headers = .ok headers') : Opened headers' p := by
  induction pieces generalizing headers with
  | nil =>
    cases added
    exact opened
  | cons r pieces ih =>
    obtain ⟨next, first, rest⟩ := of_bind_ok added
    obtain ⟨fitsR, fits⟩ := List.forall_mem_cons.mp fits
    obtain ⟨sideR, side⟩ := List.forall_mem_cons.mp side
    exact ih (opened.add fitsR sideR first) fits side rest

/-- The header of a piece that begins in the first page of the chunk and is as long begins with the
chunk and is as long. -/
theorem header_of_grouped {own : Nat → Nat} (grouped : Grouped pieces headers own)
    (positive : 0 < size) (onSide : ∀ h ∈ headers, OnSide p h) (member : r ∈ pieces)
    (start : pageFloor r.addr = p) (enough : size ≤ pageFloor r.len) :
    ∃ (k : Nat) (h : Span), headers[k]? = some h ∧ h.memory = p ∧ size ≤ h.size := by
  obtain ⟨i, listed⟩ := List.getElem?_of_mem member
  obtain ⟨h, here, low, high⟩ := grouped.holds i r listed
  have memory : r.span.memory = p := start
  have length : r.span.size = pageFloor r.len := rfl
  have header := onSide h (List.mem_of_getElem? here)
  unfold OnSide at header
  exact ⟨own i, h, here, by omega, by omega⟩

/-- The long piece opens the headers, and those behind it keep them open. -/
theorem Opens.opened (opens : Opens pieces size p) (positive : 0 < size) (aligned : pageSize ∣ p)
    (hangs : Hangs pieces) (added : addAll pieces [] = .ok headers) : Opened headers p := by
  obtain ⟨front, r, back, rfl, start, enough, either⟩ := opens.long
  obtain ⟨sideFront, sideRest⟩ := List.forall_mem_append.mp opens.side
  obtain ⟨sideR, sideBack⟩ := List.forall_mem_cons.mp sideRest
  obtain ⟨before, first, rest⟩ := of_addAll_append added
  obtain ⟨next, second, last⟩ := of_bind_ok rest
  obtain ⟨own, grouped⟩ := hangs.front.grouped first
  have fits := hangs.fits r (by simp)
  have hangsOn := hangs.hangsOn front r back rfl
  have long : pageSize ≤ r.len := by
    unfold pageFloor pageSize at *
    omega
  obtain ⟨onSide, filled⟩ := onSide_addAll hangs.front.fits sideFront (by simp) (by simp) first
  obtain ⟨own', groupedNext⟩ := grouped.add fits hangsOn second
  have onSideNext := onSide_add fits grouped.placed onSide sideR second
  obtain ⟨k, h, here, memory, -⟩ :=
    header_of_grouped groupedNext positive onSideNext (by simp) start enough
  have opened : Opened next p := by
    refine ⟨groupedNext.placed, onSideNext, ?_, h, List.mem_of_getElem? here, memory⟩
    rcases either with begins | full
    · exact filled_addAligned fits grouped.placed begins aligned long
        (fun k l h g here there overlaps different =>
          grouped.single fits hangsOn here there overlaps different) second
    · exact filled_add fits grouped.placed (filled full (by simp)) (fun _ _ => long) second
  exact opened.addAll (fun q member => hangs.fits q (by simp [member])) sideBack last

/-- Disjoint headers, of which one begins at the chunk, guard it. -/
theorem guarded_of_opened {own : Nat → Nat} (positive : 0 < size)
    (grouped : Grouped pieces headers own) (opens : Opens pieces size p)
    (opened : Opened headers p) : Guarded headers p size := by
  obtain ⟨front, r, back, rfl, start, enough, -⟩ := opens.long
  obtain ⟨k, h, here, memory, long⟩ :=
    header_of_grouped grouped positive opened.onSide (by simp) start enough
  -- The other headers share no byte with this one, so none of the chunk.
  have other : ∀ j ≠ k, ∀ g, headers[j]? = some g → g.Apart h := fun j different g read =>
    pairwise_at grouped.apart different read here
  refine .inr ⟨k, h, ⟨here, ⟨Nat.le_of_eq memory, ?_⟩, ?_⟩, long, .inl memory, ?_⟩
  · rw [wrap_of_lt (grouped.placed h (List.mem_of_getElem? here)).fits]
    omega
  · intro j before g read reaches
    have apart := Span.apart_iff.mp (other j (Nat.ne_of_lt before) g read)
    have onSide := opened.onSide g (List.mem_of_getElem? read)
    have filled := opened.filled g (List.mem_of_getElem? read)
    have start := reaches.1
    have stop := reaches.2
    rw [wrap_of_lt (grouped.placed g (List.mem_of_getElem? read)).fits] at stop
    unfold OnSide at onSide
    unfold Filled at filled
    omega
  · intro j different g read x above below has
    have apart := Span.apart_iff.mp (other j different g read)
    have start := has.1
    have stop := has.2
    omega

/-! ## The whole start -/

/-- The manager after a start with one available region that begins in the middle of a page. -/
def unalignedStart : Pmm :=
  (((Pmm.firstChunk [⟨0x1000, 0x10000⟩]).put 0
    { Pmm.filledHeader 1 0 ⟨0x1000, 0x1000⟩ with next := some 1, inUse := true }).put 1
    { Pmm.filledHeader 2 1 ⟨0x2000, 0xF000⟩ with prev := some 0 }).setInUse 2

end FelineOS.PhysMem
