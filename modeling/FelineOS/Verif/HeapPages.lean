import FelineOS.Verif.HeapList

/-!
# The geometry of the heap's pages

Local facts of one block are read off the layout of its page by `PageGrid.block`; blocks of
different pages are apart because the pages are (`spread`). Handing a block out and freeing it
keep the layout of its page.
-/

namespace FelineOS.Malloc

open Library

variable {b c : Block} {pl pr : List Block} {page : Page} {pages ps qs : List Page}
  {base size : Nat}

@[simp] theorem blocksOf_nil : blocksOf [] = [] := rfl

@[simp] theorem blocksOf_cons : blocksOf (page :: pages) = page.2 ++ blocksOf pages := rfl

@[simp] theorem blocksOf_append : blocksOf (ps ++ qs) = blocksOf ps ++ blocksOf qs :=
  List.flatMap_append

theorem mem_blocksOf : b ∈ blocksOf pages ↔ ∃ page ∈ pages, b ∈ page.2 := List.mem_flatMap

/-- A block of the heap stands in one of its pages. -/
theorem exists_page (member : b ∈ blocksOf pages) :
    ∃ ps base pl pr qs, pages = ps ++ (base, pl ++ b :: pr) :: qs := by
  obtain ⟨⟨base, blocks⟩, inPages, inPage⟩ := mem_blocksOf.mp member
  obtain ⟨ps, qs, rfl⟩ := List.append_of_mem inPages
  obtain ⟨pl, pr, rfl⟩ := List.append_of_mem inPage
  exact ⟨ps, base, pl, pr, qs, rfl⟩

/-! ## Rounding -/

/-- Small requests are rounded up to whole headers. -/
theorem roundToMultipleOf_spec {value : Nat} (small : value + headerSize < wordLimit) :
    headerSize ∣ roundToMultipleOf value headerSize ∧ value ≤ roundToMultipleOf value headerSize ∧
      roundToMultipleOf value headerSize < value + headerSize := by
  unfold roundToMultipleOf headerSize at *
  by_cases exact : value % 16 = 0
  · rw [if_neg (by decide), if_pos exact]
    omega
  · rw [if_neg (by decide), if_neg exact, wrap_of_lt (by omega)]
    omega

/-- A multiple that a value fits under still fits the value rounded up. -/
theorem roundToMultipleOf_le {value bound : Nat} (small : value + headerSize < wordLimit)
    (grained : headerSize ∣ bound) (fits : value ≤ bound) :
    roundToMultipleOf value headerSize ≤ bound := by
  obtain ⟨⟨k, up⟩, -, close⟩ := roundToMultipleOf_spec small
  obtain ⟨m, rfl⟩ := grained
  rw [up] at close ⊢
  unfold headerSize at *
  omega

/-! ## One page -/

/-- What the layout of its page says about a block. -/
structure Placed (base : Nat) (b : Block) : Prop where
  /-- The block starts in the page. -/
  start : base ≤ b.start
  /-- The block ends in the page. -/
  stop : b.stop ≤ base + defaultMemreserveSize
  /-- The block has a header. -/
  header : headerSize ≤ b.size
  /-- The block is a whole number of headers. -/
  grained : headerSize ∣ b.size

/-- The local facts of a block of a page. -/
theorem PageGrid.block (grid : PageGrid page) (member : b ∈ page.2) : Placed page.1 b :=
  ⟨(grid.tiles.bounds member).1, (grid.tiles.bounds member).2, (grid.grain b member).2,
    (grid.grain b member).1⟩

/-- The end of a block of a page is an address. -/
theorem PageGrid.stop_lt (grid : PageGrid page) (member : b ∈ page.2) : b.stop < wordLimit :=
  Nat.lt_of_le_of_lt (grid.block member).stop grid.bounded

/-- Behind its first address a page has no page boundary. -/
theorem PageGrid.inner (grid : PageGrid page) {addr : Nat} (behind : page.1 < addr)
    (before : addr < page.1 + defaultMemreserveSize) : ¬ defaultMemreserveSize ∣ addr := by
  obtain ⟨k, aligned⟩ := grid.aligned
  rintro ⟨m, rfl⟩
  rw [aligned] at behind before
  unfold defaultMemreserveSize at *
  omega

/-- Exactly the first block of a page starts on a page boundary. -/
theorem PageGrid.dvd_start_iff (grid : PageGrid (base, pl ++ b :: pr)) :
    defaultMemreserveSize ∣ b.start ↔ pl = [] := by
  have placed := grid.block (b := b) (by simp)
  have header := placed.header
  have stop := placed.stop
  unfold Block.stop at stop
  have headerPos : 0 < headerSize := by decide
  constructor
  · intro boundary
    rcases List.eq_nil_or_concat pl with rfl | ⟨init, a, rfl⟩
    · rfl
    · have tiles := grid.tiles
      simp only [List.concat_eq_append, List.append_assoc, List.cons_append, List.nil_append] at tiles
      have touch : a.stop = b.start := tiles.touch
      have before := grid.block (b := a) (by simp)
      have first := before.start
      have headerA := before.header
      unfold Block.stop at touch
      simp only at first stop
      exact absurd boundary (grid.inner (by simp only; omega) (by simp only; omega))
  · rintro rfl
    have tiles : b.start = base := grid.tiles.1
    rw [tiles]
    exact grid.aligned

/-! ## All pages -/

/-- Blocks of the heap are apart. -/
theorem spread (grids : ∀ page ∈ pages, PageGrid page) (distinct : (pages.map Prod.fst).Nodup) :
    (blocksOf pages).Pairwise fun a b => a.stop ≤ b.start ∨ b.stop ≤ a.start := by
  unfold blocksOf
  rw [List.pairwise_flatMap]
  constructor
  · intro page member
    exact (grids page member).tiles.ordered.imp Or.inl
  · rw [List.nodup_iff_pairwise_ne, List.pairwise_map] at distinct
    refine distinct.imp_of_mem ?_
    intro p q inP inQ different a inA b inB
    have placedA := (grids p inP).block inA
    have placedB := (grids q inQ).block inB
    obtain ⟨k, alignedP⟩ := (grids p inP).aligned
    obtain ⟨m, alignedQ⟩ := (grids q inQ).aligned
    have startA := placedA.start
    have startB := placedB.start
    have stopA := placedA.stop
    have stopB := placedB.stop
    unfold defaultMemreserveSize at *
    omega

/-- No two blocks of the heap start at one address. -/
theorem nodup_starts (grids : ∀ page ∈ pages, PageGrid page)
    (distinct : (pages.map Prod.fst).Nodup) : ((blocksOf pages).map Block.start).Nodup := by
  rw [List.nodup_iff_pairwise_ne, List.pairwise_map]
  refine (spread grids distinct).imp_of_mem ?_
  intro a b inA inB apart same
  obtain ⟨p, inPages, inP⟩ := mem_blocksOf.mp inA
  obtain ⟨q, inPages', inQ⟩ := mem_blocksOf.mp inB
  have headerA := ((grids p inPages).block inP).header
  have headerB := ((grids q inPages').block inQ).header
  unfold Block.stop headerSize at *
  omega

/-- A member of a list is the one in the middle or one around it. -/
theorem mem_middle {α : Type} {a c : α} {xs ys : List α} :
    c ∈ xs ++ a :: ys ↔ c = a ∨ c ∈ xs ++ ys := by
  simp only [List.mem_append, List.mem_cons]
  tauto

/-- A block reaches over none of the others. -/
theorem apart_of_spread {xs ys : List Block}
    (apart : (xs ++ b :: ys).Pairwise fun a b => a.stop ≤ b.start ∨ b.stop ≤ a.start)
    (member : c ∈ xs ++ ys) : c.stop ≤ b.start ∨ b.stop ≤ c.start := by
  rw [List.pairwise_append, List.pairwise_cons] at apart
  obtain ⟨-, ⟨behind, -⟩, across⟩ := apart
  rcases List.mem_append.mp member with left | right
  · exact across c left b List.mem_cons_self
  · exact (behind c right).symm

/-! ## Handing out -/

/-- A request that fits a block of a page is small. -/
theorem Placed.small (placed : Placed base b) (fits : size + headerSize ≤ b.size) :
    size + headerSize < wordLimit := by
  have stop := placed.stop
  have start := placed.start
  unfold Block.stop defaultMemreserveSize at *
  unfold wordLimit
  omega

/-- The rounded request and a header for the rest fit a block that is split. -/
theorem Placed.room (placed : Placed base b) (large : size + headerSize + headerSize < b.size) :
    roundToMultipleOf size headerSize + headerSize + headerSize ≤ b.size := by
  have small := placed.small (show size + headerSize ≤ b.size by omega)
  obtain ⟨k, grained⟩ := placed.grained
  have even : headerSize ∣ b.size - headerSize - headerSize := by
    rw [grained]
    unfold headerSize
    omega
  have below := roundToMultipleOf_le small even (by omega)
  omega

/-- A block that a request was carved from is one block handed out and free ones. -/
theorem filter_carve (size : Nat) (b : Block) :
    ∃ taken, (carve size b).filter Block.used = [taken] ∧ taken.start = b.start := by
  unfold carve
  split
  · exact ⟨b.front (roundToMultipleOf size headerSize + headerSize),
      by simp [Block.front, Block.back], rfl⟩
  · exact ⟨{ b with used := true }, by simp, rfl⟩

/-- The block handed out has room for the request. -/
theorem exists_mem_carve (placed : Placed base b) (fits : size + headerSize ≤ b.size) :
    ∃ taken ∈ carve size b, taken.used = true ∧ taken.start = b.start ∧
      size + headerSize ≤ taken.size := by
  have rounded := (roundToMultipleOf_spec (placed.small fits)).2.1
  unfold carve
  split
  · exact ⟨b.front (roundToMultipleOf size headerSize + headerSize), by simp, rfl, rfl,
      by simp only [Block.front]; omega⟩
  · exact ⟨{ b with used := true }, by simp, rfl, rfl, fits⟩

/-- Cutting a block on whole headers keeps the geometry. -/
theorem PageGrid.cut {n : Nat} (grid : PageGrid (base, pl ++ b :: pr)) (grained : headerSize ∣ n)
    (header : headerSize ≤ n) (room : n + headerSize ≤ b.size) (flag : Bool) :
    PageGrid (base, pl ++ ⟨b.start, n, flag⟩ :: b.back n :: pr) := by
  refine ⟨grid.aligned, grid.nonnull, grid.bounded, grid.tiles.cut (by omega) flag, ?_⟩
  simp only [List.mem_append, List.mem_cons]
  intro c inside
  rcases inside with left | rfl | rfl | right
  · exact grid.grain c (by simp [left])
  · exact ⟨grained, header⟩
  · simp only [Block.back]
    exact ⟨Nat.dvd_sub (grid.grain b (by simp)).1 grained, by omega⟩
  · exact grid.grain c (by simp [right])

/-- Changing the flag of a block keeps the geometry. -/
theorem PageGrid.reflag (grid : PageGrid (base, pl ++ b :: pr)) (flag : Bool) :
    PageGrid (base, pl ++ { b with used := flag } :: pr) := by
  refine ⟨grid.aligned, grid.nonnull, grid.bounded, grid.tiles.reflag flag, ?_⟩
  intro c inside
  rcases mem_middle.mp inside with rfl | around
  · exact grid.grain b (by simp)
  · exact grid.grain c (mem_middle.mpr (Or.inr around))

/-- Handing out a free block of a merged page gives a page layout. -/
theorem PageGrid.carve (grid : PageGrid (base, pl ++ b :: pr))
    (settled : Coalesced (pl ++ b :: pr)) (free : b.used = false)
    (fits : size + headerSize ≤ b.size) : PageLayout (base, pl ++ carve size b ++ pr) := by
  have placed : Placed base b := grid.block (by simp)
  have rounded := roundToMultipleOf_spec (placed.small fits)
  obtain ⟨taken, member, used, -, -⟩ := exists_mem_carve placed fits
  have occupied : ∃ c ∈ pl ++ Malloc.carve size b ++ pr, c.used = true :=
    ⟨taken, by simp [member], used⟩
  by_cases large : size + headerSize + headerSize < b.size
  · have room := placed.room large
    have cuts : pl ++ Malloc.carve size b ++ pr =
        pl ++ b.front (roundToMultipleOf size headerSize + headerSize) ::
          b.back (roundToMultipleOf size headerSize + headerSize) :: pr := by
      simp [Malloc.carve, large]
    rw [cuts] at occupied ⊢
    exact ⟨grid.cut (Nat.dvd_add rounded.1 (Nat.dvd_refl _)) (by omega) room true,
      settled.cut free (by omega), occupied⟩
  · have whole : pl ++ Malloc.carve size b ++ pr = pl ++ { b with used := true } :: pr := by
      simp [Malloc.carve, large]
    rw [whole] at occupied ⊢
    exact ⟨grid.reflag true, settled.hand, occupied⟩

/-! ## New pages -/

/-- The largest request that a page can hold. -/
def largestRequest : Nat := defaultMemreserveSize - headerSize

/-- The blocks of a page that `allocate_more_mem` just made for a request. -/
def shelf (size addr : Nat) : List Block :=
  if size + headerSize + headerSize < defaultMemreserveSize then
    [⟨addr, roundToMultipleOf size headerSize + headerSize, false⟩,
      (freshBlock addr).back (roundToMultipleOf size headerSize + headerSize)]
  else [freshBlock addr]

/-- A page that is one free block. -/
theorem PageGrid.fresh {addr : Nat} (aligned : defaultMemreserveSize ∣ addr) (nonnull : 0 < addr)
    (bounded : addr + defaultMemreserveSize < wordLimit) : PageGrid (addr, [freshBlock addr]) := by
  refine ⟨aligned, nonnull, bounded, ⟨rfl, rfl⟩, ?_⟩
  intro b member
  obtain rfl := List.mem_singleton.mp member
  show headerSize ∣ defaultMemreserveSize ∧ headerSize ≤ defaultMemreserveSize
  decide

/-- The first block of a new page is free and holds the request; carving the request from it
gives what carving the request from the whole page gives. -/
theorem shelf_spec {addr : Nat} (grid : PageGrid (addr, [freshBlock addr]))
    (fits : size ≤ largestRequest) : PageGrid (addr, shelf size addr) ∧
      ∃ b rest, shelf size addr = b :: rest ∧ b.start = addr ∧ b.used = false ∧
        size + headerSize ≤ b.size ∧ carve size b ++ rest = carve size (freshBlock addr) := by
  have fitsPage : size + headerSize ≤ (freshBlock addr).size := by
    show size + headerSize ≤ defaultMemreserveSize
    unfold largestRequest defaultMemreserveSize headerSize at *
    omega
  have placed : Placed addr (freshBlock addr) := grid.block (by simp)
  have rounded := roundToMultipleOf_spec (placed.small fitsPage)
  by_cases large : size + headerSize + headerSize < defaultMemreserveSize
  · have room := placed.room large
    have first : ¬ size + headerSize + headerSize <
        roundToMultipleOf size headerSize + headerSize := by omega
    unfold shelf
    rw [if_pos large]
    constructor
    · have whole : PageGrid (addr, [] ++ freshBlock addr :: []) := grid
      exact whole.cut (Nat.dvd_add rounded.1 (Nat.dvd_refl _)) (by omega) room false
    · refine ⟨_, _, rfl, rfl, rfl, by simp only; omega, ?_⟩
      simp only [carve, if_neg first]
      simp [freshBlock, large, Block.front]
  · unfold shelf
    rw [if_neg large]
    exact ⟨grid, _, _, rfl, rfl, rfl, fitsPage, by simp⟩

/-! ## Freeing -/

/-- Joined blocks have whole headers. -/
theorem grain_join {a b : Block} (wholeA : headerSize ∣ a.size ∧ headerSize ≤ a.size)
    (wholeB : headerSize ∣ b.size ∧ headerSize ≤ b.size) :
    headerSize ∣ (a.join b).size ∧ headerSize ≤ (a.join b).size :=
  ⟨Nat.dvd_add wholeA.1 wholeB.1, Nat.le_trans wholeA.2 (Nat.le_add_right _ _)⟩

/-- Merging a block with the one behind it keeps the geometry. -/
theorem PageGrid.mergeHead (grid : PageGrid (base, pl ++ pr)) :
    PageGrid (base, pl ++ mergeHead pr) := by
  refine ⟨grid.aligned, grid.nonnull, grid.bounded, ?_, ?_⟩
  · obtain ⟨middle, left, right⟩ := tiles_append.mp grid.tiles
    exact tiles_append.mpr ⟨middle, left, right.mergeHead⟩
  · intro c member
    rcases List.mem_append.mp member with left | right
    · exact grid.grain c (List.mem_append_left pr left)
    · exact forall_mergeHead (fun a b => grain_join)
        (fun d inside => grid.grain d (List.mem_append_right pl inside)) c right

/-- Merging a block with the one before it keeps the geometry. -/
theorem PageGrid.mergeSeam (grid : PageGrid (base, pl ++ pr)) :
    PageGrid (base, mergeSeam pl pr) :=
  ⟨grid.aligned, grid.nonnull, grid.bounded, grid.tiles.mergeSeam,
    forall_mergeSeam (fun _ _ => grain_join) grid.grain⟩

/-- The first block of the next pages starts on a page boundary. -/
theorem dvd_start_head (grids : ∀ page ∈ pages, PageGrid page)
    (head : c ∈ (blocksOf pages).head?) : defaultMemreserveSize ∣ c.start := by
  cases pages with
  | nil => simp at head
  | cons page pages =>
    have grid := grids page (by simp)
    obtain ⟨base, blocks⟩ := page
    cases blocks with
    | nil =>
      have tiles := grid.tiles
      simp [Tiles, defaultMemreserveSize] at tiles
    | cons b blocks =>
      obtain rfl : b = c := by simpa using head
      have whole : PageGrid (base, [] ++ b :: blocks) := grid
      exact whole.dvd_start_iff.mpr rfl

/-- The head of the list does not depend on how a page is cut. -/
theorem head_page {blocks : List Block} (grid : PageGrid (base, blocks)) :
    ((blocksOf (ps ++ (base, blocks) :: qs)).map Block.start).head? =
      ((blocksOf ps).map Block.start).head?.or (some base) := by
  cases blocks with
  | nil =>
    have tiles := grid.tiles
    simp [Tiles, defaultMemreserveSize] at tiles
  | cons b blocks =>
    have start : b.start = base := grid.tiles.1
    rw [blocksOf_append, List.map_append, List.head?_append]
    simp [start]

/-- Freeing a block of a page leaves no free neighbours. -/
theorem PageLayout.coalesced_release (layout : PageLayout (base, pl ++ b :: pr)) :
    Coalesced (mergeSeam pl (mergeHead ({ b with used := false } :: pr))) := by
  have parts := List.isChain_append.mp layout.settled
  exact coalesced_mergeSeam parts.1 (coalesced_mergeHead parts.2.1.tail)

/-- A merged page without a block handed out is one free block. -/
theorem PageGrid.eq_fresh (grid : PageGrid page) (settled : Coalesced page.2)
    (free : ∀ b ∈ page.2, b.used = false) : page.2 = [freshBlock page.1] := by
  have some : page.2 ≠ [] := by
    intro empty
    have tiles := grid.tiles
    rw [empty] at tiles
    simp [Tiles, defaultMemreserveSize] at tiles
  obtain ⟨b, only⟩ := grid.tiles.eq_singleton settled free some
  have tiles := grid.tiles
  have unused := free b (by simp [only])
  rw [only] at tiles ⊢
  obtain ⟨first, last⟩ := tiles
  have size : b.size = defaultMemreserveSize := by
    simp only [Tiles, Block.stop] at last
    omega
  cases b
  simp only at first size unused
  simp [freshBlock, first, size, unused]

end FelineOS.Malloc
