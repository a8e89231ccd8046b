import FelineOS.Verif.HeapPages
import Mathlib.Data.List.Count
import Mathlib.Data.Set.Insert

/-!
# Handing out memory

`malloc` from the bottom up: the block it settles on is cut and marked (`take_spec`), a new
page is reserved and cut (`allocateMoreMem_spec`), the search passes every block that does not
do (`search_skip`), and a whole call keeps the invariant (`malloc_spec`). A request larger than
a page never returns (`malloc_large`): no header ever records more than a page.
-/

namespace FelineOS.Malloc

open Library

variable {h h' : Heap} {calls : MemCalls} {b c : Block} {xs ys pl pr : List Block}
  {pages ps qs : List Page} {base size addr fuel : Nat} {w : World}

/-- The blocks around one block of a page. -/
theorem blocksOf_split : blocksOf (ps ++ (base, pl ++ b :: pr) :: qs) =
    (blocksOf ps ++ pl) ++ b :: (pr ++ blocksOf qs) := by simp

/-- The blocks around a carved block of a page. -/
theorem blocksOf_carve : blocksOf (ps ++ (base, pl ++ carve size b ++ pr) :: qs) =
    (blocksOf ps ++ pl) ++ carve size b ++ (pr ++ blocksOf qs) := by simp

namespace Heap

/-! ## Taking a block -/

/-- The mark of `malloc` hands a block out. -/
theorem Listed.mark (listed : h.Listed (xs ++ b :: ys))
    (nodup : ((xs ++ b :: ys).map Block.start).Nodup) (flag : Bool) :
    (h.modify b.start fun header => { header with inUse := flag }).Listed
      (xs ++ { b with used := flag } :: ys) := by
  have described : h.Describes b := listed.describes b (by simp)
  refine listed.update rfl ?_ ?_ ?_
  · unfold next prev
    rw [modify_mem, if_pos rfl]
    exact ⟨rfl, rfl⟩
  · refine ⟨?_, ?_, ?_⟩
    · rw [modify_mem, if_pos rfl]
      exact described.len
    · rw [modify_mem, if_pos rfl]
    · rw [modify_mem, if_pos rfl]
      exact described.startOfAllocation
  · intro d member
    rw [modify_mem, if_neg (start_ne nodup member)]

/-- The end of `malloc` carves the request from the block it settled on. -/
theorem take_spec (listed : h.Listed (blocksOf (ps ++ (base, pl ++ b :: pr) :: qs)))
    (grids : ∀ page ∈ ps ++ (base, pl ++ b :: pr) :: qs, PageGrid page)
    (distinct : ((ps ++ (base, pl ++ b :: pr) :: qs).map Prod.fst).Nodup)
    (free : b.used = false) (fits : size + headerSize ≤ b.size) :
    ∃ h', h.take size b.start = .ok (payload b, h') ∧ SameBooks h h' ∧
      h'.Listed (blocksOf (ps ++ (base, pl ++ carve size b ++ pr) :: qs)) := by
  have grid : PageGrid (base, pl ++ b :: pr) := grids _ (by simp)
  have placed : Placed base b := grid.block (by simp)
  have nodup := nodup_starts grids distinct
  have apart := spread grids distinct
  rw [blocksOf_split] at listed nodup apart
  have described : h.Describes b := listed.describes b (by simp)
  have len := described.len
  have stop := grid.stop_lt (b := b) (by simp)
  have header := placed.header
  have pointer : wrap (b.start + headerSize) = payload b := by
    unfold Block.stop at stop
    exact wrap_of_lt (by omega)
  have word : wrap (size + headerSize) = size + headerSize := wrap_of_lt (placed.small fits)
  rw [blocksOf_carve]
  unfold take
  rw [word]
  by_cases large : size + headerSize + headerSize < b.size
  · have room := placed.room large
    have headerPos : 0 < headerSize := by decide
    have first := placed.start
    have last := placed.stop
    unfold Block.stop at last
    have fresh : ∀ c ∈ (blocksOf ps ++ pl) ++ b :: (pr ++ blocksOf qs),
        c.start ≠ b.start + roundToMultipleOf size headerSize + headerSize := by
      intro c member
      rcases mem_middle.mp member with rfl | other
      · omega
      · have ordered := apart_of_spread apart other
        unfold Block.stop at ordered
        omega
    have inner : ¬ defaultMemreserveSize ∣
        b.start + roundToMultipleOf size headerSize + headerSize :=
      grid.inner (by simp only; omega) (by simp only; omega)
    obtain ⟨h₁, splits, books, split, -⟩ :=
      splitHeader_spec size listed nodup free rfl room stop fresh inner
    have cuts : carve size b = [b.front (roundToMultipleOf size headerSize + headerSize),
        b.back (roundToMultipleOf size headerSize + headerSize)] := by
      simp [carve, large]
    rw [if_pos (by omega), splits]
    refine ⟨h₁.modify b.start fun header => { header with inUse := true }, ?_, ?_, ?_⟩
    · simp [modify_mem, pointer]
    · exact books.trans (sameBooks_modify _ _)
    · rw [cuts]
      have marked := split.mark
        (nodup_cut nodup rfl (by simpa [Block.back, Nat.add_assoc] using fresh)) true
      simpa [Block.front] using marked
  · have whole : carve size b = [{ b with used := true }] := by simp [carve, large]
    rw [if_neg (by omega)]
    refine ⟨h.modify b.start fun header => { header with inUse := true }, ?_, ?_, ?_⟩
    · simp [modify_mem, pointer]
    · exact sameBooks_modify _ _
    · rw [whole]
      have marked := listed.mark nodup true
      simpa using marked

/-! ## Reserving a page -/

/-- A request that a page can hold reserves one page. -/
theorem reserved_eq (fits : size ≤ largestRequest) :
    roundToMultipleOf (wrap (size + headerSize)) defaultMemreserveSize = defaultMemreserveSize := by
  unfold largestRequest at fits
  unfold roundToMultipleOf
  rw [wrap_of_lt (by unfold defaultMemreserveSize headerSize wordLimit at *; omega)]
  unfold defaultMemreserveSize headerSize at *
  by_cases exact : (size + 16) % 4096 = 0
  · rw [if_neg (by decide), if_pos exact]
    omega
  · rw [if_neg (by decide), if_neg exact, wrap_of_lt (by unfold wordLimit; omega)]
    omega

/-- The header written to a fresh page is a list of its own. -/
theorem fresh_listed
    (written : h.mem addr = ⟨none, none, defaultMemreserveSize - headerSize, false, true⟩)
    (aligned : defaultMemreserveSize ∣ addr) : h.Listed [freshBlock addr] := by
  refine ⟨⟨?_, ?_, trivial⟩, ?_⟩
  · simp [prev, freshBlock, written]
  · simp [next, freshBlock, written]
  · intro b member
    obtain rfl := List.mem_singleton.mp member
    refine ⟨?_, ?_, ?_⟩
    · simp [freshBlock, written, defaultMemreserveSize, headerSize]
    · simp [freshBlock, written]
    · simp [freshBlock, written, aligned]

/-- `allocate_more_mem` makes a page of its own, cut for the request. -/
theorem allocateMoreMem_spec (fits : size ≤ largestRequest)
    (got : calls.getMem h defaultMemreserveSize = some addr)
    (grid : PageGrid (addr, [freshBlock addr])) :
    ∃ h', h.allocateMoreMem calls size = .ok (addr, h') ∧ h'.Listed (shelf size addr) ∧
      h'.firstHeader = h.firstHeader ∧
      h'.obtained = (addr, defaultMemreserveSize) :: h.obtained ∧ h'.returned = h.returned ∧
      ∀ a, a < addr ∨ addr + defaultMemreserveSize ≤ a → h'.mem a = h.mem a := by
  let h₀ : Heap := { h with obtained := (addr, defaultMemreserveSize) :: h.obtained }
  let h₁ := h₀.modify addr fun _ => ⟨none, none, defaultMemreserveSize - headerSize, false, true⟩
  have written : h₁.mem addr = ⟨none, none, defaultMemreserveSize - headerSize, false, true⟩ := by
    simp [h₁, modify_mem]
  have others : ∀ a, a ≠ addr → h₁.mem a = h.mem a := by
    intro a other
    simp [h₁, h₀, modify_mem, other]
  have listed : h₁.Listed [freshBlock addr] := fresh_listed written grid.aligned
  have placed : Placed addr (freshBlock addr) := grid.block (by simp)
  unfold allocateMoreMem
  rw [reserved_eq fits]
  simp only [got]
  by_cases large : size + headerSize + headerSize < defaultMemreserveSize
  · have room := placed.room large
    have inner : ¬ defaultMemreserveSize ∣
        addr + roundToMultipleOf size headerSize + headerSize := by
      simp only [freshBlock] at room
      unfold headerSize at *
      exact grid.inner (by simp only; omega) (by simp only; omega)
    have elsewhere : addr ≠ addr + roundToMultipleOf size headerSize + headerSize := by
      unfold headerSize
      omega
    have alone : h₁.Listed ([] ++ freshBlock addr :: []) := listed
    obtain ⟨h', splits, books, split, kept⟩ := splitHeader_spec size alone (by simp) rfl rfl room
      (grid.stop_lt (by simp)) (by simpa [freshBlock] using elsewhere) inner
    refine ⟨h', ?_, ?_, books.firstHeader, books.obtained, books.returned, ?_⟩
    · have cuts : size < (h₁.mem addr).len - headerSize := by
        rw [written]
        simp only
        omega
      rw [if_pos cuts]
      show (h₁.splitHeader (freshBlock addr).start size >>= fun h => .ok (addr, h)) = .ok (addr, h')
      rw [splits]
      rfl
    · unfold shelf
      rw [if_pos large]
      exact split
    · intro a outside
      rw [← others a (by unfold defaultMemreserveSize at outside; omega)]
      apply kept
      · simp only [freshBlock] at room ⊢
        unfold headerSize at *
        omega
      · simp only [List.nil_append, List.mem_singleton, forall_eq, freshBlock]
        unfold defaultMemreserveSize at outside
        omega
  · refine ⟨h₁, ?_, ?_, rfl, rfl, rfl, ?_⟩
    · have short : ¬ size < (h₁.mem addr).len - headerSize := by
        rw [written]
        simp only
        omega
      rw [if_neg short]
    · unfold shelf
      rw [if_neg large]
      exact listed
    · intro a outside
      exact others a (by unfold defaultMemreserveSize at outside; omega)

/-- A page is linked in behind the last block. -/
theorem Listed.splice (front : h.Listed (xs ++ [b])) (rear : h.Listed (c :: ys))
    (nodup : ((xs ++ b :: c :: ys).map Block.start).Nodup) :
    (h.linkBehind b.start c.start).Listed (xs ++ b :: c :: ys) := by
  have regrouped : xs ++ b :: c :: ys = (xs ++ [b]) ++ c :: ys := by simp
  have nodupC := nodup
  rw [regrouped] at nodupC
  have different : b.start ≠ c.start := start_ne nodupC (by simp)
  have atB : (h.linkBehind b.start c.start).mem b.start =
      { h.mem b.start with next := some c.start } := by
    simp [linkBehind, modify_mem, different]
  have atC : (h.linkBehind b.start c.start).mem c.start =
      { h.mem c.start with prev := some b.start } := by
    simp [linkBehind, modify_mem, Ne.symm different]
  have same : ∀ d ∈ xs ++ ys, (h.linkBehind b.start c.start).mem d.start = h.mem d.start := by
    intro d member
    have notB : d.start ≠ b.start := start_ne nodup (by
      rcases List.mem_append.mp member with left | right
      · simp [left]
      · simp [right])
    have notC : d.start ≠ c.start := start_ne nodupC (by
      rcases List.mem_append.mp member with left | right
      · simp [left]
      · simp [right])
    simp [linkBehind, modify_mem, notB, notC]
  constructor
  · have linksFront := front.links
    have linksRear := rear.links
    simp only [List.map_append, List.map_cons, List.map_nil] at linksFront linksRear ⊢
    refine linksFront.splice linksRear ?_ ?_ ?_
    · unfold next prev
      rw [atB]
      exact ⟨rfl, rfl⟩
    · unfold next prev
      rw [atC]
      exact ⟨rfl, rfl⟩
    · rw [← List.map_append]
      exact links_of_same same
  · intro d member
    simp only [List.mem_append, List.mem_cons] at member
    rcases member with left | rfl | rfl | right
    · exact (front.describes d (by simp [left])).congr (same d (by simp [left]))
    · exact (front.describes d (by simp)).of_fields (by constructor <;> rw [atB])
    · exact (rear.describes d (by simp)).of_fields (by constructor <;> rw [atC])
    · exact (rear.describes d (by simp [right])).congr (same d (by simp [right]))

/-! ## The search -/

/-- The search passes a block that is handed out or too small. -/
def Rejects (size : Nat) (b : Block) : Prop := b.used = true ∨ b.size < size + headerSize

instance (size : Nat) (b : Block) : Decidable (Rejects size b) := inferInstanceAs (Decidable (_ ∨ _))

/-- The test of the loop reads the block off its header. -/
theorem Describes.rejects_iff (describes : h.Describes b) :
    ((h.mem b.start).inUse || decide ((h.mem b.start).len < size)) = true ↔ Rejects size b := by
  have len := describes.len
  rw [Bool.or_eq_true, describes.inUse, decide_eq_true_iff]
  unfold Rejects
  constructor
  · rintro (used | short)
    · exact Or.inl used
    · exact Or.inr (by omega)
  · rintro (used | short)
    · exact Or.inl used
    · exact Or.inr (by omega)

/-- The search stops at a block that does. -/
theorem search_stop (describes : h.Describes b) (accepts : ¬ Rejects size b) :
    search calls size (fuel + 1) h b.start = .ok (b.start, h) := by
  rw [search, if_neg (fun test => accepts (describes.rejects_iff.mp test))]

/-- In front of another block a header leads to the next one. -/
theorem Listed.further (listed : h.Listed (xs ++ (c :: ys ++ b :: pr))) :
    ∃ d rest, ys ++ b :: pr = d :: rest ∧ (h.mem c.start).next = some d.start ∧
      h.Listed ((xs ++ [c]) ++ (ys ++ b :: pr)) := by
  obtain ⟨d, rest, shape⟩ : ∃ d rest, ys ++ b :: pr = d :: rest := by
    cases ys with
    | nil => exact ⟨b, pr, rfl⟩
    | cons d ys => exact ⟨d, ys ++ b :: pr, rfl⟩
  have regrouped : xs ++ (c :: ys ++ b :: pr) = (xs ++ [c]) ++ (ys ++ b :: pr) := by simp
  refine ⟨d, rest, shape, ?_, regrouped ▸ listed⟩
  rw [List.cons_append, shape] at listed
  rw [listed.next_eq]
  rfl

/-- The search follows the list past blocks that do not do. -/
theorem search_skip {first : Block} (listed : h.Listed (xs ++ (ys ++ b :: pr)))
    (rejects : ∀ c ∈ ys, Rejects size c) (head : (ys ++ b :: pr).head? = some first) :
    search calls size (fuel + ys.length) h first.start = search calls size fuel h b.start := by
  induction ys generalizing xs first with
  | nil =>
    obtain rfl : b = first := by simpa using head
    rfl
  | cons c ys ih =>
    obtain rfl : c = first := by simpa using head
    obtain ⟨d, rest, shape, link, behind⟩ := listed.further
    have test := (listed.describes c (by simp)).rejects_iff.mpr (rejects c (by simp))
    have further := ih behind (fun e member => rejects e (by simp [member]))
      (show (ys ++ b :: pr).head? = some d by rw [shape]; rfl)
    rw [List.length_cons, ← Nat.add_assoc, search, if_pos test]
    simp only [link]
    exact further

/-- Past the last block the search reserves a page and goes on there. -/
theorem search_last {init : List Block} {last first : Block} (listed : h.Listed (init ++ [last]))
    (rejects : ∀ c ∈ init ++ [last], Rejects size c)
    (head : (init ++ [last]).head? = some first) :
    search calls size (fuel + 1 + init.length) h first.start =
      (do let (next, h') ← h.allocateMoreMem calls size
          search calls size fuel (h'.linkBehind last.start next) next) := by
  have link : (h.mem last.start).next = none := by
    rw [listed.next_eq]
    rfl
  have test := (listed.describes last (by simp)).rejects_iff.mpr (rejects last (by simp))
  have whole : h.Listed ([] ++ (init ++ [last])) := listed
  rw [search_skip whole (fun c inside => rejects c (by simp [inside])) head, search, if_pos test]
  simp only [link]

/-- More steps do not change a search that ended. -/
theorem search_mono {start : Nat} {result : Nat × Heap} (more : Nat)
    (ends : search calls size fuel h start = .ok result) :
    search calls size (fuel + more) h start = .ok result := by
  induction fuel generalizing h start with
  | zero => exact absurd ends (by simp [search])
  | succ fuel ih =>
    rw [Nat.add_right_comm]
    rw [search] at ends ⊢
    by_cases test : ((h.mem start).inUse || decide ((h.mem start).len < size)) = true
    · rw [if_pos test] at ends ⊢
      cases link : (h.mem start).next with
      | some next =>
        simp only [link] at ends ⊢
        exact ih ends
      | none =>
        simp only [link] at ends ⊢
        cases reserved : h.allocateMoreMem calls size with
        | error fault => simp [reserved] at ends
        | ok pair =>
          simp only [reserved, ok_bind] at ends ⊢
          exact ih ends
    · rw [if_neg test] at ends ⊢
      exact ends

/-- More steps do not change a `malloc` that returned. -/
theorem malloc_mono {result : Nat × Heap} (more : Nat)
    (returns : h.malloc calls fuel size = .ok result) :
    h.malloc calls (fuel + more) size = .ok result := by
  unfold malloc at returns ⊢
  obtain ⟨pair, started, continues⟩ := of_bind_ok returns
  obtain ⟨found, searched, last⟩ := of_bind_ok continues
  simp only [started, ok_bind, search_mono more searched]
  exact last

end Heap

/-! ## The invariant -/

open Heap

/-- The pages of the heap are outstanding. -/
theorem HeapInv.outstanding (inv : HeapInv w pages) {page : Page} (member : page ∈ pages) :
    (page.1, defaultMemreserveSize) ∈ w.heap.outstanding := by
  unfold Heap.outstanding
  have listed : (page.1, defaultMemreserveSize) ∈
      pages.map fun page => (page.1, defaultMemreserveSize) := List.mem_map_of_mem member
  rw [← List.count_pos_iff, List.count_diff, inv.ledger.count_eq, List.count_append,
    Nat.add_sub_cancel]
  exact List.count_pos_iff.mpr listed

/-- A block from `get_mem` makes a page apart from the others. -/
theorem HeapInv.fresh_page (inv : HeapInv w pages) (fresh : calls.Fresh)
    (got : calls.getMem w.heap defaultMemreserveSize = some addr) :
    PageGrid (addr, [freshBlock addr]) ∧ ∀ page ∈ pages,
      page.1 + defaultMemreserveSize ≤ addr ∨ addr + defaultMemreserveSize ≤ page.1 :=
  ⟨PageGrid.fresh (fresh.aligned got) (fresh.nonnull got) (fresh.bounded got),
    fun _ member => fresh.apart got _ (inv.outstanding member)⟩

/-- The geometry of the pages between two calls. -/
theorem HeapInv.grids (inv : HeapInv w pages) : ∀ page ∈ pages, PageGrid page :=
  fun page member => (inv.layout page member).toPageGrid

/-- Carving keeps the first address of the list. -/
theorem head_carve (size : Nat) (b : Block) (xs ys : List Block) :
    ((xs ++ carve size b ++ ys).map Block.start).head? = ((xs ++ b :: ys).map Block.start).head? := by
  obtain ⟨taken, rest, shape, start⟩ : ∃ taken rest, carve size b = taken :: rest ∧
      taken.start = b.start := by
    unfold carve
    split
    · exact ⟨_, _, rfl, rfl⟩
    · exact ⟨_, _, rfl, rfl⟩
  rw [shape]
  cases xs with
  | nil => simp [start]
  | cons x xs => rfl

/-- Carving a request hands one block out. -/
theorem perm_held (size : Nat) (b : Block) (xs ys : List Block) :
    (((xs ++ carve size b ++ ys).filter Block.used).map payload).Perm
      (payload b :: ((xs ++ ys).filter Block.used).map payload) := by
  obtain ⟨taken, only, start⟩ := filter_carve size b
  have pointer : payload taken = payload b := by
    unfold payload
    rw [start]
  simp only [List.filter_append, only, List.map_append, List.map_cons, List.map_nil, pointer,
    List.append_assoc]
  exact List.perm_middle

/-- A new page keeps the page addresses distinct. -/
theorem distinct_extend (blocks : List Block) (distinct : (pages.map Prod.fst).Nodup)
    (apart : ∀ page ∈ pages,
      page.1 + defaultMemreserveSize ≤ addr ∨ addr + defaultMemreserveSize ≤ page.1) :
    ((pages ++ [(addr, blocks)]).map Prod.fst).Nodup := by
  rw [List.map_append, List.map_cons, List.map_nil, List.nodup_append]
  refine ⟨distinct, List.nodup_singleton _, ?_⟩
  intro a member other same
  obtain ⟨page, inside, rfl⟩ := List.mem_map.mp member
  have separate := apart page inside
  have pos : 0 < defaultMemreserveSize := by decide
  simp only [List.mem_singleton] at same
  omega

/-- A new page keeps the geometry of the pages. -/
theorem HeapInv.grids_extend (inv : HeapInv w pages) {page : Nat × List Block}
    (grid : PageGrid page) : ∀ other ∈ pages ++ [page], PageGrid other := by
  intro other member
  rcases List.mem_append.mp member with old | new
  · exact inv.grids other old
  · obtain rfl := List.mem_singleton.mp new
    exact grid

/-- What is written in a new page leaves the blocks of the others as they are. -/
theorem HeapInv.listed_apart (inv : HeapInv w pages) {h : Heap}
    (apart : ∀ page ∈ pages,
      page.1 + defaultMemreserveSize ≤ addr ∨ addr + defaultMemreserveSize ≤ page.1)
    (kept : ∀ a, a < addr ∨ addr + defaultMemreserveSize ≤ a → h.mem a = w.heap.mem a) :
    h.Listed (blocksOf pages) := by
  refine inv.listed.congr ?_
  intro c member
  obtain ⟨page, inPages, inPage⟩ := mem_blocksOf.mp member
  have placed := (inv.grids page inPages).block inPage
  have separate := apart page inPages
  have first := placed.start
  have last := placed.stop
  have header := placed.header
  unfold Block.stop headerSize at *
  exact kept c.start (by omega)

/-- The search finds the first block that does. -/
theorem search_found (calls : MemCalls) (inv : HeapInv w pages) (some : ∃ c ∈ blocksOf pages, ¬ Rejects size c)
    (enough : (blocksOf pages).length < fuel) :
    ∃ b ∈ blocksOf pages, ¬ Rejects size b ∧
      (do let (first, h) ← w.heap.ensureFirst calls size
          search calls size fuel h first) = .ok (b.start, w.heap) := by
  obtain ⟨b, found⟩ : ∃ b, (blocksOf pages).find? (fun c => !decide (Rejects size c)) = .some b := by
    obtain ⟨c, member, accepts⟩ := some
    rw [← Option.isSome_iff_exists, List.find?_isSome]
    exact ⟨c, member, by simpa using accepts⟩
  obtain ⟨accepts, before, after, split, passed⟩ := List.find?_eq_some_iff_append.mp found
  have accepted : ¬ Rejects size b := by simpa using accepts
  have member : b ∈ blocksOf pages := by simp [split]
  refine ⟨b, member, accepted, ?_⟩
  have first := inv.first
  obtain ⟨start, head⟩ : ∃ start, (blocksOf pages).head? = .some start := by
    rw [split]
    cases before with
    | nil => exact ⟨b, rfl⟩
    | cons d before => exact ⟨d, rfl⟩
  rw [List.head?_map, head] at first
  unfold ensureFirst
  simp only [first, Option.map_some, ok_bind]
  obtain ⟨more, rfl⟩ : ∃ more, fuel = more + 1 + before.length := by
    rw [split, List.length_append, List.length_cons] at enough
    exact ⟨fuel - 1 - before.length, by omega⟩
  have listed := inv.listed
  rw [split] at listed head
  have whole : w.heap.Listed ([] ++ (before ++ b :: after)) := listed
  rw [search_skip whole (fun c inside => by simpa using passed c inside) head,
    search_stop (listed.describes b (by simp)) accepted]

/-- When no block does, a page is reserved behind the others and the search ends there. -/
theorem search_extends (inv : HeapInv w pages) (fresh : calls.Fresh) (fits : size ≤ largestRequest)
    (rejects : ∀ c ∈ blocksOf pages, Rejects size c)
    (got : calls.getMem w.heap defaultMemreserveSize = some addr)
    (enough : (blocksOf pages).length + 1 < fuel) :
    ∃ h', (do let (first, h) ← w.heap.ensureFirst calls size
              search calls size fuel h first) = .ok (addr, h') ∧
      h'.Listed (blocksOf (pages ++ [(addr, shelf size addr)])) ∧
      h'.firstHeader = ((blocksOf (pages ++ [(addr, shelf size addr)])).map Block.start).head? ∧
      h'.obtained = (addr, defaultMemreserveSize) :: w.heap.obtained ∧
      h'.returned = w.heap.returned := by
  obtain ⟨freshGrid, apart⟩ := inv.fresh_page fresh got
  obtain ⟨grid, b, rest, shape, start, free, room, -⟩ := shelf_spec freshGrid fits
  obtain ⟨h₁, reserves, listedShelf, firstKept, obtained, returned, kept⟩ :=
    allocateMoreMem_spec fits got freshGrid
  have accepts : ¬ Rejects size b := by
    rintro (used | short)
    · simp [free] at used
    · omega
  have listedPages : h₁.Listed (blocksOf pages) := inv.listed_apart apart kept
  have nodup : ((blocksOf (pages ++ [(addr, shelf size addr)])).map Block.start).Nodup :=
    nodup_starts (inv.grids_extend grid) (distinct_extend _ inv.distinct apart)
  have together : blocksOf (pages ++ [(addr, shelf size addr)]) =
      blocksOf pages ++ b :: rest := by simp [shape]
  rw [together] at nodup ⊢
  rw [shape] at listedShelf
  have listed := inv.listed
  have first := inv.first
  rcases List.eq_nil_or_concat (blocksOf pages) with empty | ⟨init, last, split⟩
  · -- The list was empty: the new page is its head.
    obtain ⟨more, rfl⟩ : ∃ more, fuel = more + 1 := ⟨fuel - 1, by omega⟩
    rw [empty] at first ⊢
    have headed : Heap.Listed { h₁ with firstHeader := some addr } (b :: rest) :=
      listedShelf.congr fun _ _ => rfl
    refine ⟨{ h₁ with firstHeader := some addr }, ?_, headed, ?_, obtained, returned⟩
    · have stops : search calls size (more + 1) _ b.start = .ok (b.start, _) :=
        search_stop (headed.describes b (by simp)) accepts
      rw [start] at stops
      unfold ensureFirst
      simp only [first, List.map_nil, List.head?_nil, reserves, ok_bind]
      exact stops
    · simp [start]
  · -- The new page is linked in behind the last block.
    rw [List.concat_eq_append] at split
    obtain ⟨head, isHead⟩ : ∃ head, (init ++ [last]).head? = some head := by
      cases init with
      | nil => exact ⟨last, rfl⟩
      | cons d init => exact ⟨d, rfl⟩
    rw [split] at listed listedPages first nodup rejects enough ⊢
    rw [List.head?_map, isHead] at first
    have regrouped : init ++ [last] ++ b :: rest = init ++ last :: b :: rest := by simp
    rw [regrouped] at nodup ⊢
    have spliced := listedPages.splice listedShelf nodup
    obtain ⟨more, rfl⟩ : ∃ more, fuel = more + 1 + 1 + init.length := by
      rw [List.length_append] at enough
      exact ⟨fuel - 2 - init.length, by simp at enough; omega⟩
    refine ⟨_, ?_, spliced, ?_, ?_, ?_⟩
    · unfold ensureFirst
      simp only [first, Option.map_some, ok_bind]
      rw [search_last listed rejects isHead, reserves, ok_bind]
      simp only
      rw [← start]
      exact search_stop (spliced.describes b (by simp)) accepts
    · show h₁.firstHeader = _
      rw [firstKept, first, List.head?_map, ← regrouped, List.head?_append, isHead]
      rfl
    · exact obtained
    · exact returned

/-- The callers' blocks after a block around the others was carved. -/
theorem HeapInv.enough_carve (inv : HeapInv w pages) {blocks : List Block} (placed : Placed base b)
    (fits : size + headerSize ≤ b.size)
    (kept : ∀ c ∈ blocksOf pages, c.used = true → c ∈ blocks)
    (carved : ∀ c ∈ carve size b, c ∈ blocks) :
    ∀ block ∈ (payload b, size) :: w.live, ∃ c ∈ blocks, c.used = true ∧ block.1 = payload c ∧
      block.2 + headerSize ≤ c.size := by
  intro block member
  rcases List.mem_cons.mp member with rfl | old
  · obtain ⟨taken, inside, used, start, large⟩ := exists_mem_carve placed fits
    refine ⟨taken, carved taken inside, used, ?_, large⟩
    unfold payload
    rw [start]
  · obtain ⟨c, inside, used, pointer, large⟩ := inv.enough block old
    exact ⟨c, kept c inside used, used, pointer, large⟩

/-- A call that finds a block in the list. -/
theorem malloc_found (calls : MemCalls) (inv : HeapInv w pages) (some : ∃ c ∈ blocksOf pages, ¬ Rejects size c)
    (enough : (blocksOf pages).length < fuel) :
    ∃ b h' pages', w.heap.malloc calls fuel size = .ok (payload b, h') ∧
      HeapInv ⟨h', (payload b, size) :: w.live⟩ pages' ∧ h'.obtained = w.heap.obtained := by
  obtain ⟨b, member, accepts, found⟩ := search_found calls inv some enough
  obtain ⟨ps, base, pl, pr, qs, rfl⟩ := exists_page member
  have free : b.used = false := by
    cases used : b.used with
    | false => rfl
    | true => exact absurd (Or.inl used) accepts
  have fits : size + headerSize ≤ b.size := by
    by_contra short
    exact accepts (Or.inr (by omega))
  have layout : PageLayout (base, pl ++ b :: pr) := inv.layout _ (by simp)
  have placed : Placed base b := layout.toPageGrid.block (by simp)
  obtain ⟨h', takes, books, listed⟩ := take_spec inv.listed inv.grids inv.distinct free fits
  refine ⟨b, h', ps ++ (base, pl ++ carve size b ++ pr) :: qs, ?_, ?_, books.obtained⟩
  · unfold malloc
    rw [← takes]
    rw [← bind_assoc, found]
    rfl
  · have unused : (blocksOf (ps ++ (base, pl ++ b :: pr) :: qs)).filter Block.used =
        ((blocksOf ps ++ pl) ++ (pr ++ blocksOf qs)).filter Block.used := by
      rw [blocksOf_split]
      simp [free]
    refine ⟨?_, listed, ?_, ?_, ?_, ?_, ?_, ?_⟩
    · rw [blocksOf_carve, head_carve, ← blocksOf_split]
      exact books.firstHeader.trans inv.first
    · intro page inside
      rcases List.mem_append.mp inside with left | right
      · exact inv.layout page (by simp [left])
      · rcases List.mem_cons.mp right with rfl | later
        · exact layout.toPageGrid.carve layout.settled free fits
        · exact inv.layout page (by simp [later])
    · have distinct := inv.distinct
      simpa using distinct
    · have ledger := inv.ledger
      simp only [books.obtained, books.returned]
      simpa using ledger
    · simp only [books.returned]
      exact inv.whole
    · rw [blocksOf_carve]
      refine List.Perm.trans ?_ (perm_held size b _ _).symm
      rw [← unused]
      exact inv.held.cons _
    · apply inv.enough_carve placed fits
      · intro c inside used
        rw [blocksOf_split] at inside
        rw [blocksOf_carve]
        rcases mem_middle.mp inside with rfl | around
        · simp [free] at used
        · simp only [List.mem_append] at around ⊢
          tauto
      · intro c inside
        rw [blocksOf_carve]
        simp [inside]

/-- A call that reserves a page. -/
theorem malloc_extends (inv : HeapInv w pages) (fresh : calls.Fresh) (fits : size ≤ largestRequest)
    (rejects : ∀ c ∈ blocksOf pages, Rejects size c)
    (got : calls.getMem w.heap defaultMemreserveSize = some addr)
    (enough : (blocksOf pages).length + 1 < fuel) :
    ∃ b h' pages', w.heap.malloc calls fuel size = .ok (payload b, h') ∧
      HeapInv ⟨h', (payload b, size) :: w.live⟩ pages' ∧
      h'.obtained = (addr, defaultMemreserveSize) :: w.heap.obtained := by
  obtain ⟨freshGrid, apart⟩ := inv.fresh_page fresh got
  obtain ⟨grid, b, rest, shape, start, free, room, carves⟩ := shelf_spec freshGrid fits
  obtain ⟨h₁, found, listed, first, obtained, returned⟩ :=
    search_extends inv fresh fits rejects got enough
  have distinct := fun blocks => distinct_extend blocks inv.distinct apart
  rw [shape] at listed first grid
  have grids : ∀ page ∈ pages ++ [(addr, [] ++ b :: rest)], PageGrid page := inv.grids_extend grid
  have whole : h₁.Listed (blocksOf (pages ++ (addr, [] ++ b :: rest) :: [])) := listed
  obtain ⟨h', takes, books, carved⟩ := take_spec whole grids (distinct _) free room
  rw [List.nil_append, carves] at carved
  have fitsPage : size + headerSize ≤ (freshBlock addr).size := by
    show size + headerSize ≤ defaultMemreserveSize
    unfold largestRequest defaultMemreserveSize headerSize at *
    omega
  have pointer : payload b = payload (freshBlock addr) := by
    unfold payload
    rw [start]
    rfl
  have blocks : blocksOf (pages ++ [(addr, carve size (freshBlock addr))]) =
      blocksOf pages ++ carve size (freshBlock addr) ++ [] := by simp
  refine ⟨b, h', pages ++ [(addr, carve size (freshBlock addr))], ?_, ?_, ?_⟩
  · unfold malloc
    rw [← takes, ← bind_assoc, found, start]
    rfl
  · refine ⟨?_, carved, ?_, distinct _, ?_, ?_, ?_, ?_⟩
    · have before : blocksOf (pages ++ [(addr, b :: rest)]) =
          blocksOf pages ++ b :: rest := by simp
      have head : ((blocksOf pages ++ freshBlock addr :: []).map Block.start).head? =
          ((blocksOf pages ++ b :: rest).map Block.start).head? := by
        rw [List.map_append, List.map_append, List.head?_append, List.head?_append]
        simp [start, freshBlock]
      rw [blocks, head_carve, head, ← before]
      exact books.firstHeader.trans first
    · intro page member
      rcases List.mem_append.mp member with old | new
      · exact inv.layout page old
      · obtain rfl := List.mem_singleton.mp new
        have whole : PageGrid (addr, [] ++ freshBlock addr :: []) := freshGrid
        have layout := whole.carve (List.isChain_singleton _) rfl fitsPage
        simpa using layout
    · simp only [books.obtained, books.returned, obtained, returned, List.map_append, List.map_cons,
        List.map_nil, List.append_assoc, List.singleton_append]
      exact (inv.ledger.cons _).trans List.perm_middle.symm
    · simp only [books.returned, returned]
      exact inv.whole
    · rw [blocks, pointer]
      refine List.Perm.trans ?_ (perm_held size (freshBlock addr) _ _).symm
      rw [List.append_nil]
      exact inv.held.cons _
    · rw [pointer]
      apply inv.enough_carve (freshGrid.block (by simp)) fitsPage
      · intro c inside _
        rw [blocks]
        simp [inside]
      · intro c inside
        rw [blocks]
        simp [inside]
  · rw [books.obtained, obtained]

/-- A call that needs a page and gets none aborts. -/
theorem malloc_refused (inv : HeapInv w pages) (fits : size ≤ largestRequest)
    (rejects : ∀ c ∈ blocksOf pages, Rejects size c)
    (refused : calls.getMem w.heap defaultMemreserveSize = none)
    (enough : (blocksOf pages).length + 1 < fuel) :
    w.heap.malloc calls fuel size = .error .abort := by
  have aborts : w.heap.allocateMoreMem calls size = .error .abort := by
    unfold allocateMoreMem
    rw [reserved_eq fits]
    simp only [refused]
  have listed := inv.listed
  have first := inv.first
  unfold malloc ensureFirst
  rcases List.eq_nil_or_concat (blocksOf pages) with empty | ⟨init, last, split⟩
  · rw [empty] at first
    simp only [first, List.map_nil, List.head?_nil, aborts, error_bind]
  · rw [List.concat_eq_append] at split
    obtain ⟨head, isHead⟩ : ∃ head, (init ++ [last]).head? = some head := by
      cases init with
      | nil => exact ⟨last, rfl⟩
      | cons d init => exact ⟨d, rfl⟩
    rw [split] at listed first rejects enough
    rw [List.head?_map, isHead] at first
    obtain ⟨more, rfl⟩ : ∃ more, fuel = more + 1 + init.length := by
      rw [List.length_append] at enough
      exact ⟨fuel - 1 - init.length, by simp at enough; omega⟩
    simp only [first, Option.map_some, ok_bind]
    rw [search_last listed rejects isHead, aborts, error_bind, error_bind]

/-- A request that a page can hold returns, unless it needs a page and gets none. -/
theorem malloc_spec (inv : HeapInv w pages) (fresh : calls.Fresh) (fits : size ≤ largestRequest)
    (enough : (blocksOf pages).length + 1 < fuel) :
    (∃ b h' pages', w.heap.malloc calls fuel size = .ok (payload b, h') ∧
      HeapInv ⟨h', (payload b, size) :: w.live⟩ pages' ∧
      h'.obtained.length ≤ w.heap.obtained.length + 1) ∨
    (calls.getMem w.heap defaultMemreserveSize = none ∧
      w.heap.malloc calls fuel size = .error .abort) := by
  by_cases rejects : ∀ c ∈ blocksOf pages, Rejects size c
  · cases got : calls.getMem w.heap defaultMemreserveSize with
    | some addr =>
      obtain ⟨b, h', pages', returns, kept, obtained⟩ :=
        malloc_extends inv fresh fits rejects got enough
      exact Or.inl ⟨b, h', pages', returns, kept, by simp [obtained]⟩
    | none =>
      exact Or.inr ⟨rfl, malloc_refused inv fits rejects got enough⟩
  · push Not at rejects
    obtain ⟨b, h', pages', returns, kept, obtained⟩ :=
      malloc_found calls inv rejects (Nat.lt_of_succ_lt enough)
    exact Or.inl ⟨b, h', pages', returns, kept, by simp [obtained]⟩

/-! ## Requests larger than a page -/

/-- Every header that the list can lead to from these addresses records at most a page. -/
structure Small (h : Heap) (addresses : Set Nat) : Prop where
  /-- No recorded length is larger than a page. -/
  len : ∀ a ∈ addresses, (h.mem a).len ≤ largestRequest
  /-- The links stay inside. -/
  closed : ∀ a ∈ addresses, ∀ next, (h.mem a).next = some next → next ∈ addresses

/-- A page reserved for a large request records less, so the headers stay small. -/
theorem Small.allocateMoreMem {addresses : Set Nat} {hdr : Nat} (small : Small h addresses)
    (large : largestRequest < size) (reserves : h.allocateMoreMem calls size = .ok (hdr, h')) :
    Small h' (insert hdr addresses) := by
  unfold Heap.allocateMoreMem at reserves
  cases got : calls.getMem h (roundToMultipleOf (wrap (size + headerSize)) defaultMemreserveSize) with
  | none => simp [got] at reserves
  | some addr =>
    simp only [got, modify_mem, if_true] at reserves
    rw [if_neg (by unfold largestRequest at large; omega)] at reserves
    simp only [Except.ok.injEq, Prod.mk.injEq] at reserves
    obtain ⟨rfl, rfl⟩ := reserves
    constructor
    · intro a member
      rw [modify_mem]
      by_cases same : a = addr
      · rw [if_pos same]
        exact Nat.le_refl _
      · rw [if_neg same]
        exact small.len a (member.resolve_left same)
    · intro a member next link
      rw [modify_mem] at link
      by_cases same : a = addr
      · rw [if_pos same] at link
        cases link
      · rw [if_neg same] at link
        exact Or.inr (small.closed a (member.resolve_left same) next link)

/-- Linking a small header in keeps the headers small. -/
theorem Small.link {addresses : Set Nat} {next : Nat} (small : Small h addresses) (hdr : Nat)
    (inside : next ∈ addresses) :
    Small (h.linkBehind hdr next) addresses := by
  have fields : ∀ a, ((h.linkBehind hdr next).mem a).len = (h.mem a).len ∧
      (((h.linkBehind hdr next).mem a).next = some next ∨
        ((h.linkBehind hdr next).mem a).next = (h.mem a).next) := by
    intro a
    unfold linkBehind
    rw [modify_mem, modify_mem, modify_mem]
    split_ifs with isNext isHdr isHdr' <;> simp_all
  constructor
  · intro a member
    rw [(fields a).1]
    exact small.len a member
  · intro a member target link
    rcases (fields a).2 with new | old
    · rw [new] at link
      cases link
      exact inside
    · rw [old] at link
      exact small.closed a member target link

/-- Among small headers the search for more than a page never ends. -/
theorem search_large {addresses : Set Nat} {start : Nat} (small : Small h addresses)
    (inside : start ∈ addresses) (large : largestRequest < size) (result : Nat × Heap) :
    search calls size fuel h start ≠ .ok result := by
  induction fuel generalizing h addresses start with
  | zero => simp [search]
  | succ fuel ih =>
    have short : ((h.mem start).inUse || decide ((h.mem start).len < size)) = true := by
      have bound := small.len start inside
      simp only [Bool.or_eq_true, decide_eq_true_iff]
      exact Or.inr (by omega)
    rw [search, if_pos short]
    cases link : (h.mem start).next with
    | some next => exact ih small (small.closed start inside next link)
    | none =>
      cases reserves : h.allocateMoreMem calls size with
      | error fault => simp
      | ok pair =>
        obtain ⟨hdr, h'⟩ := pair
        have grown := (small.allocateMoreMem large reserves).link start
          (Set.mem_insert hdr addresses)
        simp only [ok_bind]
        exact ih grown (Set.mem_insert hdr addresses)

/-- A request larger than a page never returns. -/
theorem malloc_large (inv : HeapInv w pages) (large : largestRequest < size)
    (result : Nat × Heap) : w.heap.malloc calls fuel size ≠ .ok result := by
  have small : Small w.heap {a | ∃ b ∈ blocksOf pages, b.start = a} := by
    constructor
    · rintro a ⟨b, member, rfl⟩
      obtain ⟨page, inPages, inPage⟩ := mem_blocksOf.mp member
      have placed := (inv.grids page inPages).block inPage
      have len := (inv.listed.describes b member).len
      have first := placed.start
      have last := placed.stop
      unfold Block.stop at last
      unfold largestRequest
      omega
    · rintro a ⟨b, member, rfl⟩ next link
      have links := inv.listed.links
      obtain ⟨inside, -⟩ := links.prev_of_next (List.mem_map_of_mem member) link
      exact List.mem_map.mp inside
  unfold malloc
  intro returns
  obtain ⟨⟨first, h₁⟩, started, returns⟩ := of_bind_ok returns
  obtain ⟨found, searched, -⟩ := of_bind_ok returns
  unfold ensureFirst at started
  cases head : w.heap.firstHeader with
  | some start =>
    simp only [head, Except.ok.injEq, Prod.mk.injEq] at started
    obtain ⟨rfl, rfl⟩ := started
    refine search_large small ?_ large found searched
    rw [inv.first] at head
    exact List.mem_map.mp (List.mem_of_head? head)
  | none =>
    simp only [head] at started
    obtain ⟨⟨hdr, h₂⟩, reserves, last⟩ := of_bind_ok started
    cases last
    have grown := small.allocateMoreMem large reserves
    have headed : Small { h₂ with firstHeader := some hdr } _ := ⟨grown.len, grown.closed⟩
    exact search_large headed (Set.mem_insert hdr _) large found searched

end FelineOS.Malloc
