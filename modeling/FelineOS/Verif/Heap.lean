import FelineOS.Verif.HeapFree

/-!
# The heap over whole runs

The invariant holds after every sequence of calls that have all returned (`reachable_inv`),
also when the callers write to their memory between calls. It gives the safety of the heap, the
requests for which `malloc` makes progress, and that everything freed goes back to the memory
manager.
-/

namespace FelineOS.Malloc

open Library Heap

variable {w w' : World} {pages : List Page} {calls : MemCalls} {size fuel : Nat}

/-! ## Steps and runs -/

/-- More steps do not change a `free` that returned. -/
theorem free_mono {h h' : Heap} {ptr : Nat} (more : Nat)
    (returns : h.free calls fuel ptr = .ok h') : h.free calls (fuel + more) ptr = .ok h' := by
  unfold free at returns ⊢
  by_cases null : ptr = 0
  · rw [if_pos null] at returns ⊢
    exact returns
  · rw [if_neg null] at returns ⊢
    cases head : h.firstHeader with
    | none => simp [head] at returns
    | some first =>
      simp only [head] at returns ⊢
      obtain ⟨hdr, found, last⟩ := of_bind_ok returns
      rw [findHeader_mono more found, ok_bind]
      exact last

/-- A `malloc` that returned kept the invariant. -/
theorem malloc_inv (inv : HeapInv w pages) (fresh : calls.Fresh) {ptr : Nat} {h : Heap}
    (returns : w.heap.malloc calls fuel size = .ok (ptr, h)) :
    ∃ pages', HeapInv ⟨h, (ptr, size) :: w.live⟩ pages' := by
  have fits : size ≤ largestRequest := by
    by_contra large
    exact malloc_large inv (Nat.lt_of_not_le large) (ptr, h) returns
  have longer := malloc_mono ((blocksOf pages).length + 2) returns
  have enough : (blocksOf pages).length + 1 < fuel + ((blocksOf pages).length + 2) := by omega
  rcases malloc_spec inv fresh fits enough with
    ⟨b, h', pages', result, kept, -⟩ | ⟨-, aborts⟩
  · rw [result] at longer
    cases longer
    exact ⟨pages', kept⟩
  · rw [aborts] at longer
    cases longer

/-- A `free` that returned kept the invariant. -/
theorem free_inv (inv : HeapInv w pages) {block : Nat × Nat} (held : block ∈ w.live) {h : Heap}
    (returns : w.heap.free calls fuel block.1 = .ok h) :
    ∃ pages', HeapInv ⟨h, w.live.erase block⟩ pages' := by
  have longer := free_mono ((blocksOf pages).length + 1) returns
  have enough : (blocksOf pages).length < fuel + ((blocksOf pages).length + 1) := by omega
  rcases free_spec calls inv held enough with ⟨h', pages', result, kept⟩ | aborts
  · rw [result] at longer
    cases longer
    exact ⟨pages', kept⟩
  · rw [aborts] at longer
    cases longer

/-- The bytes a caller asked for and the header of any block are apart. -/
theorem HeapInv.untouchable (inv : HeapInv w pages) {b : Block} (member : b ∈ blocksOf pages) :
    w.Untouchable b.start := by
  intro block held
  obtain ⟨c, inside, -, pointer, large⟩ := inv.enough block held
  obtain ⟨page, inPages, inPage⟩ := mem_blocksOf.mp member
  have header := ((inv.grids page inPages).block inPage).header
  obtain ⟨xs, ys, split⟩ := List.append_of_mem inside
  have apart := spread inv.grids inv.distinct
  rw [split] at apart member
  unfold payload at pointer
  rcases mem_middle.mp member with rfl | around
  · exact Or.inr (by omega)
  · have ordered := apart_of_spread apart around
    unfold Block.stop at ordered
    omega

/-- Callers that write to their memory keep the invariant. -/
theorem store_inv (inv : HeapInv w pages) {mem : Nat → Header}
    (kept : ∀ addr, w.Untouchable addr → mem addr = w.heap.mem addr) :
    HeapInv ⟨{ w.heap with mem := mem }, w.live⟩ pages :=
  ⟨inv.first, inv.listed.congr fun b member => kept b.start (inv.untouchable member), inv.layout,
    inv.distinct, inv.ledger, inv.whole, inv.held, inv.enough⟩

/-- Every step keeps the invariant. -/
theorem step_inv (inv : HeapInv w pages) (step : Step w w') : ∃ pages', HeapInv w' pages' := by
  cases step with
  | malloc fresh word returns => exact malloc_inv inv fresh returns
  | free held returns => exact free_inv inv held returns
  | freeNull returns =>
    rw [free, if_pos rfl] at returns
    cases returns
    exact ⟨pages, inv⟩
  | store kept => exact ⟨pages, store_inv inv kept⟩

/-- The invariant before the first call. -/
theorem boot_inv (mem : Nat → Header) : HeapInv (boot mem) [] where
  first := rfl
  listed := ⟨trivial, by simp⟩
  layout := by simp
  distinct := by simp
  ledger := List.Perm.refl _
  whole := by simp [boot]
  held := List.Perm.refl _
  enough := by simp [boot]

/-- The invariant holds after every sequence of calls that have all returned. -/
theorem reachable_inv (reachable : Reachable w) : ∃ pages, HeapInv w pages := by
  induction reachable with
  | boot mem => exact ⟨[], boot_inv mem⟩
  | step before step ih =>
    obtain ⟨pages, inv⟩ := ih
    exact step_inv inv step

/-! ## Safety -/

/-- The pages are what was reserved and not returned. -/
theorem HeapInv.outstanding_perm (inv : HeapInv w pages) :
    w.heap.outstanding.Perm (pages.map fun page => (page.1, defaultMemreserveSize)) := by
  rw [List.perm_iff_count]
  intro block
  unfold Heap.outstanding
  rw [List.count_diff, inv.ledger.count_eq, List.count_append, Nat.add_sub_cancel]

/-- The recorded lengths of a page, with their headers, add up to the page. -/
theorem HeapInv.sum_len (inv : HeapInv w pages) {page : Page} (member : page ∈ pages) :
    (page.2.map fun b => (w.heap.mem b.start).len + headerSize).sum = defaultMemreserveSize := by
  have sizes : (page.2.map fun b => (w.heap.mem b.start).len + headerSize) =
      page.2.map Block.size := by
    apply List.map_congr_left
    intro b inside
    exact (inv.listed.describes b (mem_blocksOf.mpr ⟨page, member, inside⟩)).len
  have total := (inv.grids page member).tiles.sum_size
  rw [sizes]
  omega

/-- The block behind a caller's pointer. -/
theorem HeapInv.block_of_live (inv : HeapInv w pages) {block : Nat × Nat} (held : block ∈ w.live) :
    ∃ b ∈ blocksOf pages, block.1 = payload b ∧ (w.heap.mem b.start).inUse = true ∧
      block.2 ≤ (w.heap.mem b.start).len ∧ block.1 + w.heap.payloadLen block.1 = b.stop := by
  obtain ⟨b, member, used, pointer, large⟩ := inv.enough block held
  have described := inv.listed.describes b member
  have len := described.len
  refine ⟨b, member, pointer, described.inUse.trans used, by omega, ?_⟩
  have start : block.1 - headerSize = b.start := by
    rw [pointer]
    unfold payload
    omega
  unfold payloadLen Block.stop
  rw [start, pointer]
  unfold payload
  omega

/-- After every sequence of calls that have all returned, the header list is doubly linked, the
blocks of each reserved page tile it, every caller has at least what it asked for, and the
callers' bytes are apart from each other and from every header. -/
theorem heap_safe (reachable : Reachable w) : ∃ pages : List Page,
    w.heap.firstHeader = ((blocksOf pages).map Block.start).head? ∧
    Chain w.heap.next w.heap.prev none ((blocksOf pages).map Block.start) none ∧
    w.heap.outstanding.Perm (pages.map fun page => (page.1, defaultMemreserveSize)) ∧
    (∀ page ∈ pages, Tiles page.1 page.2 (page.1 + defaultMemreserveSize) ∧
      (page.2.map fun b => (w.heap.mem b.start).len + headerSize).sum = defaultMemreserveSize ∧
      ∀ b ∈ page.2, (w.heap.mem b.start).len + headerSize = b.size ∧
        headerSize ∣ (w.heap.mem b.start).len) ∧
    (∀ block ∈ w.live, ∃ b ∈ blocksOf pages, block.1 = payload b ∧
      (w.heap.mem b.start).inUse = true ∧ block.2 ≤ (w.heap.mem b.start).len) ∧
    (w.live.Pairwise fun p q => p.1 + w.heap.payloadLen p.1 ≤ q.1 ∨
      q.1 + w.heap.payloadLen q.1 ≤ p.1) ∧
    ∀ block ∈ w.live, ∀ b ∈ blocksOf pages,
      block.1 + w.heap.payloadLen block.1 ≤ b.start ∨ b.start + headerSize ≤ block.1 := by
  obtain ⟨pages, inv⟩ := reachable_inv reachable
  have apart := spread inv.grids inv.distinct
  refine ⟨pages, inv.first, inv.listed.links, inv.outstanding_perm, ?_, ?_, ?_, ?_⟩
  · intro page member
    refine ⟨(inv.grids page member).tiles, inv.sum_len member, ?_⟩
    intro b inside
    have len := (inv.listed.describes b (mem_blocksOf.mpr ⟨page, member, inside⟩)).len
    have grained := ((inv.grids page member).block inside).grained
    rw [← len] at grained
    exact ⟨len, (Nat.dvd_add_left (Nat.dvd_refl headerSize)).mp grained⟩
  · intro block held
    obtain ⟨b, member, pointer, used, large, -⟩ := inv.block_of_live held
    exact ⟨b, member, pointer, used, large⟩
  · have pointers : w.live.Pairwise fun p q => p.1 ≠ q.1 := List.pairwise_map.mp inv.nodup_live
    refine pointers.imp_of_mem ?_
    intro p q inP inQ different
    obtain ⟨c, inC, pointerC, -, -, stopC⟩ := inv.block_of_live inP
    obtain ⟨d, inD, pointerD, -, -, stopD⟩ := inv.block_of_live inQ
    obtain ⟨xs, ys, split⟩ := List.append_of_mem inD
    rw [split] at apart inC
    rw [stopC, stopD, pointerC, pointerD]
    unfold payload
    rcases mem_middle.mp inC with rfl | around
    · exact absurd (pointerC.trans pointerD.symm) different
    · have ordered := apart_of_spread apart around
      omega
  · intro block held b member
    obtain ⟨c, inC, pointer, -, -, stop⟩ := inv.block_of_live held
    obtain ⟨page, inPages, inPage⟩ := mem_blocksOf.mp member
    have header := ((inv.grids page inPages).block inPage).header
    obtain ⟨xs, ys, split⟩ := List.append_of_mem inC
    rw [split] at apart member
    rw [stop, pointer]
    unfold payload
    rcases mem_middle.mp member with rfl | around
    · exact Or.inr (Nat.le_refl _)
    · have ordered := apart_of_spread apart around
      have last : b.start + headerSize ≤ b.stop := by
        unfold Block.stop
        omega
      omega

/-- A memory manager that reserves above everything that is still outstanding. -/
def stackCalls : MemCalls where
  getMem h bytes :=
    let top := h.outstanding.foldr (fun block top => max (block.1 + block.2) top) 0
    let addr := (top / defaultMemreserveSize + 1) * defaultMemreserveSize
    if addr + bytes < wordLimit then some addr else none
  freeMem _ _ _ := true

/-- Every block ends at or below the top. -/
theorem le_top {blocks : List (Nat × Nat)} {block : Nat × Nat} (member : block ∈ blocks) :
    block.1 + block.2 ≤ blocks.foldr (fun block top => max (block.1 + block.2) top) 0 := by
  induction blocks with
  | nil => simp at member
  | cons first rest ih =>
    rcases List.mem_cons.mp member with rfl | later
    · exact Nat.le_max_left _ _
    · exact Nat.le_trans (ih later) (Nat.le_max_right _ _)

/-- Such a memory manager hands out fresh blocks. -/
theorem stackCalls_fresh : stackCalls.Fresh := by
  have shape : ∀ {h bytes addr}, stackCalls.getMem h bytes = some addr →
      (h.outstanding.foldr (fun block top => max (block.1 + block.2) top) 0 /
        defaultMemreserveSize + 1) * defaultMemreserveSize = addr ∧ addr + bytes < wordLimit := by
    intro h bytes addr got
    simp only [stackCalls] at got
    split at got
    · cases got
      exact ⟨rfl, by assumption⟩
    · cases got
  refine ⟨?_, ?_, ?_, ?_⟩
  · intro h bytes addr got
    exact ⟨_, by rw [← (shape got).1, Nat.mul_comm]⟩
  · intro h bytes addr got
    have place := (shape got).1
    unfold defaultMemreserveSize at place
    omega
  · intro h bytes addr got
    exact (shape got).2
  · intro h bytes addr got block member
    have place := (shape got).1
    have below := le_top member
    unfold defaultMemreserveSize at place
    omega

/-- Memory before the first call, all zero. -/
def zeroed : Nat → Header := fun _ => ⟨none, none, 0, false, false⟩

/-- The first call of a run. -/
theorem exists_first_call : ∃ h, (boot zeroed).heap.malloc stackCalls 1 100 = .ok (4112, h) :=
  ⟨_, rfl⟩

/-- After the first call the header list holds one page. -/
theorem heap_safe_first_call : ∃ w, Reachable w ∧ w.live = [(4112, 100)] ∧
    ∃ pages : List Page, Chain w.heap.next w.heap.prev none ((blocksOf pages).map Block.start) none ∧
      w.heap.outstanding.Perm (pages.map fun page => (page.1, defaultMemreserveSize)) ∧
      ∃ b ∈ blocksOf pages, 4112 = payload b ∧ 100 ≤ (w.heap.mem b.start).len := by
  obtain ⟨h, returns⟩ := exists_first_call
  have reached := Reachable.step (.boot zeroed) (.malloc stackCalls_fresh (by decide) returns)
  obtain ⟨pages, -, links, reserved, -, enough, -, -⟩ := heap_safe reached
  obtain ⟨b, member, pointer, -, large⟩ := enough (4112, 100) List.mem_cons_self
  exact ⟨_, reached, rfl, pages, links, reserved, b, member, pointer, large⟩

/-! ## Progress -/

/-- A request that a page can hold makes progress when a page can be had. -/
theorem makesProgress_of_fits (inv : HeapInv w pages) (fresh : calls.Fresh)
    (fits : size ≤ largestRequest)
    (supply : (calls.getMem w.heap defaultMemreserveSize).isSome) :
    MakesProgress calls w.heap size := by
  rcases malloc_spec inv fresh fits (Nat.lt_succ_self ((blocksOf pages).length + 1)) with
    ⟨b, h', pages', returns, kept, requests⟩ | ⟨refused, -⟩
  · obtain ⟨c, member, pointer, used, large, -⟩ :=
      kept.block_of_live (List.mem_cons_self : (payload b, size) ∈ _)
    have start : payload b - headerSize = c.start := by
      simp only at pointer
      rw [pointer]
      unfold payload
      omega
    refine ⟨_, payload b, h', returns, requests, ?_, ?_⟩
    · unfold payloadLen
      rw [start]
      exact large
    · rw [start]
      exact used
  · rw [refused] at supply
    cases supply

/-- `malloc` makes progress exactly on requests that fit one page with their header. -/
theorem malloc_makesProgress_iff (reachable : Reachable w) (fresh : calls.Fresh)
    (supply : (calls.getMem w.heap
      (roundToMultipleOf (wrap (size + headerSize)) defaultMemreserveSize)).isSome) :
    MakesProgress calls w.heap size ↔ size ≤ defaultMemreserveSize - headerSize := by
  obtain ⟨pages, inv⟩ := reachable_inv reachable
  constructor
  · rintro ⟨fuel, ptr, h', returns, -⟩
    by_contra large
    exact malloc_large inv (Nat.lt_of_not_le large) (ptr, h') returns
  · intro fits
    rw [reserved_eq fits] at supply
    exact makesProgress_of_fits inv fresh fits supply

/-- The first request of a run makes progress when it is small. -/
theorem malloc_makesProgress_first : MakesProgress stackCalls (boot zeroed).heap 100 :=
  (malloc_makesProgress_iff (.boot zeroed) stackCalls_fresh (by decide)).mpr (by decide)

/-- A first request of one byte more than a page can hold never returns, although the memory
manager supplies the two pages it is asked for. -/
theorem malloc_page_and_one_stuck : Reachable (boot zeroed) ∧ stackCalls.Fresh ∧
    stackCalls.getMem (boot zeroed).heap
      (roundToMultipleOf (wrap (4081 + headerSize)) defaultMemreserveSize) = some 4096 ∧
    ¬ MakesProgress stackCalls (boot zeroed).heap 4081 := by
  refine ⟨.boot zeroed, stackCalls_fresh, by decide, ?_⟩
  rintro ⟨fuel, ptr, h', returns, -⟩
  exact malloc_large (boot_inv zeroed) (by decide) (ptr, h') returns

/-! ## Giving everything back -/

/-- After every sequence of calls that have all returned, neighbours in a page are not both free
and every page has a block handed out; once every allocation was freed, the list is empty and
each page was returned once, whole. -/
theorem heap_gives_back (reachable : Reachable w) :
    (∃ pages : List Page,
      w.heap.firstHeader = ((blocksOf pages).map Block.start).head? ∧
      Chain w.heap.next w.heap.prev none ((blocksOf pages).map Block.start) none ∧
      w.heap.outstanding.Perm (pages.map fun page => (page.1, defaultMemreserveSize)) ∧
      ∀ page ∈ pages, Tiles page.1 page.2 (page.1 + defaultMemreserveSize) ∧
        (page.2.IsChain fun a b => (w.heap.mem a.start).inUse = true ∨
          (w.heap.mem b.start).inUse = true) ∧
        ∃ b ∈ page.2, (w.heap.mem b.start).inUse = true) ∧
    (w.live = [] → w.heap.firstHeader = none ∧ w.heap.obtained.Perm w.heap.returned ∧
      ∀ block ∈ w.heap.returned, block.2 = defaultMemreserveSize) := by
  obtain ⟨pages, inv⟩ := reachable_inv reachable
  constructor
  · refine ⟨pages, inv.first, inv.listed.links, inv.outstanding_perm, ?_⟩
    intro page member
    have layout := inv.layout page member
    have flag : ∀ b ∈ page.2, (w.heap.mem b.start).inUse = b.used := fun b inside =>
      (inv.listed.describes b (mem_blocksOf.mpr ⟨page, member, inside⟩)).inUse
    refine ⟨layout.tiles, ?_, ?_⟩
    · refine (layout.tiles.isChain_used layout.settled).imp_of_mem_imp ?_
      intro a b inA inB used
      rw [flag a inA, flag b inB]
      exact used
    · obtain ⟨b, inside, used⟩ := layout.occupied
      exact ⟨b, inside, (flag b inside).trans used⟩
  · intro freed
    have none : pages = [] := by
      cases pages with
      | nil => rfl
      | cons page pages =>
        obtain ⟨b, inside, used⟩ := (inv.layout page (by simp)).occupied
        have held := inv.held
        rw [freed] at held
        have member : payload b ∈ ((blocksOf (page :: pages)).filter Block.used).map payload :=
          List.mem_map_of_mem (List.mem_filter.mpr ⟨by simp [inside], used⟩)
        exact absurd (held.mem_iff.mpr member) (by simp)
    have first := inv.first
    have ledger := inv.ledger
    rw [none] at first ledger
    exact ⟨first, by simpa using ledger, inv.whole⟩

/-- What the memory manager handed out in a first call and its `free`. -/
theorem call_and_free_obtained :
    (do let (_, h) ← (boot zeroed).heap.malloc stackCalls 1 100
        let h' ← h.free stackCalls 1 4112
        return h'.obtained) = Except.ok [(4096, 4096)] := by decide +kernel

/-- A first call and its `free`. -/
theorem exists_call_and_free : ∃ h h', (boot zeroed).heap.malloc stackCalls 1 100 = .ok (4112, h) ∧
    h.free stackCalls 1 4112 = .ok h' ∧ h'.obtained = [(4096, 4096)] := by
  obtain ⟨h, returns⟩ := exists_first_call
  have obtained := call_and_free_obtained
  rw [returns, ok_bind] at obtained
  simp only at obtained
  obtain ⟨h', frees, last⟩ := of_bind_ok obtained
  exact ⟨h, h', returns, frees, Except.ok.inj last⟩

/-- After one allocation and its `free` the page went back. -/
theorem heap_gives_back_first_call : ∃ w, Reachable w ∧ w.heap.obtained = [(4096, 4096)] ∧
    w.heap.firstHeader = none ∧ [(4096, 4096)].Perm w.heap.returned := by
  obtain ⟨h, h', returns, frees, obtained⟩ := exists_call_and_free
  have called := Reachable.step (.boot zeroed) (.malloc stackCalls_fresh (by decide) returns)
  have freed := Reachable.step called
    (.free (List.mem_cons_self : ((4112, 100) : Nat × Nat) ∈ _) frees)
  obtain ⟨-, all⟩ := heap_gives_back freed
  obtain ⟨first, back, -⟩ := all rfl
  rw [obtained] at back
  exact ⟨_, freed, obtained, first, back⟩

end FelineOS.Malloc
