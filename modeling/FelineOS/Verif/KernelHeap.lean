import FelineOS.Verif.HeapManager
import FelineOS.Verif.Mem
import Mathlib.Data.List.Basic

/-!
# The heap and the two memory managers together

The heap was verified over any source of fresh blocks, and `get_mem` and `free_mem` over any caller.
Here the one runs on the other, in whole runs of `malloc`, `free` and calls that other parts of the
kernel make to the memory manager. The blocks that are out are the pages of the heap and the blocks
of the others, and both invariants hold of them (`Inv`).
-/

namespace FelineOS.KernelHeap

open Library (Block Chain)
open Malloc (Heap HeapInv Page blocksOf defaultMemreserveSize headerSize largestRequest MemCalls
  MemManager replies Supplies)
open Mem (System MemBlock)
open PhysMem (RepInv)
open Paging.I386 (Layout Tables Sound view windowPage)

variable {layout : Layout} {w w' : World} {s s' : System} {h h' : Heap} {addr len : Nat}
  {next : System → Option Nat} {out live : List (Nat × Nat)} {block : Nat × Nat}

/-! ## The memory manager -/

/-- Blocks are told apart. -/
theorem memBlock_injective : Function.Injective memBlock := by
  intro a b same
  simp only [memBlock, MemBlock.mk.injEq] at same
  exact Prod.ext same.1 same.2

/-- The managers, when these blocks are out. -/
def Serves (layout : Layout) (s : System) (out : List (Nat × Nat)) : Prop :=
  Mem.Inv layout ⟨s, out.map memBlock⟩

/-- The order of the blocks does not matter. -/
theorem Serves.perm (serves : Serves layout s out) (same : out.Perm live) :
    Serves layout s live := by
  have mapped := same.map memBlock
  refine ⟨serves.pmm, serves.sound, ?_, ?_⟩
  · intro b listed
    exact serves.backed b (mapped.mem_iff.mpr listed)
  · have symmetric : ∀ {a b : MemBlock}, Mem.Separate s.vmm.space.tables a b →
        Mem.Separate s.vmm.space.tables b a :=
      fun separate i small j below equal => separate j below i small equal.symm
    exact (mapped.pairwise_iff symmetric).mp serves.separate

/-- What a call of `get_mem` that returned leaves. -/
theorem Serves.get {answer : Option Nat} (serves : Serves layout s out) (tidy : Tidy next)
    (positive : 0 < len) (word : len < wordLimit)
    (returns : (memManager layout next).getMem s len = .ok (answer, s')) :
    Serves layout s' ((answer.toList.map fun addr => (addr, len)) ++ out) := by
  simp only [memManager] at returns
  obtain ⟨⟨result, virt, s₁⟩, gets, last⟩ := of_bind_ok returns
  cases last
  have call : Mem.World.exec layout ⟨s, out.map memBlock⟩ (.get (next s) len) =
      .ok ⟨s₁, if result = .success then ⟨virt, len⟩ :: out.map memBlock
        else out.map memBlock⟩ := by
    simp only [Mem.World.exec, gets, ok_bind]
    rfl
  rcases Mem.Inv.get serves ⟨positive, word⟩ (tidy s) with stopped | ⟨w', returned, inv⟩
  · rw [call] at stopped
    cases stopped
  · rw [call] at returned
    cases returned
    by_cases success : result = .success
    · rw [if_pos success] at inv
      rw [if_pos success]
      exact inv
    · rw [if_neg success] at inv
      rw [if_neg success]
      exact inv

/-- What a call of `free_mem` that returned leaves. -/
theorem Serves.free {done : Bool} (serves : Serves layout s out) (held : block ∈ out)
    (returns : (memManager layout next).freeMem s block.1 block.2 = .ok (done, s')) :
    Serves layout s' (if done then out.erase block else out) := by
  simp only [memManager] at returns
  obtain ⟨⟨result, s₁⟩, frees, last⟩ := of_bind_ok returns
  cases last
  have call : Mem.World.exec layout ⟨s, out.map memBlock⟩ (.free (memBlock block)) =
      .ok ⟨s₁, if result = .success then (out.map memBlock).erase (memBlock block)
        else out.map memBlock⟩ := by
    simp only [Mem.World.exec, memBlock, frees, ok_bind]
    rfl
  have legal : memBlock block ∈ out.map memBlock := List.mem_map_of_mem held
  obtain ⟨w', returned, inv⟩ := Mem.Inv.free serves legal
  rw [call] at returned
  cases returned
  by_cases success : result = .success
  · rw [if_pos success, ← List.map_erase memBlock_injective] at inv
    simp only [success, decide_true, if_true]
    exact inv
  · rw [if_neg success] at inv
    simp only [success, decide_false, Bool.false_eq_true, if_false]
    exact inv

/-- Blocks whose pages show different physical pages have no page in common. -/
theorem pages_apart {t : Tables} {a b : MemBlock} (separate : Mem.Separate t a b) {i j : Nat}
    (smallA : i < a.pages) (smallB : j < b.pages) : a.page i ≠ b.page j := by
  intro same
  apply separate i smallA j smallB
  rw [same]

/-- Two blocks that are out share no byte. -/
theorem blocks_apart {a b : MemBlock} (backedA : Mem.Backed s a) (backedB : Mem.Backed s b)
    (separate : Mem.Separate s.vmm.space.tables a b) :
    b.virt + b.len ≤ a.virt ∨ a.virt + a.len ≤ b.virt := by
  obtain ⟨p, startA⟩ := backedA.aligned
  obtain ⟨q, startB⟩ := backedB.aligned
  have shortA := backedA.len_le_pages
  have shortB := backedB.len_le_pages
  have pageA : ∀ i, a.page i = p + i := fun i => by
    rw [MemBlock.page, startA, Nat.mul_div_cancel_left p (by decide)]
  have pageB : ∀ i, b.page i = q + i := fun i => by
    rw [MemBlock.page, startB, Nat.mul_div_cancel_left q (by decide)]
  have apart : ∀ i < a.pages, ∀ j < b.pages, p + i ≠ q + j := by
    intro i smallA j smallB
    rw [← pageA, ← pageB]
    exact pages_apart separate smallA smallB
  have posA := backedA.pages_pos
  have posB := backedB.pages_pos
  rw [startA, startB]
  unfold pageSize at *
  rcases Nat.lt_or_ge p q with below | above
  · have behind : ¬ q - p < a.pages := fun inside => apart (q - p) inside 0 posB (by omega)
    omega
  · have behind : ¬ p - q < b.pages := fun inside => apart 0 posA (p - q) inside (by omega)
    omega

/-- A block that was just handed out is one the heap may use. -/
theorem Serves.fresh (serves : Serves layout s ((addr, len) :: out)) :
    defaultMemreserveSize ∣ addr ∧ 0 < addr ∧ addr + len < wordLimit ∧
      ∀ block ∈ out, block.1 + block.2 ≤ addr ∨ addr + len ≤ block.1 := by
  have backed : Mem.Backed s ⟨addr, len⟩ := serves.backed _ List.mem_cons_self
  have short := backed.len_le_pages
  have below := backed.below
  refine ⟨backed.aligned, Nat.pos_of_ne_zero backed.nonzero, ?_, ?_⟩
  · obtain ⟨p, start⟩ := backed.aligned
    simp only at start
    simp only [MemBlock.pages] at short below
    rw [start, Nat.mul_div_cancel_left p (by decide)] at below
    rw [start]
    unfold windowPage at below
    unfold pageSize at *
    unfold wordLimit
    omega
  · intro block listed
    have other := serves.backed (memBlock block)
      (List.mem_cons_of_mem _ (List.mem_map_of_mem listed))
    have separate := (List.pairwise_cons.mp serves.separate).1 (memBlock block)
      (List.mem_map_of_mem listed)
    exact blocks_apart backed other separate

/-! ## Requests of the heap -/

/-- A block that the heap may use, with its books as they are. -/
def FreshBlock (h : Heap) (bytes addr : Nat) : Prop :=
  defaultMemreserveSize ∣ addr ∧ 0 < addr ∧ addr + bytes < wordLimit ∧
    ∀ block ∈ h.outstanding, block.1 + block.2 ≤ addr ∨ addr + bytes ≤ block.1

/-- Answers of which those that are not fresh are withheld are fresh. -/
theorem replies_fresh (f : Nat → Option Nat) : (replies FreshBlock f).Fresh := by
  have given : ∀ {h : Heap} {bytes addr : Nat},
      (replies FreshBlock f).getMem h bytes = some addr → FreshBlock h bytes addr := by
    intro h bytes addr got
    simp only [replies, Option.filter_eq_some_iff, decide_eq_true_eq] at got
    exact got.2
  exact ⟨fun got => (given got).1, fun got => (given got).2.1, fun got => (given got).2.2.1,
    fun got => (given got).2.2.2⟩

/-- The heap books its blocks and the managers serve them, next to those of the others. -/
def Booked (layout : Layout) (others : List (Nat × Nat)) (h : Heap) (s : System) : Prop :=
  ∃ out, h.obtained.Perm (out ++ h.returned) ∧ Serves layout s (out ++ others)

/-- The blocks that are out, from the books. -/
theorem outstanding_perm (books : h.obtained.Perm (out ++ h.returned)) :
    h.outstanding.Perm out := by
  rw [List.perm_iff_count]
  intro block
  unfold Malloc.Heap.outstanding
  rw [List.count_diff, books.count_eq, List.count_append, Nat.add_sub_cancel]

/-- A page that `free` gives back was out. -/
theorem given_mem {w : Malloc.World} {pages' : List Page} {given : Nat × Nat}
    (books : w.heap.obtained.Perm (out ++ w.heap.returned))
    (heap : HeapInv ⟨h, live⟩ pages') (obtained : h.obtained = w.heap.obtained)
    (returned : h.returned = given :: w.heap.returned) : given ∈ out := by
  have ledger := heap.ledger
  simp only [obtained, returned] at ledger
  have both := (books.symm.trans ledger).trans List.perm_middle
  have front : out.Perm (given :: pages'.map fun page => (page.1, defaultMemreserveSize)) :=
    (List.perm_append_right_iff _).mp both
  exact front.mem_iff.mpr List.mem_cons_self

/-- The managers supply the heap. -/
theorem supplies (tidy : Tidy next) (others : List (Nat × Nat)) (positive : 0 < len)
    (word : len < wordLimit) :
    Supplies (memManager layout next) (Booked layout others) FreshBlock len := by
  refine ⟨?_, ?_, ?_⟩
  · rintro h h' s ⟨out, books, serves⟩ obtained returned
    exact ⟨out, by rw [obtained, returned]; exact books, serves⟩
  · rintro h s s' addr ⟨out, books, serves⟩ asks
    obtain ⟨aligned, nonnull, bounded, apart⟩ := (serves.get tidy positive word asks).fresh
    refine ⟨aligned, nonnull, bounded, fun block listed => ?_⟩
    have inside : block ∈ out := (outstanding_perm books).mem_iff.mp listed
    exact apart block (List.mem_append_left others inside)
  · rintro h h' s s' addr ⟨out, books, serves⟩ asks obtained returned
    refine ⟨(addr, len) :: out, ?_, serves.get tidy positive word asks⟩
    rw [obtained, returned]
    exact books.cons (addr, len)

/-! ## Runs -/

/-- What every call keeps. -/
structure Inv (layout : Layout) (w : World) : Prop where
  /-- The heap. -/
  heap : ∃ pages, HeapInv w.heap pages
  /-- The memory manager. -/
  booked : Booked layout w.others w.heap.heap w.system

/-- A request that returned was for no more than a page. -/
theorem fits_of_mallocOver {w : Malloc.World} {pages : List Page} {fuel size ptr : Nat}
    (inv : HeapInv w pages)
    (returns : w.heap.mallocOver (memManager layout next) s fuel size = .ok (ptr, h, s')) :
    size ≤ largestRequest := by
  by_contra large
  have free : Supplies (memManager layout next) (fun _ _ => True) (fun _ _ _ => True)
      (Malloc.roundToMultipleOf (wrap (size + headerSize)) defaultMemreserveSize) :=
    ⟨fun _ _ _ => trivial, fun _ _ => trivial, fun _ _ _ _ => trivial⟩
  obtain ⟨-, f, told⟩ := Malloc.mallocOver_sim free trivial returns
  exact Malloc.malloc_large inv (Nat.lt_of_not_le large) (ptr, h) told

/-- `malloc`. -/
theorem Inv.malloc {fuel size ptr : Nat} (inv : Inv layout w) (tidy : Tidy next)
    (returns : w.heap.heap.mallocOver (memManager layout next) w.system fuel size =
      .ok (ptr, h, s)) : Inv layout ⟨⟨h, (ptr, size) :: w.heap.live⟩, s, w.others⟩ := by
  obtain ⟨pages, heap⟩ := inv.heap
  have serves : Supplies (memManager layout next) (Booked layout w.others) FreshBlock
      defaultMemreserveSize := supplies tidy w.others (by decide) (by decide)
  rw [← Malloc.Heap.reserved_eq (fits_of_mallocOver heap returns)] at serves
  obtain ⟨booked, f, told⟩ := Malloc.mallocOver_sim serves inv.booked returns
  exact ⟨Malloc.malloc_inv heap (replies_fresh f) told, booked⟩

/-- `free`. -/
theorem Inv.free {fuel : Nat} (inv : Inv layout w) (held : block ∈ w.heap.live)
    (returns : w.heap.heap.freeOver (memManager layout next) w.system fuel block.1 = .ok (h, s)) :
    Inv layout ⟨⟨h, w.heap.live.erase block⟩, s, w.others⟩ := by
  obtain ⟨pages, heap⟩ := inv.heap
  obtain ⟨out, books, serves⟩ := inv.booked
  obtain ⟨told, obtained, ⟨returned, same⟩ | ⟨given, returned, gives⟩⟩ := Malloc.freeOver_sim returns
  · refine ⟨Malloc.free_inv heap held told, out, ?_, ?_⟩
    · simp only [obtained, returned]
      exact books
    · simp only [same]
      exact serves
  · obtain ⟨pages', heap'⟩ := Malloc.free_inv heap held told
    have member := given_mem books heap' obtained returned
    have served := serves.free (List.mem_append_left w.others member) gives
    rw [if_pos rfl, List.erase_append_left _ member] at served
    refine ⟨⟨pages', heap'⟩, out.erase given, ?_, served⟩
    simp only [obtained, returned]
    have split := (List.perm_cons_erase member).append_right w.heap.heap.returned
    exact (books.trans split).trans List.perm_middle.symm

/-- Every step keeps the invariant. -/
theorem Inv.step (inv : Inv layout w) (step : Step layout w w') : Inv layout w' := by
  obtain ⟨out, books, serves⟩ := inv.booked
  cases step with
  | malloc tidy word returns => exact inv.malloc tidy returns
  | free held returns => exact inv.free held returns
  | store kept =>
    obtain ⟨pages, heap⟩ := inv.heap
    exact ⟨⟨pages, Malloc.store_inv heap kept⟩, out, books, serves⟩
  | get tidy positive word returns =>
    refine ⟨inv.heap, out, books, (serves.get tidy positive word returns).perm ?_⟩
    rw [← List.append_assoc, ← List.append_assoc]
    exact List.perm_append_comm.append_right w.others
  | @giveBack next block done s held returns =>
    refine ⟨inv.heap, out, books,
      (serves.free (List.mem_append_right out held) returns).perm ?_⟩
    cases done with
    | false => exact .refl _
    | true =>
      simp only [if_true]
      have front := ((List.perm_cons_erase held).append_left out).trans List.perm_middle
      have erased := front.erase block
      rwa [List.erase_cons_head] at erased

/-- The invariant holds after every run. -/
theorem reachable_inv {start : System} (pmm : RepInv start.pmm)
    (sound : Sound layout start.vmm.space) (reachable : Reachable layout start w) :
    Inv layout w := by
  induction reachable with
  | boot mem =>
    refine ⟨⟨[], Malloc.boot_inv mem⟩, [], .refl _, pmm, sound, ?_, ?_⟩
    · simp
    · exact List.Pairwise.nil
  | step before step ih => exact ih.step step

/-! ## Areas -/

/-- The areas of memory in use: the headers of the heap, what its callers hold and the blocks of
the others. -/
def World.areas (w : World) (pages : List Page) : List MemBlock :=
  (blocksOf pages).map (fun b => ⟨b.start, headerSize⟩) ++ w.heap.live.map memBlock ++
    w.others.map memBlock

/-- The blocks that the memory manager has handed out: the pages of the heap and the others. -/
def World.blocks (w : World) (pages : List Page) : List MemBlock :=
  (pages.map fun page => ⟨page.1, defaultMemreserveSize⟩) ++ w.others.map memBlock

/-- The managers serve the pages of the heap and the others. -/
theorem Inv.serves_blocks {pages : List Page} (inv : Inv layout w) (heap : HeapInv w.heap pages) :
    Mem.Inv layout ⟨w.system, w.blocks pages⟩ := by
  obtain ⟨out, books, serves⟩ := inv.booked
  have same : out.Perm (pages.map fun page => (page.1, defaultMemreserveSize)) :=
    (List.perm_append_right_iff _).mp (books.symm.trans heap.ledger)
  have served := serves.perm (same.append_right w.others)
  unfold Serves at served
  rw [List.map_append, List.map_map] at served
  exact served

/-- Two members of a list of blocks that are apart are apart. -/
theorem apart_of_ne {bs : List Block} {b c : Block}
    (spread : bs.Pairwise fun a b => a.stop ≤ b.start ∨ b.stop ≤ a.start) (inB : b ∈ bs)
    (inC : c ∈ bs) (different : b ≠ c) : b.stop ≤ c.start ∨ c.stop ≤ b.start := by
  obtain ⟨xs, ys, split⟩ := List.append_of_mem inC
  rw [split] at spread inB
  rcases Malloc.mem_middle.mp inB with same | around
  · exact absurd same different
  · exact Malloc.apart_of_spread spread around

/-- The addresses of a header. -/
theorem has_header {b : Block} {v : Nat} :
    (⟨b.start, headerSize⟩ : MemBlock).Has v ↔ b.start ≤ v ∧ v < b.start + headerSize := Iff.rfl

/-- The addresses of what a caller holds. -/
theorem has_memBlock {v : Nat} :
    (memBlock block).Has v ↔ block.1 ≤ v ∧ v < block.1 + block.2 := Iff.rfl

/-- The addresses of a page of the heap. -/
theorem has_page {base v : Nat} : (⟨base, defaultMemreserveSize⟩ : MemBlock).Has v ↔
    base ≤ v ∧ v < base + defaultMemreserveSize := Iff.rfl

/-- What a caller holds lies behind the header of a block of the heap. -/
theorem live_inside {w : Malloc.World} {pages : List Page} (heap : HeapInv w pages)
    (held : block ∈ w.live) : ∃ b ∈ blocksOf pages, block.1 = b.start + headerSize ∧
      block.1 + block.2 ≤ b.stop := by
  obtain ⟨b, member, -, pointer, large⟩ := heap.enough block held
  unfold Malloc.payload at pointer
  refine ⟨b, member, pointer, ?_⟩
  unfold Block.stop
  omega

/-- No two areas of the heap share a byte. -/
theorem heap_areas_apart {w : Malloc.World} {pages : List Page} (heap : HeapInv w pages) :
    ((blocksOf pages).map (fun b => (⟨b.start, headerSize⟩ : MemBlock)) ++
      w.live.map memBlock).Pairwise fun a b => ∀ v, a.Has v → ¬ b.Has v := by
  have spread := Malloc.spread heap.grids heap.distinct
  have header : ∀ b ∈ blocksOf pages, headerSize ≤ b.size := by
    intro b member
    obtain ⟨page, inPages, inPage⟩ := Malloc.mem_blocksOf.mp member
    exact ((heap.grids page inPages).block inPage).header
  rw [List.pairwise_append]
  refine ⟨?_, ?_, ?_⟩
  · rw [List.pairwise_map]
    refine spread.imp_of_mem ?_
    intro a b inA inB apart v hasA hasB
    have headerA := header a inA
    have headerB := header b inB
    rw [has_header] at hasA hasB
    unfold Block.stop at apart
    omega
  · rw [List.pairwise_map]
    refine (List.pairwise_map.mp heap.nodup_live).imp_of_mem ?_
    intro p q inP inQ different v hasP hasQ
    obtain ⟨b, inB, pointerB, stopB⟩ := live_inside heap inP
    obtain ⟨c, inC, pointerC, stopC⟩ := live_inside heap inQ
    have other : b ≠ c := by
      rintro rfl
      exact different (pointerB.trans pointerC.symm)
    have apart := apart_of_ne spread inB inC other
    rw [has_memBlock] at hasP hasQ
    omega
  · intro a inA l inL v hasA hasL
    obtain ⟨b, inB, rfl⟩ := List.mem_map.mp inA
    obtain ⟨q, inQ, rfl⟩ := List.mem_map.mp inL
    obtain ⟨c, inC, pointer, stop⟩ := live_inside heap inQ
    have headerB := header b inB
    rw [has_header] at hasA
    rw [has_memBlock] at hasL
    by_cases same : b = c
    · subst same
      omega
    · have apart := apart_of_ne spread inB inC same
      unfold Block.stop at *
      omega

/-- An area of the heap lies in one of its pages. -/
theorem own_inside {w : Malloc.World} {pages : List Page} (heap : HeapInv w pages) {a : MemBlock}
    (member : a ∈ (blocksOf pages).map (fun b => (⟨b.start, headerSize⟩ : MemBlock)) ++
      w.live.map memBlock) :
    ∃ page ∈ pages, ∀ v, a.Has v → (⟨page.1, defaultMemreserveSize⟩ : MemBlock).Has v := by
  have inPage : ∀ b ∈ blocksOf pages, ∃ page ∈ pages, page.1 ≤ b.start ∧
      b.stop ≤ page.1 + defaultMemreserveSize ∧ headerSize ≤ b.size := by
    intro b inside
    obtain ⟨page, inPages, inPage⟩ := Malloc.mem_blocksOf.mp inside
    have placed := (heap.grids page inPages).block inPage
    exact ⟨page, inPages, placed.start, placed.stop, placed.header⟩
  rcases List.mem_append.mp member with header | live
  · obtain ⟨b, inside, rfl⟩ := List.mem_map.mp header
    obtain ⟨page, inPages, start, stop, large⟩ := inPage b inside
    refine ⟨page, inPages, fun v has => ?_⟩
    rw [has_header] at has
    rw [has_page]
    unfold Block.stop at stop
    omega
  · obtain ⟨block, inside, rfl⟩ := List.mem_map.mp live
    obtain ⟨b, inB, pointer, last⟩ := live_inside heap inside
    obtain ⟨page, inPages, start, stop, large⟩ := inPage b inB
    refine ⟨page, inPages, fun v has => ?_⟩
    rw [has_memBlock] at has
    rw [has_page]
    omega

/-- An area lies in a block that the memory manager has handed out. -/
theorem area_inside {pages : List Page} (heap : HeapInv w.heap pages) {a : MemBlock}
    (member : a ∈ w.areas pages) : ∃ b ∈ w.blocks pages, ∀ v, a.Has v → b.Has v := by
  rcases List.mem_append.mp member with own | other
  · obtain ⟨page, inPages, contains⟩ := own_inside heap own
    exact ⟨_, List.mem_append_left _ (List.mem_map_of_mem inPages), contains⟩
  · exact ⟨a, List.mem_append_right _ other, fun _ => id⟩

/-- Different bytes of blocks that are out are at different places of the physical memory. -/
theorem translate_injective {live : List MemBlock} (inv : Mem.Inv layout ⟨s, live⟩)
    {a b : MemBlock} (inA : a ∈ live) (inB : b ∈ live) {v u p : Nat} (hasV : a.Has v)
    (hasU : b.Has u) (mapsV : s.vmm.space.tables.translate layout v = some p)
    (mapsU : s.vmm.space.tables.translate layout u = some p) : v = u := by
  have backedA := inv.backed a inA
  have backedB := inv.backed b inB
  obtain ⟨i, smallA, pageV, q, showsA, toA⟩ := backedA.translate_eq inv.sound hasV
  obtain ⟨j, smallB, pageU, r, showsB, toB⟩ := backedB.translate_eq inv.sound hasU
  rw [mapsV] at toA
  rw [mapsU] at toB
  have placeV := Option.some.inj toA
  have placeU := Option.some.inj toB
  have offsetV := Paging.pageOffset_lt v
  have offsetU := Paging.pageOffset_lt u
  have page : q = r := by
    unfold pageSize at *
    omega
  subst page
  have offset : Paging.pageOffset v = Paging.pageOffset u := by omega
  have same : a = b := by
    by_contra different
    have symmetric : Std.Symm (Mem.Separate s.vmm.space.tables) :=
      ⟨fun _ _ separate i small j below equal => separate j below i small equal.symm⟩
    have separate := inv.separate.forall inA inB different
    exact separate i smallA j smallB (showsA.trans showsB.symm)
  subst same
  obtain ⟨first, size, -, -, shows⟩ := backedA.header
  have place : first + i = first + j := by
    have shownI := shows i smallA
    have shownJ := shows j smallB
    simp only at showsA showsB
    rw [showsA] at shownI
    rw [showsB] at shownJ
    exact (Option.some.inj shownI).symm.trans (Option.some.inj shownJ)
  have equal : v / pageSize = u / pageSize := by
    rw [pageV, pageU]
    unfold MemBlock.page
    omega
  unfold Paging.pageOffset at offset
  rw [← Nat.div_add_mod v pageSize, ← Nat.div_add_mod u pageSize, equal, offset]

/-! ## The whole memory stack -/

/-- After every run of `malloc` and `free` over the real memory manager, shared with other parts of
the kernel, the list of headers is intact; no two areas in use share an address; every byte of them
is mapped to memory that the physical memory manager has handed out; and no two bytes of them are
at one place of the physical memory. -/
theorem memory_stack_safe {start : System} (pmm : RepInv start.pmm)
    (sound : Sound layout start.vmm.space) (reachable : Reachable layout start w) :
    ∃ pages : List Page,
      Chain w.heap.heap.next w.heap.heap.prev none ((blocksOf pages).map Block.start) none ∧
      ((w.areas pages).Pairwise fun a b => ∀ v, a.Has v → ¬ b.Has v) ∧
      (∀ a ∈ w.areas pages, ∀ v, a.Has v → ∃ p,
        w.system.vmm.space.tables.translate layout v = some p ∧
        ∃ i ∈ w.system.pmm.chain, (w.system.pmm.hdr i).inUse = true ∧
          (w.system.pmm.hdr i).memory ≤ p ∧
          p < (w.system.pmm.hdr i).memory + (w.system.pmm.hdr i).size) ∧
      ∀ a ∈ w.areas pages, ∀ b ∈ w.areas pages, ∀ v u p, a.Has v → b.Has u →
        w.system.vmm.space.tables.translate layout v = some p →
        w.system.vmm.space.tables.translate layout u = some p → v = u := by
  have inv := reachable_inv pmm sound reachable
  obtain ⟨pages, heap⟩ := inv.heap
  have served := inv.serves_blocks heap
  have contract := served.contract
  refine ⟨pages, heap.listed.links, ?_, ?_, ?_⟩
  · unfold World.areas
    rw [List.pairwise_append]
    have blocks := contract.apart
    simp only [World.blocks] at blocks
    rw [List.pairwise_append] at blocks
    refine ⟨heap_areas_apart heap, blocks.2.1, ?_⟩
    intro a own b other v hasA hasB
    obtain ⟨page, inPages, contains⟩ := own_inside heap own
    exact blocks.2.2 _ (List.mem_map_of_mem inPages) b other v (contains v hasA) hasB
  · intro a inA v has
    obtain ⟨b, inB, contains⟩ := area_inside heap inA
    obtain ⟨-, p, maps⟩ := contract.mapped b inB v (contains v has)
    obtain ⟨i, inChain, used, low, high⟩ := contract.held b inB v p (contains v has) maps
    refine ⟨p, maps, i, inChain, used, ?_⟩
    simp only at low high
    unfold pageFloor pageSize at low high
    omega
  · intro a inA b inB v u p hasV hasU mapsV mapsU
    obtain ⟨c, inC, containsA⟩ := area_inside heap inA
    obtain ⟨d, inD, containsB⟩ := area_inside heap inB
    exact translate_injective served inC inD (containsA v hasV) (containsB u hasU) mapsV mapsU

/-- The first `malloc` after booting, over a page that `get_mem` hands out. -/
theorem mallocOver_first (gets : (memManager layout next).getMem s 0x1000 = .ok (some 4096, s')) :
    ∃ h, (Malloc.boot Malloc.zeroed).heap.mallocOver (memManager layout next) s 1 100 =
      .ok (4112, h, s') := by
  have bytes : Malloc.roundToMultipleOf (wrap (100 + headerSize)) defaultMemreserveSize = 0x1000 := by
    decide
  unfold Malloc.Heap.mallocOver Malloc.Heap.ensureFirstOver Malloc.Heap.allocateMoreMemOver
  simp only [Malloc.boot, bytes, gets, ok_bind]
  exact ⟨_, rfl⟩

/-- After booting with four free pages, `get_mem` hands out the first page of the address space
that is not null. -/
theorem boot_getMem : ∃ vmm s, Paging.I386.setupPaging Paging.I386.exampleLayout = .ok vmm ∧
    RepInv (PhysMem.Pmm.ofBlocks [⟨0x100000, 0x4000, false⟩]) ∧
    (memManager Paging.I386.exampleLayout fun _ => none).getMem
      ⟨PhysMem.Pmm.ofBlocks [⟨0x100000, 0x4000, false⟩], vmm⟩ 0x1000 = .ok (some 4096, s) := by
  have inv : RepInv (PhysMem.Pmm.ofBlocks [⟨0x100000, 0x4000, false⟩]) :=
    PhysMem.repInv_ofBlocks (by decide) (by decide)
  have step : (PhysMem.Pmm.ofBlocks [⟨0x100000, 0x4000, false⟩]).getMemAreaAny
      (fun _ => .failed) 0x1000 =
      .ok (.success, some 0x100000,
        PhysMem.stateAfter (PhysMem.Pmm.ofBlocks [⟨0x100000, 0x4000, false⟩])
          (.getAny (fun _ => .failed) 0x1000)) := by decide +kernel
  obtain ⟨vmm, setup, -⟩ := Paging.I386.setupPaging_returns Paging.I386.exampleLayout
  obtain ⟨w₁, returns, live⟩ := Mem.exec_spare setup inv.1.rep (by decide) step
  simp only [Mem.World.exec] at returns
  obtain ⟨⟨result, virt, s⟩, gets, last⟩ := of_bind_ok returns
  cases last
  by_cases success : result = .success
  · rw [if_pos success] at live
    simp only [List.cons.injEq, Mem.MemBlock.mk.injEq] at live
    refine ⟨vmm, s, setup, inv, ?_⟩
    simp only [memManager, gets, ok_bind, success, if_true, live.1.1]
    rfl
  · rw [if_neg success] at live
    cases live

/-- After booting with four free pages and one `malloc`, the allocation is mapped. -/
theorem memory_stack_safe_first : ∃ vmm w,
    Reachable Paging.I386.exampleLayout ⟨PhysMem.Pmm.ofBlocks [⟨0x100000, 0x4000, false⟩], vmm⟩ w ∧
    w.heap.live = [(4112, 100)] ∧
    ∃ p, w.system.vmm.space.tables.translate Paging.I386.exampleLayout 4112 = some p := by
  obtain ⟨vmm, s, setup, inv, gets⟩ := boot_getMem
  obtain ⟨h, returns⟩ := mallocOver_first gets
  have reached := Reachable.step (.boot Malloc.zeroed)
    (.malloc (fun _ _ => rfl) (by decide) returns)
  obtain ⟨pages, -, -, mapped, -⟩ := memory_stack_safe inv
    (Paging.I386.setupPaging_sound setup) reached
  have member : memBlock (4112, 100) ∈ World.areas
      ⟨⟨h, [(4112, 100)]⟩, s, []⟩ pages := by
    unfold World.areas
    simp
  obtain ⟨p, maps, -⟩ := mapped _ member 4112 ⟨Nat.le_refl _, by decide⟩
  exact ⟨vmm, _, reached, rfl, p, maps⟩

/-! ## Calls that return -/

/-- The managers take back any block that is out. -/
theorem Serves.takes (serves : Serves layout s out) (held : block ∈ out) :
    ∃ s', (memManager layout next).freeMem s block.1 block.2 = .ok (true, s') := by
  have backed := serves.backed (memBlock block) (List.mem_map_of_mem held)
  obtain ⟨l, rep⟩ := serves.pmm.1
  obtain ⟨s', -, -, returns, -⟩ := Mem.freeMem_backed rep serves.sound backed
  refine ⟨s', ?_⟩
  simp only [memBlock] at returns
  simp only [memManager, returns, ok_bind]
  rfl

/-- `free` of a pointer that is held returns. -/
theorem Inv.free_returns (inv : Inv layout w) (next : System → Option Nat)
    (held : block ∈ w.heap.live) :
    ∃ fuel h s, w.heap.heap.freeOver (memManager layout next) w.system fuel block.1 =
      .ok (h, s) := by
  obtain ⟨pages, heap⟩ := inv.heap
  obtain ⟨out, books, serves⟩ := inv.booked
  obtain ⟨h₁, hdr, obtained, returned, prefixed⟩ :=
    heap.free_prefix held (Nat.lt_succ_self (blocksOf pages).length)
  obtain ⟨h₂, accepted⟩ := Malloc.exists_returnPages h₁ hdr
  have frees : w.heap.heap.free Malloc.accepting ((blocksOf pages).length + 1) block.1 = .ok h₂ :=
    (prefixed _).trans accepted
  obtain ⟨pages', heap'⟩ := Malloc.free_inv heap held frees
  have sameObtained : h₂.obtained = w.heap.heap.obtained := (Malloc.Heap.free_takes frees).1
  have takes : ∀ given, h₂.returned = given :: w.heap.heap.returned →
      ∃ s', (memManager layout next).freeMem w.system given.1 given.2 = .ok (true, s') := by
    intro given gained
    have member := given_mem books heap' sameObtained gained
    exact serves.takes (List.mem_append_left _ member)
  have told : w.heap.heap.free ((memManager layout next).told w.system)
      ((blocksOf pages).length + 1) block.1 = .ok h₂ := by
    rw [prefixed]
    apply Malloc.returnPages_accepted accepted
    intro given gained g
    rw [returned] at gained
    obtain ⟨s', frees⟩ := takes given gained
    simp only [MemManager.told, frees]
  refine ⟨(blocksOf pages).length + 1, h₂, ?_⟩
  unfold Malloc.Heap.freeOver
  rw [told, ok_bind]
  rcases (Malloc.Heap.free_takes told).2 with none | ⟨-, given, -, one⟩
  · rw [none]
    cases earlier : w.heap.heap.returned with
    | nil => exact ⟨w.system, rfl⟩
    | cons first rest =>
      simp only [List.length_cons, Nat.lt_succ_self, if_true]
      exact ⟨w.system, rfl⟩
  · obtain ⟨s', frees⟩ := takes given one
    rw [one]
    simp only [Nat.lt_irrefl, if_false, frees, ok_bind]
    exact ⟨s', rfl⟩

/-- `malloc` of at most a page returns when the managers have a page. -/
theorem Inv.malloc_returns {size : Nat} (inv : Inv layout w) (tidy : Tidy next)
    (fits : size ≤ largestRequest)
    (supply : (memManager layout next).getMem w.system defaultMemreserveSize =
      .ok (some addr, s)) :
    ∃ fuel ptr h s, w.heap.heap.mallocOver (memManager layout next) w.system fuel size =
      .ok (ptr, h, s) := by
  obtain ⟨pages, heap⟩ := inv.heap
  have serves : Supplies (memManager layout next) (Booked layout w.others) FreshBlock
      defaultMemreserveSize := supplies tidy w.others (by decide) (by decide)
  have fresh := serves.fresh inv.booked supply
  have got : (replies FreshBlock fun _ => some addr).getMem w.heap.heap defaultMemreserveSize =
      some addr := Malloc.replies_getMem rfl fresh
  rcases Malloc.malloc_spec heap (replies_fresh fun _ => some addr) fits
      (Nat.lt_succ_self ((blocksOf pages).length + 1)) with
    ⟨b, h', pages', returns, -, once⟩ | ⟨refused, -⟩
  · rw [← Malloc.Heap.reserved_eq fits] at got supply
    obtain ⟨t, served⟩ := Malloc.mallocOver_once supply got returns once
    exact ⟨_, _, _, t, served⟩
  · rw [got] at refused
    cases refused

/-- After every run, every `free` of a pointer that is held returns, and so does every `malloc` of
at most a page, header included, for which the memory manager has a page and header chunks grow by
pages that read null. -/
theorem memory_stack_returns {start : System} (pmm : RepInv start.pmm)
    (sound : Sound layout start.vmm.space) (reachable : Reachable layout start w) :
    (∀ next, ∀ block ∈ w.heap.live, ∃ fuel h s,
      w.heap.heap.freeOver (memManager layout next) w.system fuel block.1 = .ok (h, s)) ∧
    ∀ next size addr s, Tidy next → size ≤ defaultMemreserveSize - headerSize →
      (memManager layout next).getMem w.system defaultMemreserveSize = .ok (some addr, s) →
      ∃ fuel ptr h s, w.heap.heap.mallocOver (memManager layout next) w.system fuel size =
        .ok (ptr, h, s) := by
  have inv := reachable_inv pmm sound reachable
  exact ⟨fun next block held => inv.free_returns next held,
    fun next size addr s tidy fits supply => inv.malloc_returns tidy fits supply⟩

/-- The `free` behind the first `malloc` returns. -/
theorem memory_stack_returns_first : ∃ vmm w,
    Reachable Paging.I386.exampleLayout ⟨PhysMem.Pmm.ofBlocks [⟨0x100000, 0x4000, false⟩], vmm⟩ w ∧
    w.heap.live = [(4112, 100)] ∧ ∃ fuel h s, w.heap.heap.freeOver
      (memManager Paging.I386.exampleLayout fun _ => none) w.system fuel 4112 = .ok (h, s) := by
  obtain ⟨vmm, s, setup, inv, gets⟩ := boot_getMem
  obtain ⟨h, returns⟩ := mallocOver_first gets
  have reached := Reachable.step (.boot Malloc.zeroed)
    (.malloc (fun _ _ => rfl) (by decide) returns)
  obtain ⟨frees, -⟩ := memory_stack_returns inv (Paging.I386.setupPaging_sound setup) reached
  exact ⟨vmm, _, reached, rfl, frees _ (4112, 100) List.mem_cons_self⟩

end FelineOS.KernelHeap
