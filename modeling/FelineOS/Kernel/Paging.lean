import FelineOS.Kernel.PhysMem

/-!
# The virtual memory manager

The part of `arch/*/virt_mem/paging.cpp` that both architectures have word for word: the search
for free virtual memory, the mapping of a range with its rollback, and `map_range` with a
physical address. What differs is the tables the processor walks; they are a parameter here
(`Mmu`), given by the modules of the two architectures.

A `page` holds a virtual or physical address; `++` and `--` stop at the ends of the address
space, and two pages or a page and a pointer are compared as addresses. The spinlock
`modifying_page_tables` is kept as the number of times it was acquired and released: an acquire
never blocks here, so the runs of the model contain those of the code.
-/

namespace FelineOS.Paging

open PhysMem (PmmResult)

/-- `enum map_results`. -/
inductive MapResults where
  | success
  | alreadyMapped
  | notMapped
  | noVirtmem
  | invalidOption
  | noPhysmem
  | noPerm
  | errKernelSpace
  | invalidAlign
  deriving DecidableEq, Repr

/-- The bits of `opts`. -/
structure MapOpts where
  /-- `PHYS_ADDR_AUTO`. -/
  physAddrAuto : Bool
  /-- `MAP_OVERWRITE`. -/
  overwrite : Bool
  /-- `MAP_DEVICE`. -/
  device : Bool
  deriving DecidableEq, Repr

/-- `opts == 0`. -/
def MapOpts.none : MapOpts := ⟨false, false, false⟩

/-- `MAX_VIRT_MEM`, a 64-bit constant. -/
def maxVirtMem : Nat := 0x100000000

/-- The entries of `page_tables_searchable`. -/
def pageCount : Nat := maxVirtMem / pageSize

/-- `page_offset`. -/
def pageOffset (addr : Nat) : Nat := addr % pageSize

/-- `page::operator++`. -/
def pageIncr (addr : Nat) : Nat :=
  if addr ≤ uintptrMax - pageSize then addr + pageSize else uintptrMax

/-- `page::operator--`. -/
def pageDecr (addr : Nat) : Nat := if pageSize ≤ addr then addr - pageSize else 0

/-- `bytes_to_pages`. -/
def bytesToPages (bytes : Nat) : Nat :=
  if uintptrMax - bytes < pageSize - 1 then uintptrMax / pageSize
  else (bytes + (pageSize - 1)) / pageSize

/-- `last_page_needed` of `free_from_here`. The sum is cut to a word, so a range that ends with
the address space has its last page at zero. -/
def lastPageNeeded (base needed : Nat) : Nat :=
  if pageOffset needed ≠ 0 then pageIncr (pageFloor (wrap (base + needed)))
  else pageFloor (wrap (base + needed))

/-- The tables of the processor, as far as `map_page`, `unmap_page` and `virt_to_phys` go. -/
structure Mmu (τ : Type) where
  /-- The table writes of `map_page(phys_addr, virt_addr, opts)`. -/
  setEntry : τ → Nat → Nat → MapOpts → Except Fault τ
  /-- The table writes of `unmap_page(virt_addr)`. -/
  clearEntry : τ → Nat → Except Fault τ
  /-- `virt_to_phys`. -/
  virtToPhys : τ → Nat → Except Fault Nat

/-- The two copies of the mapping state. -/
structure Space (τ : Type) where
  /-- `page_tables_searchable`. -/
  searchable : Nat → Bool
  /-- The tables of the processor. -/
  tables : τ

/-- The virtual memory manager. -/
structure Vmm (τ : Type) where
  /-- The mapping state. -/
  space : Space τ
  /-- How often `modifying_page_tables` was acquired. -/
  acquired : Nat
  /-- How often `modifying_page_tables` was released. -/
  released : Nat

/-- The physical memory manager as `map_range` and `unmap_range` see it. -/
structure PmmCalls (τ : Type) where
  /-- `get_mem_area(&addr, len)`, which may map pages for its own headers. -/
  getMemArea : Space τ → Nat → Except Fault (PmmResult × Nat × Space τ)
  /-- `get_mem_area(addr, len)`, which may map pages for its own headers. -/
  getMemAreaAt : Space τ → Nat → Nat → Except Fault (PmmResult × Space τ)
  /-- `free_mem_area(addr, len)`, which maps nothing. -/
  freeMemArea : Space τ → Nat → Nat → Except Fault PmmResult

variable {τ : Type}

namespace Space

variable (s : Space τ)

/-- `isMapped`. -/
def isMapped (virt : Nat) : Bool := s.searchable (virt / pageSize)

/-- One entry of `page_tables_searchable` written. -/
def mark (index : Nat) (flag : Bool) : Space τ :=
  { s with searchable := Function.update s.searchable index flag }

/-- The loop of `free_from_here`: the first page in use from `base` to `last`. -/
def firstMapped (last : Nat) : Nat → Nat → Except Fault (Option Nat)
  | 0, _ => .error .divergence
  | fuel + 1, base =>
    if base ≤ last then
      if s.isMapped base then .ok (some base) else firstMapped last fuel (pageIncr base)
    else .ok none

/-- `free_from_here`: whether the pages are free, and the new `virt_addr_base`. The loop passes
every page at most once before it stands at the last word. -/
def freeFromHere (base needed : Nat) : Except Fault (Bool × Nat) :=
  if base > maxVirtMem - needed then .ok (false, 0)
  else do
    match ← s.firstMapped (lastPageNeeded base needed) (pageCount + 2) base with
    | some blocked => .ok (false, pageFloor blocked)
    | none => .ok (true, base)

/-- The loop of `find_free_virtmem`. -/
def findFrom (len : Nat) : Nat → Nat → Except Fault (Option Nat)
  | 0, _ => .error .divergence
  | fuel + 1, base =>
    if base < maxVirtMem - pageSize ∧ base ≠ 0 then do
      let (free, base) ← s.freeFromHere base len
      if free then .ok (some base)
      else if base = 0 then .ok none
      else findFrom len fuel (pageIncr base)
    else .ok none

/-- `find_free_virtmem`; `nullptr` is `none`. Every round starts behind the last one. -/
def findFreeVirtmem (len : Nat) : Except Fault (Option Nat) := s.findFrom len pageCount pageSize

variable (mmu : Mmu τ)

/-- `map_page`. -/
def mapPage (phys virt : Nat) (opts : MapOpts) : Except Fault (MapResults × Space τ) :=
  if !opts.overwrite && s.isMapped virt then .ok (.alreadyMapped, s)
  else do
    let tables ← mmu.setEntry s.tables phys virt opts
    .ok (.success, { s with tables := tables }.mark (virt / pageSize) true)

/-- `unmap_page`. -/
def unmapPage (virt : Nat) : Except Fault (MapResults × Space τ) :=
  if s.isMapped virt then do
    let tables ← mmu.clearEntry s.tables virt
    .ok (.success, { s with tables := tables }.mark (virt / pageSize) false)
  else .ok (.notMapped, s)

/-- The rollback of `internal_map_range`, down to the pointer `bound`. -/
def rollback (bound : Nat) : Nat → Space τ → Nat → Except Fault (Space τ)
  | 0, _, _ => .error .divergence
  | fuel + 1, s, virt =>
    if virt > bound then do
      match ← s.unmapPage mmu (pageDecr virt) with
      | (.success, s) => rollback bound fuel s (pageDecr virt)
      | _ => .error .abort
    else .ok s

/-- The loop of `internal_map_range` over the pages. -/
def mapPages (bound : Nat) (opts : MapOpts) :
    Nat → Space τ → Nat → Nat → Except Fault (MapResults × Space τ)
  | 0, s, _, _ => .ok (.success, s)
  | count + 1, s, virt, phys => do
    let (attempt, s) ← s.mapPage mmu phys virt opts
    if attempt = .success then mapPages bound opts count s (pageIncr virt) (pageIncr phys)
    else
      let s ← rollback mmu bound (pageCount + 2) s virt
      .ok (attempt, s)

/-- `internal_map_range`. -/
def internalMapRange (phys len virt : Nat) (opts : MapOpts) :
    Except Fault (MapResults × Space τ) := do
  if pageOffset phys ≠ pageOffset virt then .ok (.invalidAlign, s)
  else
    let free ← if opts.overwrite then .ok true
      else do
        let (free, _) ← s.freeFromHere (pageFloor virt) len
        .ok free
    if free then mapPages mmu virt opts (bytesToPages len) s (pageFloor virt) (pageFloor phys)
    else .ok (.alreadyMapped, s)

/-- The first loop of `unmap_range`. -/
def allMapped : Nat → Nat → Bool
  | 0, _ => true
  | count + 1, virt => s.isMapped virt && allMapped count (pageIncr virt)

end Space

namespace Vmm

variable (s : Vmm τ) (mmu : Mmu τ)

/-- `modifying_page_tables.acquire_lock()`. -/
def acquireLock : Vmm τ := { s with acquired := s.acquired + 1 }

/-- `modifying_page_tables.release_lock()`. -/
def releaseLock : Vmm τ := { s with released := s.released + 1 }

/-- `map_range` with a physical address: the result and `*virt_addr`. Both architectures return
`map_no_virtmem` without releasing the lock. -/
def mapRange (phys len : Nat) (opts : MapOpts) : Except Fault (MapResults × Nat × Vmm τ) := do
  let s := s.acquireLock
  let len := wrap (len + pageOffset phys)
  match ← s.space.findFreeVirtmem len with
  | none => .ok (.noVirtmem, 0, s)
  | some virt =>
    let virt := virt + pageOffset phys
    let (result, space) ← s.space.internalMapRange mmu phys len virt opts
    .ok (result, virt, { s with space := space }.releaseLock)

end Vmm

/-- What the physical memory manager may do to the mapping state during a call: it maps its own
headers with `map_range`, any number of times. -/
inductive Space.Grows (mmu : Mmu τ) (s₀ : Space τ) : Space τ → Prop where
  | refl : Grows mmu s₀ s₀
  | map {s s' : Vmm τ} {phys len virt : Nat} {result : MapResults}
      (before : Grows mmu s₀ s.space) (physWord : phys < wordLimit) (lenWord : len < wordLimit)
      (returns : s.mapRange mmu phys len MapOpts.none = .ok (result, virt, s')) :
      Grows mmu s₀ s'.space

end FelineOS.Paging
