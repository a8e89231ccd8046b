import FelineOS.Kernel.Paging

/-!
# Paging on i386

`arch/i386/virt_mem/paging.cpp`: one page directory and a static page table behind each of its
entries. Once paging is on, the code reaches both through the recursive window: the last entry
of the directory is the directory, so the window at `0xFFC00000` shows every page table and its
last page the directory. The page table of the window itself is the directory; a write there
would redirect the window, which is a fault of the model.

Where the linker put the tables and the kernel is a parameter (`Layout`).
-/

namespace FelineOS.Paging.I386

open PhysMem (PmmResult)

/-- `PRESENT`. -/
def presentBit : UInt32 := 0b1

/-- `WRITEABLE`. -/
def writeableBit : UInt32 := 0b10

/-- `USER`. -/
def userBit : UInt32 := 0b100

/-- `WRITE_THROUGH`. -/
def writeThroughBit : UInt32 := 0b1000

/-- `CACHE_DISABLE`. -/
def cacheDisableBit : UInt32 := 0b10000

/-- `READ`. -/
def readBit : UInt32 := 0b100000

/-- `WRITTEN`. -/
def writtenBit : UInt32 := 0b1000000

/-- `MB_PAGE`, which is `PAT` in a page table. -/
def mbPageBit : UInt32 := 0b10000000

/-- `GLOBAL`. -/
def globalBit : UInt32 := 0b100000000

/-- `set_bit`. -/
def setBit (bit entry : UInt32) : UInt32 := entry ||| bit

/-- `unset_bit`. -/
def unsetBit (bit entry : UInt32) : UInt32 := entry &&& ~~~bit

/-- `present`. -/
def present (entry : UInt32) : Bool := entry &&& presentBit != 0

/-- `addr`. -/
def addr (entry : UInt32) : UInt32 := entry &&& ~~~0xfff

/-- `set_addr`. -/
def setAddr (address entry : UInt32) : UInt32 := (entry &&& 0xfff) ||| (address &&& ~~~0xfff)

/-- The bits that are cleared and set in a page table entry, and in the last entry of the page
directory. -/
def configure (entry : UInt32) : UInt32 :=
  entry |> unsetBit globalBit |> unsetBit mbPageBit |> unsetBit writtenBit |> unsetBit readBit
    |> unsetBit cacheDisableBit |> unsetBit writeThroughBit |> unsetBit userBit
    |> setBit writeableBit |> setBit presentBit

/-- The bits that `setup_paging` clears and sets in a page directory entry. -/
def configureDirectory (entry : UInt32) : UInt32 :=
  entry |> unsetBit mbPageBit |> unsetBit writtenBit |> unsetBit readBit
    |> unsetBit cacheDisableBit |> unsetBit writeThroughBit |> unsetBit userBit
    |> setBit writeableBit |> setBit presentBit

/-- `pde_offset`. -/
def pdeOffset (virt : Nat) : Nat := virt / 0x400000

/-- `pte_offset`. -/
def pteOffset (virt : Nat) : Nat := virt / pageSize % 1024

/-- The first page of the recursive window. -/
def windowPage : Nat := 0xFFC00

/-- The places that the linker and the loader decide. -/
structure Layout where
  /-- The physical address of `all_page_tables`. -/
  tables : Nat
  /-- The physical address of `bootstrap_page_directory`. -/
  directory : Nat
  /-- `VA_OFFSET`. -/
  vaOffset : Nat
  /-- The address of `kernel_start`. -/
  kernelStart : Nat
  /-- The address of `kernel_end`. -/
  kernelEnd : Nat
  /-- The page tables are aligned. -/
  tables_aligned : pageSize ∣ tables
  /-- The page tables are in memory. -/
  tables_bounded : tables + 1024 * pageSize ≤ wordLimit
  /-- The page directory is aligned. -/
  directory_aligned : pageSize ∣ directory
  /-- The page directory is in memory. -/
  directory_bounded : directory + pageSize ≤ wordLimit
  /-- The page directory is none of the page tables. -/
  directory_apart : directory + pageSize ≤ tables ∨ tables + 1024 * pageSize ≤ directory
  /-- The kernel is linked in order. -/
  kernel_ordered : kernelStart ≤ kernelEnd
  /-- The kernel is linked below the window. -/
  kernel_below : kernelEnd < windowPage * pageSize

/-- What the processor walks. -/
structure Tables where
  /-- The page directory. -/
  directory : Nat → UInt32
  /-- `all_page_tables`. -/
  pageTables : Nat → Nat → UInt32

namespace Tables

/-- One page table entry changed. -/
def modifyEntry (t : Tables) (row index : Nat) (change : UInt32 → UInt32) : Tables :=
  let changed := Function.update (t.pageTables row) index (change (t.pageTables row index))
  { t with pageTables := Function.update t.pageTables row changed }

/-- One page directory entry changed. -/
def modifyDirectory (t : Tables) (index : Nat) (change : UInt32 → UInt32) : Tables :=
  { t with directory := Function.update t.directory index (change (t.directory index)) }

variable (layout : Layout) (t : Tables)

/-- The page table at a physical address. -/
def rowAt (address : Nat) : Option Nat :=
  if layout.tables ≤ address ∧ address < layout.tables + 1024 * pageSize then
    some ((address - layout.tables) / pageSize)
  else none

/-- The page table that the window shows for a virtual address. A directory entry that names
other memory is a fault. -/
def windowRow (virt : Nat) : Except Fault Nat :=
  if present (t.directory (pdeOffset virt)) then
    match rowAt layout (addr (t.directory (pdeOffset virt))).toNat with
    | some row => .ok row
    | none => .error .undefined
  else .error .undefined

/-- The table writes of `map_page`, the creation of a page table included. -/
def setEntry (phys virt : Nat) : Except Fault Tables :=
  if pdeOffset virt = 1023 then .error .overwritten
  else do
    let t := if present (t.directory (pdeOffset virt)) then t
      else t.modifyDirectory (pdeOffset virt) fun entry =>
        configure (setAddr (UInt32.ofNat (layout.tables + pdeOffset virt * pageSize)) entry)
    let row ← t.windowRow layout virt
    .ok (t.modifyEntry row (pteOffset virt) fun entry =>
      configure (setAddr (UInt32.ofNat phys) entry))

/-- The table write of `unmap_page`. -/
def clearEntry (virt : Nat) : Except Fault Tables :=
  if pdeOffset virt = 1023 then .error .overwritten
  else do
    let row ← t.windowRow layout virt
    .ok (t.modifyEntry row (pteOffset virt) (unsetBit presentBit))

/-- `virt_to_phys`, which does not look at the present bit. -/
def virtToPhys (virt : Nat) : Except Fault Nat :=
  if pdeOffset virt = 1023 then .ok (addr (t.directory (pteOffset virt))).toNat
  else do
    let row ← t.windowRow layout virt
    .ok (addr (t.pageTables row (pteOffset virt))).toNat

/-- The table that the processor finds at a physical address. -/
def tableAt (address : Nat) : Option (Nat → UInt32) :=
  match rowAt layout address with
  | some row => some (t.pageTables row)
  | none => if address = layout.directory then some t.directory else none

/-- How the processor translates an address. -/
def translate (virt : Nat) : Option Nat :=
  if present (t.directory (pdeOffset virt)) then
    match t.tableAt layout (addr (t.directory (pdeOffset virt))).toNat with
    | some table =>
      if present (table (pteOffset virt)) then
        some ((addr (table (pteOffset virt))).toNat + pageOffset virt)
      else none
    | none => none
  else none

end Tables

/-- The tables of the processor for the common part. -/
def mmu (layout : Layout) : Mmu Tables where
  setEntry t phys virt _ := t.setEntry layout phys virt
  clearEntry t virt := t.clearEntry layout virt
  virtToPhys t virt := t.virtToPhys layout virt

variable (layout : Layout)

/-! ## Unmapping and the other overloads -/

/-- The second loop of `unmap_range`, which clears `page_tables_searchable` once more. -/
def unmapPages (first : Nat) : Nat → Nat → Space Tables → Nat → Except Fault (Space Tables)
  | 0, _, s, _ => .ok s
  | count + 1, done, s, virt => do
    let (_, s) ← s.unmapPage (mmu layout) virt
    if pageCount ≤ first + done then .error .undefined
    else unmapPages first count (done + 1) (s.mark (first + done) false) (pageIncr virt)

/-- `unmap_range`. -/
def unmapRange (pmm : PmmCalls Tables) (s : Vmm Tables) (virt len : Nat) (opts : MapOpts) :
    Except Fault (MapResults × Vmm Tables) :=
  let s := s.acquireLock
  if !s.space.allMapped (bytesToPages len) (pageFloor virt) then
    .ok (.notMapped, s.releaseLock)
  else do
    let attempt ← if opts.physAddrAuto then do
        let phys ← (mmu layout).virtToPhys s.space.tables virt
        pmm.freeMemArea s.space phys len
      else .ok PmmResult.success
    if opts.physAddrAuto && (attempt = .invalid || attempt = .null) then
      .ok (.invalidOption, s.releaseLock)
    else
      let space ← unmapPages layout (virt / pageSize) (bytesToPages len) 0 s.space (pageFloor virt)
      .ok (.success, { s with space := space }.releaseLock)

/-- `map_range` without a physical address. `internal_map_range` gets the address `caller` of
the caller's pointer in place of what the pointer holds. -/
def mapRangeAny (pmm : PmmCalls Tables) (s : Vmm Tables) (len caller : Nat) (opts : MapOpts) :
    Except Fault (MapResults × Vmm Tables) := do
  let s := s.acquireLock
  match ← s.space.findFreeVirtmem len with
  | none => .ok (.noVirtmem, s.releaseLock)
  | some _ =>
    let (attempt, phys, space) ← pmm.getMemArea s.space len
    let s := { s with space := space }
    if attempt = .nomem then .ok (.noPhysmem, s.releaseLock)
    else
      let (result, space) ← s.space.internalMapRange (mmu layout) phys len caller opts
      .ok (result, { s with space := space }.releaseLock)

/-! ## Setting up -/

/-- The page directory after the first loop of `setup_paging`. -/
def initialDirectory (index : Nat) : UInt32 :=
  if index < 1024 then
    configureDirectory (setAddr (UInt32.ofNat (layout.tables + index * pageSize)) 0)
  else 0

/-- The loop of `setup_paging` over the pages of the kernel. -/
def mapKernel : Nat → Space Tables → Nat → Except Fault (Space Tables)
  | 0, _, _ => .error .divergence
  | fuel + 1, s, page =>
    if page ≤ layout.kernelEnd then
      let tables := s.tables.modifyEntry (pdeOffset page) (pteOffset page) fun entry =>
        configure (setAddr (UInt32.ofNat (wrapSub page layout.vaOffset)) entry)
      mapKernel fuel ({ s with tables := tables }.mark (page / pageSize) true) (pageIncr page)
    else .ok s

/-- `setup_paging`. -/
def setupPaging : Except Fault (Vmm Tables) := do
  let blank : Space Tables := ⟨fun _ => false, ⟨initialDirectory layout, fun _ _ => 0⟩⟩
  let s ← mapKernel layout (pageCount + 2) blank (pageFloor layout.kernelStart)
  let tables := s.tables.modifyDirectory 1023 fun entry =>
    configure (setAddr (UInt32.ofNat layout.directory) entry)
  let s : Space Tables :=
    ⟨fun i => if windowPage ≤ i ∧ i < pageCount then true else s.searchable i, tables⟩
  assert (s.isMapped layout.kernelStart)
  assert (s.isMapped layout.kernelEnd)
  .ok ⟨s, 1, 1⟩

/-! ## Runs -/

/-- A call that returned, with any options and any result: `map_range` with or without a
physical address, or `unmap_range` of a range below the window. -/
inductive Step (pmm : PmmCalls Tables) : Vmm Tables → Vmm Tables → Prop where
  | map {s s' : Vmm Tables} {phys len virt : Nat} {opts : MapOpts} {result : MapResults}
      (physWord : phys < wordLimit) (lenWord : len < wordLimit)
      (returns : s.mapRange (mmu layout) phys len opts = .ok (result, virt, s')) :
      Step pmm s s'
  | mapAny {s s' : Vmm Tables} {len caller : Nat} {opts : MapOpts} {result : MapResults}
      (lenWord : len < wordLimit) (callerWord : caller < wordLimit)
      (honest : ∀ attempt phys space, pmm.getMemArea s.space len = .ok (attempt, phys, space) →
        phys < wordLimit ∧ s.space.Grows (mmu layout) space)
      (returns : mapRangeAny layout pmm s len caller opts = .ok (result, s')) :
      Step pmm s s'
  | unmap {s s' : Vmm Tables} {virt len : Nat} {opts : MapOpts} {result : MapResults}
      (below : virt + len ≤ windowPage * pageSize)
      (returns : unmapRange layout pmm s virt len opts = .ok (result, s')) :
      Step pmm s s'

/-- The states after `setup_paging` and any sequence of such calls. -/
inductive Reachable : Vmm Tables → Prop where
  | setup {s : Vmm Tables} (returns : setupPaging layout = .ok s) : Reachable s
  | step {s s' : Vmm Tables} {pmm : PmmCalls Tables} (before : Reachable s)
      (step : Step layout pmm s s') : Reachable s'

end FelineOS.Paging.I386
