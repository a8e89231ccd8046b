import FelineOS.Kernel.Paging

/-!
# Paging on ARM

`arch/arm/virt_mem/paging.cpp`: a first-level table of sections and a static second-level table
behind each of its descriptors. The code and the processor both find a second-level table through
the bits 31 to 10 of a descriptor; the code adds `VA_OFFSET` and reaches it through the mapping of
the kernel. A descriptor that names memory outside `second_level_table_system` is a fault of the
model.

Where the linker put the tables and the kernel is a parameter (`Layout`).
-/

namespace FelineOS.Paging.Arm

open PhysMem (PmmResult)

/-- `LARGE_CHUNK_SIZE`. -/
def sectionSize : Nat := 0x100000

/-- `section_table_offset`. -/
def sectionTableOffset (addr : Nat) : Nat := addr / sectionSize

/-- The second level of `page_table_offset`. -/
def secondLevelOffset (addr : Nat) : Nat := addr % sectionSize / pageSize

/-- `page_table`. -/
def pageTableType : UInt32 := 0b01

/-- `domain`. -/
def domain : UInt32 := 0x0

/-- `small_page`. -/
def smallPage : UInt32 := 0b10

/-- `full_access`. -/
def fullAccess : UInt32 := 0b110000

/-- `global`. -/
def globalBit : UInt32 := 0x800

/-- `default_opts`. -/
def defaultOpts : UInt32 := smallPage ||| fullAccess ||| globalBit

/-- `attributes` of `map_page`. -/
def attributes (opts : MapOpts) : UInt32 := if opts.device then 0b100 else 0b1001100

/-- The places that the linker and the loader decide. -/
structure Layout where
  /-- The physical address of `second_level_table_system`. -/
  tables : Nat
  /-- The address of `kernel_start`. -/
  kernelStart : Nat
  /-- The address of `kernel_end`. -/
  kernelEnd : Nat
  /-- The value of `phys_kernel_start`. -/
  physKernelStart : Nat
  /-- The value of `phys_kernel_end`. -/
  physKernelEnd : Nat
  /-- The second-level tables are aligned. -/
  tables_aligned : 0x4000 ∣ tables
  /-- The second-level tables and what `setup_paging` computes from them are in memory. -/
  tables_bounded : tables + 4096 * 1028 ≤ wordLimit
  /-- The kernel starts at an address. -/
  kernelStart_word : kernelStart < wordLimit
  /-- The kernel is loaded at an address. -/
  physKernelStart_word : physKernelStart < wordLimit

/-- What the processor walks. -/
structure Tables where
  /-- `first_level_table_system`. -/
  firstLevel : Nat → UInt32
  /-- `second_level_table_system`. -/
  secondLevel : Nat → Nat → UInt32

namespace Tables

variable (layout : Layout) (t : Tables)

/-- The second-level table at a physical address. -/
def rowAt (address : Nat) : Option Nat :=
  if layout.tables ≤ address ∧ address < layout.tables + 4096 * 1024 then
    some ((address - layout.tables) / 1024)
  else none

/-- The second-level table that a first-level descriptor names. -/
def tableOf (descriptor : UInt32) : Except Fault Nat :=
  match rowAt layout (descriptor &&& ~~~0x3ff).toNat with
  | some row => .ok row
  | none => .error .undefined

/-- One second-level descriptor written. -/
def write (row index : Nat) (entry : UInt32) : Tables :=
  { t with secondLevel :=
      Function.update t.secondLevel row (Function.update (t.secondLevel row) index entry) }

/-- The table writes of `map_page`. -/
def setEntry (phys virt : Nat) (opts : MapOpts) : Except Fault Tables :=
  let firstLevel := t.firstLevel (sectionTableOffset virt)
  if firstLevel &&& pageTableType = 0 then .error .abort
  else do
    let row ← tableOf layout firstLevel
    .ok (t.write row (secondLevelOffset virt)
      (UInt32.ofNat phys ||| defaultOpts ||| attributes opts))

/-- The table write of `unmap_page`. -/
def clearEntry (virt : Nat) : Except Fault Tables := do
  let row ← tableOf layout (t.firstLevel (sectionTableOffset virt))
  .ok (t.write row (secondLevelOffset virt) 0)

/-- `virt_to_phys`. -/
def virtToPhys (virt : Nat) : Except Fault Nat := do
  let row ← tableOf layout (t.firstLevel (sectionTableOffset virt))
  .ok (t.secondLevel row (secondLevelOffset virt) &&& ~~~0xfff).toNat

/-- Where the processor finds the second-level descriptor of an address: in the table that the
bits 31 to 10 of the descriptor of its section name, unless that is no descriptor of a table. -/
def walk (virt : Nat) : Option (Nat × Nat) :=
  let firstLevel := t.firstLevel (virt / 0x100000)
  if firstLevel &&& 0b11 = pageTableType then
    (rowAt layout (firstLevel &&& ~~~0x3ff).toNat).map fun row => (row, virt / 0x1000 % 256)
  else none

end Tables

/-- The domain field of a first-level descriptor. -/
def domainField (firstLevel : UInt32) : UInt32 := firstLevel &&& 0b0111100000

/-- The bits of a first-level descriptor below the address of its table and outside the domain
field. -/
def otherLowBits (firstLevel : UInt32) : UInt32 := firstLevel &&& 0b1000011111

/-- A second-level descriptor is one of a small page. -/
def isSmallPage (entry : UInt32) : Bool := entry &&& smallPage != 0

/-- The tables of the processor for the common part. -/
def mmu (layout : Layout) : Mmu Tables where
  setEntry t phys virt opts := t.setEntry layout phys virt opts
  clearEntry t virt := t.clearEntry layout virt
  virtToPhys t virt := t.virtToPhys layout virt

variable (layout : Layout)

/-! ## Unmapping and the other overload -/

/-- The second loop of `unmap_range`. -/
def unmapPages : Nat → Space Tables → Nat → Except Fault (Space Tables)
  | 0, s, _ => .ok s
  | count + 1, s, virt => do
    let (_, s) ← s.unmapPage (mmu layout) virt
    unmapPages count s (pageIncr virt)

/-- `unmap_range`, which keeps the lock when the physical memory is refused. -/
def unmapRange (pmm : PmmCalls Tables) (s : Vmm Tables) (virt len : Nat) (opts : MapOpts) :
    Except Fault (MapResults × Vmm Tables) :=
  let s := s.acquireLock
  if !s.space.allMapped (bytesToPages len) (pageFloor virt) then
    .ok (.notMapped, s.releaseLock)
  else do
    let attempt ← if opts.physAddrAuto then do
        let phys ← (mmu layout).virtToPhys s.space.tables virt
        pmm.freeMemArea s.space phys len
      else .ok PmmResult.success
    if opts.physAddrAuto && (attempt = .invalid || attempt = .null) then
      .ok (.invalidOption, s)
    else
      let space ← unmapPages layout (bytesToPages len) s.space (pageFloor virt)
      .ok (.success, { s with space := space }.releaseLock)

/-- `map_range` without a physical address: `phys_addr` is null and stays so, and
`internal_map_range` gets the address `caller` of the caller's pointer. The lock is kept when no
virtual memory is found. -/
def mapRangeAny (pmm : PmmCalls Tables) (s : Vmm Tables) (len caller : Nat) (opts : MapOpts) :
    Except Fault (MapResults × Vmm Tables) := do
  let s := s.acquireLock
  match ← s.space.findFreeVirtmem len with
  | none => .ok (.noVirtmem, s)
  | some _ =>
    let (attempt, space) ← pmm.getMemAreaAt s.space 0 len
    let s := { s with space := space }
    if attempt = .nomem then .ok (.noPhysmem, s.releaseLock)
    else
      let (result, space) ← s.space.internalMapRange (mmu layout) 0 len caller opts
      .ok (result, { s with space := space }.releaseLock)

/-! ## Setting up -/

/-- `set_second_level_page_table` for the section: `setup_paging` passes the row of the section,
and the function takes the address of the entry with the number of the section in it. -/
def descriptor (number : Nat) : UInt32 :=
  UInt32.ofNat (layout.tables + 1024 * number + 4 * number) ||| domain ||| pageTableType

/-- The first-level table after the loop of `setup_paging`, which ends before the last section. -/
def initialFirstLevel (number : Nat) : UInt32 := if number < 4095 then descriptor layout number else 0

/-- `setup_paging`. -/
def setupPaging : Except Fault (Vmm Tables) := do
  let blank : Space Tables := ⟨fun _ => false, ⟨initialFirstLevel layout, fun _ _ => 0⟩⟩
  let (kernelMapping, s) ← blank.internalMapRange (mmu layout) layout.physKernelStart
    (wrapSub layout.physKernelEnd layout.physKernelStart) layout.kernelStart ⟨false, true, false⟩
  if kernelMapping ≠ .success then .error .abort
  else
    assert (s.isMapped layout.kernelStart)
    assert (s.isMapped layout.kernelEnd)
    .ok ⟨s, 1, 1⟩

/-! ## Runs -/

/-- A call that returned, with any options and any result: `map_range` with or without a
physical address, or `unmap_range`. -/
inductive Step (pmm : PmmCalls Tables) : Vmm Tables → Vmm Tables → Prop where
  | map {s s' : Vmm Tables} {phys len virt : Nat} {opts : MapOpts} {result : MapResults}
      (physWord : phys < wordLimit) (lenWord : len < wordLimit)
      (returns : s.mapRange (mmu layout) phys len opts = .ok (result, virt, s')) :
      Step pmm s s'
  | mapAny {s s' : Vmm Tables} {len caller : Nat} {opts : MapOpts} {result : MapResults}
      (lenWord : len < wordLimit) (callerWord : caller < wordLimit)
      (honest : ∀ attempt space, pmm.getMemAreaAt s.space 0 len = .ok (attempt, space) →
        s.space.Grows (mmu layout) space)
      (returns : mapRangeAny layout pmm s len caller opts = .ok (result, s')) :
      Step pmm s s'
  | unmap {s s' : Vmm Tables} {virt len : Nat} {opts : MapOpts} {result : MapResults}
      (virtWord : virt < wordLimit) (lenWord : len < wordLimit)
      (returns : unmapRange layout pmm s virt len opts = .ok (result, s')) :
      Step pmm s s'

/-- The states after `setup_paging` and any sequence of such calls. -/
inductive Reachable : Vmm Tables → Prop where
  | setup {s : Vmm Tables} (returns : setupPaging layout = .ok s) : Reachable s
  | step {s s' : Vmm Tables} {pmm : PmmCalls Tables} (before : Reachable s)
      (step : Step layout pmm s s') : Reachable s'

end FelineOS.Paging.Arm
