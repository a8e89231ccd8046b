import FelineOS.Kernel.Bootstrap
import FelineOS.Kernel.DeviceTree
import FelineOS.Kernel.PmmBoot

/-!
# The ARM bootstrap of the memory map

`arch/arm/mem/phys_mem.cpp`, and `init_devicetree` of `arch/arm/devicetree/devicetree.cpp`: the
reserve map of the device tree, the search for a place for the array of regions, and the two lists
that are passed on. Addresses and sizes in the reserve map have 64 bits, pointers and the fields of
a region are 32-bit words. A sum with a pointer to `fdt_header` counts headers of forty bytes.

The table of reserve entries is read three times, and the tree is walked three times. The array is
not kept apart from everything that is still needed; a run that would write it over the kernel or
over the device tree is left out. What `map_range` does is part of what the function gets from
outside. The fuel bounds the loops and the recursions.
-/

namespace FelineOS.BootstrapArm

open Boot (Region overlap)
open Bootstrap (Regions add64 meets)
open DeviceTree (Blob CellSize propValue strcmp)
open Library.FlatTree (Memory readBE ascii)
open PhysMem (FindAction)

/-- What the function gets from outside. -/
structure BootInfo where
  /-- The memory, as the kernel sees it. -/
  mem : Memory
  /-- The argument `devicetree`, a physical address. -/
  physDevicetreeHeader : Nat
  /-- Where `map_range` maps the device tree, if it does. -/
  devicetreeHeader : Option Nat
  /-- The address `phys_kernel_start`. -/
  physKernelStart : Nat
  /-- The address `phys_kernel_end`. -/
  physKernelEnd : Nat
  /-- Whether `map_range` maps the array, for its address and its length. -/
  arrayMapped : Nat → Nat → Bool
  /-- The linker script puts the start before the end. -/
  kernel_le : physKernelStart ≤ physKernelEnd
  /-- The end is a word. -/
  kernel_lt : physKernelEnd < wordLimit

/-! ## The header -/

/-- `sizeof(fdt_header)`. -/
def sizeofFdtHeader : Nat := 40

/-- A field of the header, counted from the first. -/
def headerField (mem : Memory) (header i : Nat) : Nat := readBE mem 4 (wrap (header + 4 * i))

/-- `magic`. -/
def magic (mem : Memory) (header : Nat) : Nat := headerField mem header 0

/-- `totalsize`. -/
def totalsize (mem : Memory) (header : Nat) : Nat := headerField mem header 1

/-- `off_dt_struct`. -/
def offDtStruct (mem : Memory) (header : Nat) : Nat := headerField mem header 2

/-- `off_dt_strings`. -/
def offDtStrings (mem : Memory) (header : Nat) : Nat := headerField mem header 3

/-- `off_mem_rsvmap`. -/
def offMemRsvmap (mem : Memory) (header : Nat) : Nat := headerField mem header 4

/-- `FDT_MAGIC`. -/
def fdtMagic : Nat := 0xd00dfeed

/-- The variables `structs` and `strings` for a header. -/
def blobAt (mem : Memory) (header : Nat) : Blob where
  mem := mem
  structs := wrap (header + offDtStruct mem header)
  strings := wrap (header + offDtStrings mem header)

/-- `init_devicetree`. -/
def initDevicetree (info : BootInfo) : Except Fault Nat :=
  match info.devicetreeHeader with
  | none => .error .abort
  | some header => if magic info.mem header = fdtMagic then .ok header else .error .abort

/-! ## The reserve map -/

/-- `fdt_reserve_entry`. -/
structure ReserveEntry where
  /-- First address. -/
  address : Nat
  /-- Number of bytes. -/
  size : Nat
  deriving DecidableEq, Repr

/-- A pointer to a header with a number of bytes, divided by the size of a header, added. -/
def addHeaders (pointer bytes : Nat) : Nat :=
  wrap (pointer + bytes / sizeofFdtHeader * sizeofFdtHeader)

/-- The entry at an address. -/
def reserveEntry (mem : Memory) (addr : Nat) : ReserveEntry where
  address := readBE mem 8 addr
  size := readBE mem 8 (wrap (addr + 8))

/-- The entries that a loop over the reserve map passes. -/
def reserveEntriesFrom (mem : Memory) : Nat → Nat → Except Fault (List ReserveEntry)
  | 0, _ => .error .divergence
  | fuel + 1, addr =>
    let entry := reserveEntry mem addr
    if entry.address ≠ 0 ∨ entry.size ≠ 0 then do
      let rest ← reserveEntriesFrom mem fuel (wrap (addr + 16))
      pure (entry :: rest)
    else pure []

/-- The entries that the loops start with `reserved_mem` pass. -/
def reservedMem (mem : Memory) (header fuel : Nat) : Except Fault (List ReserveEntry) :=
  reserveEntriesFrom mem fuel (addHeaders header (offMemRsvmap mem header))

/-! ## The place of the array -/

/-- `is_overlap`. -/
def isOverlap (location sizeNeeded endOfAvailable startReserved endReserved : Nat) : FindAction :=
  if overlap ⟨location, wrap (location + sizeNeeded)⟩ ⟨startReserved, endReserved⟩ then
    if endOfAvailable < wrap (endReserved + sizeNeeded) then .fail else .after
  else .success

/-- Something that the array is kept apart from. -/
structure Obstacle where
  /-- `start_reserved`. -/
  startReserved : Nat
  /-- `end_reserved`. -/
  endReserved : Nat
  /-- Where the search goes on behind it. -/
  behind : Nat

/-- An entry of the reserve map. -/
def ReserveEntry.obstacle (e : ReserveEntry) : Obstacle where
  startReserved := wrap e.address
  endReserved := wrap (add64 e.address e.size)
  behind := wrap (add64 (add64 e.address e.size) 1)

/-- The kernel. -/
def BootInfo.kernelObstacle (info : BootInfo) : Obstacle where
  startReserved := info.physKernelStart
  endReserved := info.physKernelEnd
  behind := wrap (info.physKernelEnd + 1)

/-- The device tree, up to its last whole header. -/
def BootInfo.devicetreeObstacle (info : BootInfo) (header : Nat) : Obstacle where
  startReserved := info.physDevicetreeHeader
  endReserved := addHeaders info.physDevicetreeHeader (totalsize info.mem header)
  behind :=
    wrap (addHeaders info.physDevicetreeHeader (totalsize info.mem header) + sizeofFdtHeader)

/-- `round_up_to_alignment`, for an alignment that is not zero. -/
def roundUpToAlignment (addr align : Nat) : Nat :=
  if addr % align = 0 then addr else wrap (addr + align - addr % align)

/-- The checks of `find_space_in_area`, one after the other. They look at the location before it is
rounded. -/
def findSpaceLoopAligned (recursiveSelf : Nat → Except Fault Nat)
    (location endOfAvailable sizeNeeded alignmentNeeded invalidLocation : Nat) :
    List Obstacle → Except Fault Nat
  | [] => .ok (roundUpToAlignment location alignmentNeeded)
  | o :: rest =>
    match isOverlap location sizeNeeded endOfAvailable o.startReserved o.endReserved with
    | .fail => .ok invalidLocation
    | .after => recursiveSelf o.behind
    | .success =>
      findSpaceLoopAligned recursiveSelf location endOfAvailable sizeNeeded alignmentNeeded
        invalidLocation rest

/-- `find_space_in_area`, for any alignment; a zero is a fatal error of `NonZero`. -/
def findSpaceInAreaAligned (info : BootInfo)
    (header endOfAvailable sizeNeeded alignmentNeeded invalidLocation : Nat) :
    Nat → Nat → Except Fault Nat
  | 0, _ => .error .divergence
  | fuel + 1, location =>
    if alignmentNeeded = 0 then .error .abort
    else do
      let reserved ← reservedMem info.mem header (fuel + 1)
      findSpaceLoopAligned
        (findSpaceInAreaAligned info header endOfAvailable sizeNeeded alignmentNeeded
          invalidLocation fuel)
        location endOfAvailable sizeNeeded alignmentNeeded invalidLocation
        (reserved.map ReserveEntry.obstacle ++
          [info.kernelObstacle, info.devicetreeObstacle header])

/-- `alignof(bootloader_mem_region)`. -/
def alignofRegion : Nat := 4

/-- `find_space_in_area` as the bootstrap calls it, with the alignment of a region. -/
def findSpaceInArea (info : BootInfo) (header endOfAvailable sizeNeeded invalidLocation fuel : Nat)
    (location : Nat) : Except Fault Nat :=
  findSpaceInAreaAligned info header endOfAvailable sizeNeeded alignofRegion invalidLocation fuel
    location

/-! ## The callbacks -/

/-- The property is called `reg`. -/
def isReg (blob : Blob) (entry : Nat) : Bool :=
  decide (strcmp blob.mem (ascii "reg") (blob.propName entry) = 0)

/-- `print_available_memory`. -/
def printAvailableMemory (blob : Blob) (entry : Nat) (_ : CellSize) (count : Nat) :
    Except Fault Nat := .ok (if isReg blob entry then wrap (count + 1) else count)

/-- `can_contain_memory_map`, with the field `where` as the state. -/
def canContainMemoryMap (info : BootInfo) (header lenNeeded fuel : Nat) (blob : Blob) (entry : Nat)
    (_ : CellSize) (place : Nat) : Except Fault Nat :=
  let addr := propValue blob.mem entry 0
  let len := propValue blob.mem entry 1
  if isReg blob entry && decide (place = info.physKernelStart) then
    findSpaceInArea info header (wrap (addr + len)) lenNeeded info.physKernelStart fuel addr
  else .ok place

/-- `add_available_memory_region`, with the regions that have been written as the state. -/
def addAvailableMemoryRegion (blob : Blob) (entry : Nat) (_ : CellSize) (regions : List Region) :
    Except Fault (List Region) :=
  let addr := propValue blob.mem entry 0
  let len := propValue blob.mem entry 1
  .ok (if isReg blob entry then regions ++ [⟨addr, len⟩] else regions)

/-! ## The two lists -/

/-- `SIZE_MAX`. -/
def sizeMax : Nat := 0xFFFFFFFF

/-- The region that is written for an entry of the reserve map. -/
def ReserveEntry.region (e : ReserveEntry) : Region where
  addr := wrap e.address
  len := if sizeMax < e.size then sizeMax else wrap e.size

/-- `sorted_length`. -/
def sortedLength (numReserved numAvailable : Nat) : Nat :=
  wrap (wrap (numReserved * 2 + numAvailable + 3) * 8)

/-- The unavailable regions. -/
def BootInfo.unavailableRegions (info : BootInfo) (header place lenNeeded : Nat)
    (reserved : List ReserveEntry) : List Region :=
  reserved.map ReserveEntry.region ++
    [⟨info.physKernelStart, wrapSub info.physKernelEnd info.physKernelStart⟩,
      ⟨info.physDevicetreeHeader, totalsize info.mem header⟩, ⟨place, lenNeeded⟩]

/-- Whether the array would be written over the kernel or over the device tree. -/
def BootInfo.overwrites (info : BootInfo) (header place lenNeeded : Nat) : Bool :=
  meets place lenNeeded info.physKernelStart
      (wrapSub info.physKernelEnd info.physKernelStart) ||
    meets place lenNeeded info.physDevicetreeHeader (totalsize info.mem header)

/-- `bootstrap_phys_mem_manager`, up to its last call: the array and what it holds. -/
def bootstrapPhysMemManager (info : BootInfo) (fuel : Nat) : Except Fault (Region × Regions) := do
  let header ← initDevicetree info
  let blob := blobAt info.mem header
  let reserved ← reservedMem info.mem header fuel
  let numAvailable ← blob.forEachPropInNode (ascii "memory") (printAvailableMemory blob) fuel 0
  let lenNeeded := sortedLength reserved.length numAvailable
  let place ← blob.forEachPropInNode (ascii "memory")
    (canContainMemoryMap info header lenNeeded fuel blob) fuel info.physKernelStart
  if place = info.physKernelStart then throw .abort
  else if info.arrayMapped place lenNeeded = false then throw .abort
  else if info.overwrites header place lenNeeded then throw .overwritten
  else do
    let reserved ← reservedMem info.mem header fuel
    let available ← blob.forEachPropInNode (ascii "memory") (addAvailableMemoryRegion blob) fuel []
    pure (⟨place, lenNeeded⟩,
      ⟨info.unavailableRegions header place lenNeeded reserved, available⟩)

end FelineOS.BootstrapArm
