import FelineOS.Kernel.Carving
import Mathlib.Logic.Function.Basic

/-!
# The i386 bootstrap of the memory map

`bootstrap_phys_mem_manager` of `arch/i386/mem/phys_mem.cpp`: the search for a place for the
array of regions, and the two passes over the multiboot memory map that fill it. The entries of
the map have 64-bit addresses and lengths, and sums of them are computed in 64 bits; the fields
of a region, and the pointers, are 32-bit words.

The array lies in memory that nothing has initialised, so its slots have contents before they
are written. The searched place is not kept apart from the memory map; a map that the array
would be written over is left out.
-/

namespace FelineOS.Bootstrap

open Boot

/-- One more than the largest `multiboot_uint64_t`. -/
def doubleLimit : Nat := 0x10000000000000000

/-- The sum of two 64-bit numbers. -/
def add64 (a b : Nat) : Nat := (a + b) % doubleLimit

/-- `multiboot_memory_map_t`. -/
structure MmapEntry where
  /-- The number of bytes that follow this field. -/
  size : Nat
  /-- First address. -/
  addr : Nat
  /-- Number of bytes. -/
  len : Nat
  /-- One of the `MULTIBOOT_MEMORY_` constants. -/
  type : Nat
  /-- The other three fields are there. -/
  complete : 20 ≤ size
  /-- The address has 64 bits. -/
  addr_lt : addr < doubleLimit
  /-- The length has 64 bits. -/
  len_lt : len < doubleLimit
  deriving DecidableEq, Repr

/-- `type == MULTIBOOT_MEMORY_AVAILABLE`. -/
def MmapEntry.available (e : MmapEntry) : Bool := e.type == 1

/-- `addr + len`. -/
def MmapEntry.stop (e : MmapEntry) : Nat := add64 e.addr e.len

/-- What the function gets from outside. -/
structure BootInfo where
  /-- `flags & MULTIBOOT_INFO_MEM_MAP`. -/
  hasMemMap : Bool
  /-- `mmap_addr`. -/
  mmapAddr : Nat
  /-- The memory map. -/
  entries : List MmapEntry
  /-- The address of the linker symbol `_phys_kernel_start`. -/
  physKernelStart : Nat
  /-- The address of the linker symbol `_phys_kernel_end`. -/
  physKernelEnd : Nat
  /-- The address of the variable `phys_kernel_start`, which holds the first symbol's. -/
  startVariable : Nat
  /-- The address of the variable `phys_kernel_end`, which holds the second symbol's. -/
  endVariable : Nat
  /-- Where `map_range` maps the memory map, if it does. -/
  mbmp : Option Nat
  /-- Whether `map_range` maps the array. -/
  arrayMapped : Bool
  /-- What the memory of the array holds before. -/
  garbage : Nat → Region

/-- `mmap_length`. -/
def BootInfo.mbmpLen (info : BootInfo) : Nat := (info.entries.map fun e => e.size + 4).sum

/-- `mbmp_len / sizeof(multiboot_memory_map_t)`. -/
def BootInfo.numMapped (info : BootInfo) : Nat := info.mbmpLen / 24

/-- The entries that a pass visits: it goes on while the current entry starts before the limit,
in bytes from the start of the map. -/
def visit (limit : Nat) : Nat → List MmapEntry → List MmapEntry
  | _, [] => []
  | offset, e :: rest => if offset < limit then e :: visit limit (offset + (e.size + 4)) rest else []

/-- The entries that each pass visits. -/
def BootInfo.visited (info : BootInfo) : List MmapEntry := visit (info.numMapped * 24) 0 info.entries

/-- `sorted_length`: the bytes of the array. -/
def BootInfo.sortedLength (info : BootInfo) : Nat := (info.numMapped + 3) * 8

/-- Whether the search takes an entry. The flag `overlapping_data` is set when nothing
overlaps. -/
def BootInfo.usable (info : BootInfo) (mbmp : Nat) (e : MmapEntry) : Bool :=
  let hardwareAvailable := e.available
  let largeEnough := decide (info.sortedLength ≤ e.len)
  let noPointerWrapping := decide (add64 e.addr info.sortedLength < wordLimit - 1)
  let avoidingKernel := decide (info.endVariable < e.addr) || decide (e.stop < info.endVariable)
  let avoidingGrubMemmap :=
    decide (wrap (mbmp + info.numMapped * 24) < wrap e.addr) || decide (wrap e.stop < mbmp)
  let overlappingData := avoidingKernel && avoidingGrubMemmap
  hardwareAvailable && largeEnough && noPointerWrapping && !overlappingData

/-- `found_space`, which keeps the address of a variable when no entry is taken. -/
def BootInfo.foundSpace (info : BootInfo) (mbmp : Nat) : Nat :=
  match info.visited.find? (info.usable mbmp) with
  | some e => wrap e.addr
  | none => info.startVariable

/-- The array and its two counters. -/
structure Scratch where
  /-- The slots of `unavailable_memory`. -/
  slots : Nat → Region
  /-- The index of the slot that `new_memory` points to. -/
  newMemory : Nat
  /-- `num_unavailable_regions`. -/
  numUnavailable : Nat

/-- The regions that are counted. -/
def Scratch.regions (s : Scratch) : List Region := (List.range s.numUnavailable).map s.slots

/-- The first three regions. -/
def BootInfo.scratch (info : BootInfo) (foundSpace : Nat) : Scratch where
  slots := Function.update (Function.update (Function.update info.garbage
    0 ⟨foundSpace, info.sortedLength⟩)
    1 ⟨info.startVariable, wrapSub info.endVariable info.startVariable⟩)
    2 ⟨0xA0000, 0x60000⟩
  newMemory := 3
  numUnavailable := 3

/-- The condition under which an entry is merged into a region. -/
def mergeable (e : MmapEntry) (r : Region) : Bool :=
  decide (e.addr ≤ r.range.stop) && decide (r.addr ≤ e.stop)

/-- The merged region. Its length is computed after its address has changed. -/
def merge (e : MmapEntry) (r : Region) : Region :=
  let addr := min (wrap e.addr) r.addr
  ⟨addr, wrapSub (max (wrap e.stop) (wrap (addr + r.len))) addr⟩

/-- The first counted slot with a property. -/
def Scratch.firstSlot (s : Scratch) (p : Region → Bool) : Option Nat :=
  (List.range s.numUnavailable).find? fun i => p (s.slots i)

/-- The loop that moves the slots from an index on back by one, from the last one down. -/
def moveBack (index : Nat) : Nat → (Nat → Region) → Nat → Region
  | 0, slots => slots
  | moved + 1, slots =>
    if index < moved + 1 then moveBack index moved (Function.update slots (moved + 1) (slots moved))
    else slots

/-- An entry that starts before the last slot ends. -/
def Scratch.addOutOfOrder (s : Scratch) (e : MmapEntry) : Scratch :=
  match s.firstSlot (mergeable e) with
  | some i => { s with slots := Function.update s.slots i (merge e (s.slots i)) }
  | none =>
    match s.firstSlot (fun r => decide (r.addr < e.addr)) with
    | some i => { s with
        slots := Function.update (moveBack i s.numUnavailable s.slots) i ⟨wrap e.addr, wrap e.len⟩
        numUnavailable := s.numUnavailable + 1 }
    | none => s

/-- An entry that starts after the last slot ends. -/
def Scratch.append (s : Scratch) (e : MmapEntry) : Scratch :=
  if e.addr < wordLimit then
    { s with
      slots := Function.update s.slots s.newMemory
        ⟨wrap e.addr, wrap (min e.len (wordLimit - e.addr))⟩
      numUnavailable := s.numUnavailable + 1 }
  else s

/-- The body of the first pass. -/
def Scratch.addUnavailable (s : Scratch) (e : MmapEntry) : Scratch :=
  if e.available then s
  else
    let last := s.slots (s.newMemory - 1)
    let added :=
      if 0 < s.newMemory ∧ e.addr < last.range.stop then s.addOutOfOrder e else s.append e
    { added with newMemory := added.newMemory + 1 }

/-- `should_drop_region`. -/
def shouldDrop (unavailable : List Region) (e : MmapEntry) : Bool :=
  unavailable.any fun r => decide (r.addr < e.addr) && decide (e.stop < r.range.stop)

/-- The body of the second pass, which only logs an entry that is out of order. -/
def Scratch.addAvailable (s : Scratch) (e : MmapEntry) : Scratch :=
  if e.available && !shouldDrop s.regions e then
    { s with
      slots := Function.update s.slots s.newMemory ⟨wrap e.addr, wrap e.len⟩
      newMemory := s.newMemory + 1 }
  else s

/-- The arguments of `start_phys_mem_manager`. -/
structure Regions where
  /-- The unavailable regions. -/
  unavailable : List Region
  /-- The available regions. -/
  available : List Region
  deriving DecidableEq, Repr

/-- Whether two ranges of bytes have one in common. -/
def meets (addr len addr' len' : Nat) : Bool :=
  decide (addr < addr' + len') && decide (addr' < addr + len)

/-- The two passes over the map, with the array at `foundSpace`. -/
def BootInfo.fillRegions (info : BootInfo) (foundSpace : Nat) : Regions :=
  let first := info.visited.foldl Scratch.addUnavailable (info.scratch foundSpace)
  let second := info.visited.foldl Scratch.addAvailable first
  { unavailable := second.regions
    available := (List.range (second.newMemory - first.newMemory)).map fun i =>
      second.slots (first.newMemory + i) }

/-- `bootstrap_phys_mem_manager`, up to its last call: where the array is and what it holds. -/
def bootstrapPhysMemManager (info : BootInfo) : Except Fault (Nat × Regions) := do
  assert info.hasMemMap
  match info.mbmp with
  | none => .error .abort
  | some mbmp =>
    let foundSpace := info.foundSpace mbmp
    if foundSpace = info.startVariable then .error .abort
    else if !info.arrayMapped then .error .abort
    else if meets foundSpace info.sortedLength info.mmapAddr info.mbmpLen then .error .overwritten
    else .ok (foundSpace, info.fillRegions foundSpace)

end FelineOS.Bootstrap
