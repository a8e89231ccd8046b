import FelineOS.Kernel.PagingI386

/-!
# Memory for the rest of the kernel

`kernel/mem.cpp` on i386: `get_mem` and `get_mem_from` take physical memory from the physical
memory manager and map it, `free_mem` unmaps it and gives it back. The two managers call each
other. To grow its pool of headers the physical one maps the page of a new chunk
(`get_header_chunk`), and `unmap_range` hands the physical memory back before it clears the page
tables. The functions on that way are those of `Kernel.PhysMem` in the state of both managers
(`System.host`).

What a page held before it became a chunk decides the `next` field of the chunk, which is not
set. It is an argument of the calls (`next`), a chunk number like the other links of chunks.
-/

namespace FelineOS.Mem

open PhysMem (PmmResult Pmm headersPerChunk sizeofHeader)
open Paging (Vmm MapResults MapOpts PmmCalls bytesToPages)
open Paging.I386 (Layout Tables mmu)

/-- `enum mem_results`. -/
inductive MemResults where
  | success
  | permDenied
  | invalid
  | noVirtmem
  | noPhysmem
  deriving DecidableEq, Repr

/-- `sizeof(PhysMemHeaderList)`: a link and the headers. -/
def sizeofHeaderList : Nat := 4 + headersPerChunk * sizeofHeader

/-- The two memory managers. -/
structure System where
  /-- The physical memory manager. -/
  pmm : Pmm
  /-- The virtual memory manager. -/
  vmm : Vmm Tables

namespace System

variable (layout : Layout) (next : Option Nat) (s : System)

/-! ## The physical memory manager with its mappings -/

/-- Both managers: the virtual one maps the page of the header. -/
@[reducible] def host : PhysMem.Host System where
  pmm s := s.pmm
  withPmm s pmm := { s with pmm }
  mapRange s i := do
    let h ← s.pmm.header i
    let (results, _, vmm) ← s.vmm.mapRange (mmu layout) h.memory sizeofHeaderList MapOpts.none
    pure (if results = .success then .mapped next else .failed, { s with vmm })

/-- `get_header_chunk`. -/
def getHeaderChunk : Except Fault (Option Nat × System) := (host layout next).getHeaderChunk s

/-- What runs in both managers is the function of the two. -/
theorem host_getHeaderChunk :
    (host layout next).getHeaderChunk s = s.getHeaderChunk layout next := rfl

/-- `get_new_header`. -/
def getNewHeader : Except Fault (Option Nat × System) := (host layout next).getNewHeader s

/-- So is this one. -/
theorem host_getNewHeader : (host layout next).getNewHeader s = s.getNewHeader layout next := rfl

/-- `split_header_at_len`. -/
def splitHeaderAtLen (i len : Nat) : Except Fault System :=
  (host layout next).splitHeaderAtLen s i len

/-- And the split. -/
theorem host_splitHeaderAtLen (i len : Nat) :
    (host layout next).splitHeaderAtLen s i len = s.splitHeaderAtLen layout next i len := rfl

/-- `get_mem_area(&addr, len)`. -/
def getMemArea (len : Nat) : Except Fault (PmmResult × Option Nat × System) :=
  (host layout next).getMemAreaAny s len

/-- `get_mem_area(addr, len)`. -/
def getMemAreaAt (addr len : Nat) : Except Fault (PmmResult × System) :=
  (host layout next).getMemAreaAt s addr len

/-! ## The interface -/

/-- `get_mem_from`: the result, `*new_virt_addr` and the state. -/
def getMemFrom (phys len : Nat) : Except Fault (MemResults × Nat × System) := do
  let (physMemResults, s) ← s.getMemAreaAt layout next phys len
  match physMemResults with
  | .success =>
    let (virtMemResults, virt, vmm) ← s.vmm.mapRange (mmu layout) phys len MapOpts.none
    let s := { s with vmm }
    match virtMemResults with
    | .success => pure (.success, virt, s)
    | .noVirtmem => pure (.noVirtmem, virt, s)
    | .noPerm | .alreadyMapped | .notMapped | .errKernelSpace => throw .abort
    | .noPhysmem | .invalidAlign | .invalidOption => throw .abort
  | .nomem => pure (.noPhysmem, 0, s)
  | .null | .invalid => pure (.invalid, 0, s)

/-- `get_mem`: the result, `*new_virt_addr` and the state. The bytes it writes at the end are
those of the first page of the block. -/
def getMem (len : Nat) : Except Fault (MemResults × Nat × System) := do
  let (physMemResults, phys, s) ← s.getMemArea layout next len
  match physMemResults with
  | .success =>
    let (virtMemResults, virt, vmm) ← s.vmm.mapRange (mmu layout) (phys.getD 0) len MapOpts.none
    let s := { s with vmm }
    match virtMemResults with
    | .success => pure (.success, virt, s)
    | .noPerm | .errKernelSpace => pure (.permDenied, virt, s)
    | .noVirtmem => pure (.noVirtmem, virt, s)
    | .alreadyMapped | .notMapped => throw .abort
    | .noPhysmem | .invalidAlign | .invalidOption => throw .abort
  | .nomem => pure (.noPhysmem, 0, s)
  | .null | .invalid => throw .abort

/-- `PHYS_ADDR_AUTO`. -/
def physAddrAuto : MapOpts := ⟨true, false, false⟩

/-- The physical memory manager as `unmap_range` asks it. -/
def pmmCalls : PmmCalls Tables where
  getMemArea _ _ := .error .undefined
  getMemAreaAt _ _ _ := .error .undefined
  freeMemArea _ phys len := do
    let (attempt, _) ← s.pmm.freeMemArea phys len
    pure attempt

/-- The physical memory manager after `unmap_range` with `PHYS_ADDR_AUTO`, which calls
`free_mem_area` when all pages of the range are mapped. -/
def pmmAfter (addr len : Nat) : Except Fault Pmm :=
  if s.vmm.space.allMapped (bytesToPages len) (pageFloor addr) then do
    let phys ← s.vmm.space.tables.virtToPhys layout addr
    let (_, pmm) ← s.pmm.freeMemArea phys len
    pure pmm
  else pure s.pmm

/-- `free_mem`. -/
def freeMem (addr len : Nat) : Except Fault (MemResults × System) :=
  if addr = 0 then pure (.invalid, s)
  else do
    let (virtMemResults, vmm) ←
      Paging.I386.unmapRange layout s.pmmCalls s.vmm addr len physAddrAuto
    let pmm ← s.pmmAfter layout addr len
    match virtMemResults with
    | .success => pure (.success, ⟨pmm, vmm⟩)
    | .noPerm | .errKernelSpace => pure (.permDenied, ⟨pmm, vmm⟩)
    | .invalidAlign | .alreadyMapped | .noPhysmem | .noVirtmem => throw .abort
    | .invalidOption => throw .abort
    | .notMapped => pure (.invalid, ⟨pmm, vmm⟩)

end System

/-! ## Runs -/

/-- A block that `get_mem` handed out. -/
structure MemBlock where
  /-- Its virtual address. -/
  virt : Nat
  /-- The length asked for. -/
  len : Nat
  deriving DecidableEq, Repr

/-- The system and the blocks that are out. -/
structure World where
  /-- The two managers. -/
  system : System
  /-- The blocks that were handed out and not given back. -/
  live : List MemBlock

/-- A call of the interface. -/
inductive Op where
  /-- `get_mem(&v, len)`; a page for a new chunk would read `next`. -/
  | get (next : Option Nat) (len : Nat)
  /-- `free_mem(v, len)`. -/
  | free (block : MemBlock)

/-- One call, and the blocks that are out after it. -/
def World.exec (layout : Layout) (w : World) : Op → Except Fault World
  | .get next len => do
    let (result, virt, s) ← w.system.getMem layout next len
    pure ⟨s, if result = .success then ⟨virt, len⟩ :: w.live else w.live⟩
  | .free block => do
    let (result, s) ← w.system.freeMem layout block.virt block.len
    pure ⟨s, if result = .success then w.live.erase block else w.live⟩

/-- A sequence of calls, up to the first that does not return. -/
def World.run (layout : Layout) (w : World) : List Op → Except Fault World
  | [] => .ok w
  | op :: ops => do
    let w ← w.exec layout op
    w.run layout ops

/-- Every call of a sequence meets a condition in the state before it. -/
def World.Along (layout : Layout) (condition : World → Op → Prop) : World → List Op → Prop
  | _, [] => True
  | w, op :: ops => condition w op ∧ ∀ w', w.exec layout op = .ok w' → Along layout condition w' ops

/-- Lengths are positive words, and only blocks that are out are given back. -/
def World.Legal (w : World) : Op → Prop
  | .get _ len => 0 < len ∧ len < wordLimit
  | .free block => block ∈ w.live

/-- A pool that is full grows by a page that reads null in the `next` field of the chunk. -/
def World.Tidy (w : World) : Op → Prop
  | .get next _ => w.system.pmm.headersAllocated ≤ w.system.pmm.headersInUse + 1 → next = none
  | .free _ => True

end FelineOS.Mem
