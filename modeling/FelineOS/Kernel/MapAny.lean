import FelineOS.Kernel.PagingI386
import FelineOS.Kernel.PagingArm

/-!
# Mapping with nothing specified

`map_range(len, &v, opts)` of both architectures once more, with the state of both managers: it
looks for free virtual memory, stores what it found through the pointer of the caller, asks the
physical memory manager for memory and maps that. What the physical memory manager maps for its own
headers during the call is an argument (`Growth`).

The store goes through the page tables like any other, so a pointer into a page that is not mapped
is a fault of the model.
-/

namespace FelineOS.Paging

open PhysMem (PmmResult Pmm MapRange)

variable {τ : Type}

/-- The two memory managers. -/
structure Managers (τ : Type) where
  /-- The physical memory manager. -/
  pmm : Pmm
  /-- The virtual memory manager. -/
  vmm : Vmm τ

/-- What happens when the pool of headers has to grow during a call. -/
structure Growth (mmu : Mmu τ) (s : Space τ) where
  /-- How `map_range` answers the physical memory manager. -/
  answer : MapRange
  /-- The mapping state afterwards. -/
  space : Space τ
  /-- It comes from calls of `map_range`. -/
  grows : s.Grows mmu space

/-- The mapping state after a call of `get_mem_area` that found memory. A pool with a spare header
does not grow. -/
def Managers.grown {mmu : Mmu τ} (m : Managers τ) (growth : Growth mmu m.vmm.space) : Space τ :=
  if m.pmm.headersInUse + 1 < m.pmm.headersAllocated then m.vmm.space else growth.space

/-- `map_range(len, &v, opts)` up to what the architectures do differently: `noVirtmem` is what
becomes of the lock when no virtual memory is found, and `gets` is the call of `get_mem_area` with
the physical address after it. The result is that of the call, what is stored through the pointer
`caller`, and the state. `internal_map_range` gets the pointer in place of what is stored through
it. -/
def Managers.mapRangeWith (mmu : Mmu τ) (m : Managers τ) (growth : Growth mmu m.vmm.space)
    (noVirtmem : Vmm τ → Vmm τ) (gets : Except Fault (PmmResult × Nat × Pmm)) (len caller : Nat)
    (opts : MapOpts) : Except Fault (MapResults × Nat × Managers τ) := do
  let vmm := m.vmm.acquireLock
  let found ← vmm.space.findFreeVirtmem len
  if vmm.space.isMapped caller then
    match found with
    | none => .ok (.noVirtmem, 0, ⟨m.pmm, noVirtmem vmm⟩)
    | some virt =>
      let (attempt, phys, pmm) ← gets
      if attempt = .nomem then .ok (.noPhysmem, virt, ⟨pmm, vmm.releaseLock⟩)
      else
        let (result, space) ← (m.grown growth).internalMapRange mmu phys len caller opts
        .ok (result, virt, ⟨pmm, { vmm with space := space }.releaseLock⟩)
  else .error .undefined

/-- `map_range(len, &v, opts)` on i386. -/
def I386.mapRangeManaged (layout : I386.Layout) (m : Managers I386.Tables)
    (growth : Growth (I386.mmu layout) m.vmm.space) (len caller : Nat) (opts : MapOpts) :
    Except Fault (MapResults × Nat × Managers I386.Tables) :=
  m.mapRangeWith (I386.mmu layout) growth Vmm.releaseLock
    (do
      let (attempt, phys, pmm) ← m.pmm.getMemAreaAny growth.answer len
      .ok (attempt, phys.getD 0, pmm))
    len caller opts

/-- `map_range(len, &v, opts)` on ARM: the physical address is null and stays so, since the overload
of `get_mem_area` is the one that is given an address. The lock is kept when no virtual memory is
found. -/
def Arm.mapRangeManaged (layout : Arm.Layout) (m : Managers Arm.Tables)
    (growth : Growth (Arm.mmu layout) m.vmm.space) (len caller : Nat) (opts : MapOpts) :
    Except Fault (MapResults × Nat × Managers Arm.Tables) :=
  m.mapRangeWith (Arm.mmu layout) growth id
    (do
      let (attempt, pmm) ← m.pmm.getMemAreaAt growth.answer 0 len
      .ok (attempt, 0, pmm))
    len caller opts

end FelineOS.Paging
