import FelineOS.Kernel.Heap
import FelineOS.Kernel.Mem

/-!
# The kernel heap over the memory manager

`libc/stdlib/malloc_free.cpp` as the kernel runs it, where `get_mem` and `free_mem` are those of
`kernel/mem.cpp` and the state of the memory manager goes from one call to the next. `Kernel.Heap`
has the same functions over answers that are given; the ones on the way to the manager are here once
more, over any manager with a state of its own (`MemManager`).

Other parts of the kernel get their memory from the same manager, as `create_new_stack` and
`cleanup_finished_tasks` do. Their blocks are part of the world.
-/

namespace FelineOS.Malloc

/-- A memory manager with a state of its own. -/
structure MemManager (σ : Type) where
  /-- `get_mem(&addr, len)`: the address if it succeeds. -/
  getMem : σ → Nat → Except Fault (Option Nat × σ)
  /-- `free_mem(addr, len)`: whether it succeeds. -/
  freeMem : σ → Nat → Nat → Except Fault (Bool × σ)

variable {σ : Type} (m : MemManager σ)

/-- The manager as `free` asks it. -/
def MemManager.told (s : σ) : MemCalls where
  getMem _ _ := none
  freeMem _ addr len :=
    match m.freeMem s addr len with
    | .ok (done, _) => done
    | .error _ => false

namespace Heap

variable (h : Heap)

/-- The answer of `get_mem`, for the one call that `allocate_more_mem` makes. -/
def answers (answer : Option Nat) : MemCalls := ⟨fun _ _ => answer, fun _ _ _ => false⟩

/-- `allocate_more_mem`. -/
def allocateMoreMemOver (s : σ) (needed : Nat) : Except Fault (Nat × Heap × σ) := do
  let (answer, s) ←
    m.getMem s (roundToMultipleOf (wrap (needed + headerSize)) defaultMemreserveSize)
  let (hdr, h) ← h.allocateMoreMem (answers answer) needed
  return (hdr, h, s)

/-- The loop of `malloc`. -/
def searchOver (size : Nat) : Nat → Heap → σ → Nat → Except Fault (Nat × Heap × σ)
  | 0, _, _, _ => .error .divergence
  | fuel + 1, h, s, hdr =>
    if (h.mem hdr).inUse || (h.mem hdr).len < size then
      match (h.mem hdr).next with
      | some next => searchOver size fuel h s next
      | none => do
        let (next, h, s) ← h.allocateMoreMemOver m s size
        searchOver size fuel (h.linkBehind hdr next) s next
    else .ok (hdr, h, s)

/-- The head of the list, reserved when there is none. -/
def ensureFirstOver (s : σ) (size : Nat) : Except Fault (Nat × Heap × σ) :=
  match h.firstHeader with
  | some first => .ok (first, h, s)
  | none => do
    let (first, h, s) ← h.allocateMoreMemOver m s size
    .ok (first, { h with firstHeader := some first }, s)

/-- `malloc`: the pointer returned. -/
def mallocOver (s : σ) (fuel size : Nat) : Except Fault (Nat × Heap × σ) := do
  let (first, h, s) ← h.ensureFirstOver m s size
  let (hdr, h, s) ← searchOver m size fuel h s first
  let (ptr, h) ← h.take size hdr
  return (ptr, h, s)

/-- `free`. The call of `free_mem`, if there is one, is its last step; the block it was called for
is the one that `returned` gains. -/
def freeOver (s : σ) (fuel ptr : Nat) : Except Fault (Heap × σ) := do
  let h' ← h.free (m.told s) fuel ptr
  match h'.returned with
  | [] => return (h', s)
  | block :: earlier =>
    if earlier.length < h.returned.length then return (h', s)
    else do
      let (_, s) ← m.freeMem s block.1 block.2
      return (h', s)

end Heap

end FelineOS.Malloc

namespace FelineOS.KernelHeap

open Malloc (MemManager)
open Mem (System)
open Paging.I386 (Layout)

/-- `get_mem` and `free_mem` of the kernel on i386; a page for a new chunk reads `next`. -/
def memManager (layout : Layout) (next : System → Option Nat) : MemManager System where
  getMem s len := do
    let (result, virt, s) ← s.getMem layout (next s) len
    return (if result = .success then some virt else none, s)
  freeMem s addr len := do
    let (result, s) ← s.freeMem layout addr len
    return (decide (result = .success), s)

/-- The heap with its callers, the memory manager, and the blocks that other parts of the kernel
got from it. -/
structure World where
  /-- The heap and its callers. -/
  heap : Malloc.World
  /-- The two memory managers. -/
  system : System
  /-- Address and length of the blocks of the others. -/
  others : List (Nat × Nat)

/-- A block of the heap or of another part of the kernel, as the memory manager knows it. -/
def memBlock (block : Nat × Nat) : Mem.MemBlock := ⟨block.1, block.2⟩

/-- A full pool grows by pages that read null in the `next` field of the chunk. -/
def Tidy (next : System → Option Nat) : Prop :=
  ∀ s : System, s.pmm.headersAllocated ≤ s.pmm.headersInUse + 1 → next s = none

/-- A call that returned, or a caller of `malloc` using its memory. -/
inductive Step (layout : Layout) : World → World → Prop where
  | malloc {w : World} {next : System → Option Nat} {fuel size ptr : Nat} {h : Malloc.Heap}
      {s : System} (tidy : Tidy next) (word : size < wordLimit)
      (returns : w.heap.heap.mallocOver (memManager layout next) w.system fuel size =
        .ok (ptr, h, s)) :
      Step layout w ⟨⟨h, (ptr, size) :: w.heap.live⟩, s, w.others⟩
  | free {w : World} {next : System → Option Nat} {fuel : Nat} {block : Nat × Nat}
      {h : Malloc.Heap} {s : System} (held : block ∈ w.heap.live)
      (returns : w.heap.heap.freeOver (memManager layout next) w.system fuel block.1 = .ok (h, s)) :
      Step layout w ⟨⟨h, w.heap.live.erase block⟩, s, w.others⟩
  | store {w : World} {mem : Nat → Malloc.Header}
      (kept : ∀ addr, w.heap.Untouchable addr → mem addr = w.heap.heap.mem addr) :
      Step layout w ⟨⟨{ w.heap.heap with mem := mem }, w.heap.live⟩, w.system, w.others⟩
  | get {w : World} {next : System → Option Nat} {len : Nat} {answer : Option Nat} {s : System}
      (tidy : Tidy next) (positive : 0 < len) (word : len < wordLimit)
      (returns : (memManager layout next).getMem w.system len = .ok (answer, s)) :
      Step layout w ⟨w.heap, s, (answer.toList.map fun addr => (addr, len)) ++ w.others⟩
  | giveBack {w : World} {next : System → Option Nat} {block : Nat × Nat} {done : Bool} {s : System}
      (held : block ∈ w.others)
      (returns : (memManager layout next).freeMem w.system block.1 block.2 = .ok (done, s)) :
      Step layout w ⟨w.heap, s, if done then w.others.erase block else w.others⟩

/-- The worlds after any sequence of calls that have all returned. -/
inductive Reachable (layout : Layout) (start : System) : World → Prop where
  | boot (mem : Nat → Malloc.Header) : Reachable layout start ⟨Malloc.boot mem, start, []⟩
  | step {w w' : World} (before : Reachable layout start w) (step : Step layout w w') :
      Reachable layout start w'

end FelineOS.KernelHeap
