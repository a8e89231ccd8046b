import FelineOS.Kernel.Word
import Mathlib.Data.List.Perm.Basic

/-!
# The kernel heap

`libc/stdlib/malloc_free.cpp`: a list of headers, each in front of the bytes it describes,
threaded through the pages that `get_mem` reserved. A pointer to a header is its address and
`nullptr` is `none`; the memory is read and written header by header, which is enough because
every header starts at a multiple of `sizeof(Header)`.

`get_mem` and `free_mem` belong to the memory manager and are parameters here (`MemCalls`).
The blocks they handed out and took back are recorded, newest first; the code keeps no such
record. The two loops that follow the list carry a step bound and report a divergence when it
is used up. `allocation_lock` is left out: the calls run one after the other.
-/

namespace FelineOS.Malloc

/-- `DEFAULT_MEMRESERVE_SIZE`. -/
def defaultMemreserveSize : Nat := 4096

/-- `sizeof(Header)`. -/
def headerSize : Nat := 16

/-- `struct Header`, without the canary that nothing reads. -/
structure Header where
  /-- The header behind this one in the list. -/
  next : Option Nat
  /-- The header before this one in the list. -/
  prev : Option Nat
  /-- Number of bytes behind the header. -/
  len : Nat
  /-- Whether the bytes are handed out. -/
  inUse : Bool
  /-- Whether the header is the first of a reserved block. -/
  startOfAllocation : Bool
  deriving DecidableEq, Repr

/-- The heap: the memory it lives in, `first_header`, and what went through the memory manager. -/
structure Heap where
  /-- The header at each address. -/
  mem : Nat → Header
  /-- `first_header`. -/
  firstHeader : Option Nat
  /-- Address and length of every block that `get_mem` handed out, newest first. -/
  obtained : List (Nat × Nat)
  /-- Address and length of every block that `free_mem` took back, newest first. -/
  returned : List (Nat × Nat)

/-- The memory manager: `get_mem` gives an address or fails, `free_mem` succeeds or fails. -/
structure MemCalls where
  /-- `get_mem(&addr, len)`. -/
  getMem : Heap → Nat → Option Nat
  /-- `free_mem(addr, len)`. -/
  freeMem : Heap → Nat → Nat → Bool

/-- `round_to_multiple_of`. -/
def roundToMultipleOf (value multiple : Nat) : Nat :=
  if multiple = 0 then value
  else if value % multiple = 0 then value
  else wrap (value + multiple - value % multiple)

namespace Heap

variable (h : Heap) (calls : MemCalls)

/-- Write one header. -/
def modify (addr : Nat) (change : Header → Header) : Heap :=
  { h with mem := Function.update h.mem addr (change (h.mem addr)) }

/-- Write a header that a pointer may name; a null pointer is tested for and skipped. -/
def modifyAt (pointer : Option Nat) (change : Header → Header) : Heap :=
  match pointer with
  | some addr => h.modify addr change
  | none => h

/-- A header whose bytes were all overwritten with `0xDD`. -/
def clobbered : Header := ⟨some 0xDDDDDDDD, some 0xDDDDDDDD, 0xDDDDDDDD, true, true⟩

/-- `memset(addr, 0xDD, len)`: every header that shares a byte with the range is lost. -/
def memset (addr len : Nat) : Heap :=
  { h with mem := fun a => if a < addr + len ∧ addr < a + headerSize then clobbered else h.mem a }

/-- The blocks that `get_mem` handed out and `free_mem` has not taken back. -/
def outstanding : List (Nat × Nat) := h.obtained.diff h.returned

/-- `split_header`. -/
def splitHeader (current split : Nat) : Except Fault Heap :=
  if (h.mem current).inUse then .error .abort
  else
    let split := roundToMultipleOf split headerSize
    if (h.mem current).len < wrap (split + headerSize) then .error .abort
    else
      let new := wrap (current + split + headerSize)
      let h := h.modify new fun _ =>
        { next := (h.mem current).next
          prev := some current
          len := wrapSub (h.mem current).len (split + headerSize)
          inUse := false
          startOfAllocation := false }
      let h := h.modifyAt (h.mem current).next fun header => { header with prev := some new }
      .ok (h.modify current fun header => { header with next := some new, len := split })

/-- `allocate_more_mem`: the recorded length is that of one page, whatever was reserved. -/
def allocateMoreMem (needed : Nat) : Except Fault (Nat × Heap) :=
  let bytes := roundToMultipleOf (wrap (needed + headerSize)) defaultMemreserveSize
  match calls.getMem h bytes with
  | none => .error .abort
  | some hdr =>
    let h := { h with obtained := (hdr, bytes) :: h.obtained }
    let h := h.modify hdr fun _ =>
      { next := none
        prev := none
        len := defaultMemreserveSize - headerSize
        inUse := false
        startOfAllocation := true }
    if needed < (h.mem hdr).len - headerSize then do
      let h ← h.splitHeader hdr needed
      .ok (hdr, h)
    else .ok (hdr, h)

/-- The two links between the last header and a new one. -/
def linkBehind (hdr next : Nat) : Heap :=
  let h := h.modify hdr fun header => { header with next := some next }
  h.modify next fun header => { header with prev := some hdr }

/-- The loop of `malloc`, which extends the list at its end. -/
def search (size : Nat) : Nat → Heap → Nat → Except Fault (Nat × Heap)
  | 0, _, _ => .error .divergence
  | fuel + 1, h, hdr =>
    if (h.mem hdr).inUse || (h.mem hdr).len < size then
      match (h.mem hdr).next with
      | some next => search size fuel h next
      | none => do
        let (next, h) ← h.allocateMoreMem calls size
        search size fuel (h.linkBehind hdr next) next
    else .ok (hdr, h)

/-- The head of the list, reserved when there is none. -/
def ensureFirst (size : Nat) : Except Fault (Nat × Heap) :=
  match h.firstHeader with
  | some first => .ok (first, h)
  | none => do
    let (first, h) ← h.allocateMoreMem calls size
    .ok (first, { h with firstHeader := some first })

/-- The end of `malloc`: the rest of the block is split off and the block is handed out. -/
def take (size hdr : Nat) : Except Fault (Nat × Heap) := do
  let h ← if (h.mem hdr).len > wrap (size + headerSize) then h.splitHeader hdr size else .ok h
  let h := h.modify hdr fun header => { header with inUse := true }
  assert (h.mem hdr).inUse
  .ok (wrap (hdr + headerSize), h)

/-- `malloc`: the pointer returned. -/
def malloc (fuel size : Nat) : Except Fault (Nat × Heap) := do
  let (first, h) ← h.ensureFirst calls size
  let (hdr, h) ← search calls size fuel h first
  h.take size hdr

/-- The loop of `free` over the list. -/
def findHeader (ptr : Nat) : Nat → Nat → Except Fault Nat
  | 0, _ => .error .divergence
  | fuel + 1, hdr =>
    if wrap (hdr + headerSize) = ptr then .ok hdr
    else
      match (h.mem hdr).next with
      | some next => findHeader ptr fuel next
      | none => .ok hdr

/-- The merge of a freed block with the one behind it. -/
def mergeNext (hdr : Nat) : Heap :=
  match (h.mem hdr).next with
  | none => h
  | some next =>
    if !(h.mem next).inUse && !(h.mem next).startOfAllocation &&
        next == wrap (hdr + (h.mem hdr).len + headerSize) then
      let h := h.modifyAt (h.mem next).next fun header => { header with prev := some hdr }
      let h := h.modify hdr fun header =>
        { header with len := wrap (header.len + (h.mem next).len + headerSize) }
      h.modify hdr fun header => { header with next := (h.mem next).next }
    else h

/-- The merge of a freed block with the one before it, and the header of the result. -/
def mergePrev (hdr : Nat) : Nat × Heap :=
  match (h.mem hdr).prev with
  | none => (hdr, h)
  | some prev =>
    if !(h.mem hdr).startOfAllocation && (h.mem prev).inUse == false &&
        hdr == wrap (prev + (h.mem prev).len + headerSize) then
      let h := h.modify prev fun header => { header with next := (h.mem hdr).next }
      let h := h.modify prev fun header =>
        { header with len := wrap (header.len + (h.mem hdr).len + headerSize) }
      (prev, h.modifyAt (h.mem hdr).next fun header => { header with prev := some prev })
    else (hdr, h)

/-- `return_mem`. -/
def returnMem (hdr : Nat) : Except Fault Heap :=
  let len := wrap ((h.mem hdr).len + headerSize)
  if calls.freeMem h hdr len then .ok { h with returned := (hdr, len) :: h.returned }
  else .error .abort

/-- The links of the neighbours of a header that is given back. -/
def unlink (hdr : Nat) : Heap :=
  let h := h.modifyAt (h.mem hdr).prev fun header => { header with next := (h.mem hdr).next }
  h.modifyAt (h.mem hdr).next fun header => { header with prev := (h.mem hdr).prev }

/-- The end of `free`, which gives a page without handed out bytes back. Both branches of the
loop leave it. -/
def returnPages (hdr : Nat) : Except Fault Heap :=
  if (h.mem hdr).startOfAllocation && (h.mem hdr).len ≥ defaultMemreserveSize - headerSize then
    if (h.mem hdr).len = defaultMemreserveSize - headerSize then
      let h := h.unlink hdr
      let h := if h.firstHeader = some hdr then { h with firstHeader := (h.mem hdr).next } else h
      h.returnMem calls hdr
    else
      let toDel := hdr
      let hdr := wrap (hdr + defaultMemreserveSize)
      let h := h.modify hdr fun _ =>
        { next := (h.mem toDel).next
          prev := (h.mem toDel).prev
          len := wrapSub (h.mem toDel).len defaultMemreserveSize
          inUse := false
          startOfAllocation := true }
      let h := h.modifyAt (h.mem toDel).prev fun header => { header with next := some hdr }
      let h := h.modifyAt (h.mem toDel).next fun header => { header with prev := some hdr }
      let h := if h.firstHeader = some toDel then { h with firstHeader := some hdr } else h
      h.returnMem calls toDel
  else .ok h

/-- `free`. -/
def free (fuel ptr : Nat) : Except Fault Heap :=
  if ptr = 0 then .ok h
  else
    match h.firstHeader with
    | none => .error .abort
    | some first => do
      let hdr ← h.findHeader ptr fuel first
      if wrap (hdr + headerSize) ≠ ptr then .error .abort
      else if !(h.mem hdr).inUse then .error .abort
      else
        let h := h.modify hdr fun header => { header with inUse := false }
        let h := h.memset (hdr + headerSize) (h.mem hdr).len
        let h := h.mergeNext hdr
        let (hdr, h) := h.mergePrev hdr
        h.returnPages calls hdr

end Heap

/-! ## Runs -/

/-- What the callers may rely on: a block from `get_mem` is a page-aligned range of the address
space that shares no byte with a block not yet returned. -/
structure MemCalls.Fresh (calls : MemCalls) : Prop where
  /-- The block starts on a page. -/
  aligned : ∀ {h bytes addr}, calls.getMem h bytes = some addr → defaultMemreserveSize ∣ addr
  /-- The address is not null. -/
  nonnull : ∀ {h bytes addr}, calls.getMem h bytes = some addr → 0 < addr
  /-- The end of the block is an address, too. -/
  bounded : ∀ {h bytes addr}, calls.getMem h bytes = some addr → addr + bytes < wordLimit
  /-- No block not yet returned shares a byte with it. -/
  apart : ∀ {h bytes addr}, calls.getMem h bytes = some addr →
    ∀ block ∈ h.outstanding, block.1 + block.2 ≤ addr ∨ addr + bytes ≤ block.1

/-- The heap and its callers: the pointers they hold, each with the size they asked for. -/
structure World where
  /-- The heap. -/
  heap : Heap
  /-- Pointer and requested size of every allocation that was not freed. -/
  live : List (Nat × Nat)

/-- A header that shares no byte with memory that a caller holds. -/
def World.Untouchable (w : World) (addr : Nat) : Prop :=
  ∀ block ∈ w.live, block.1 + block.2 ≤ addr ∨ addr + headerSize ≤ block.1

/-- A call that returned, or a caller using its memory. -/
inductive Step : World → World → Prop where
  | malloc {w : World} {calls : MemCalls} {fuel size ptr : Nat} {h : Heap} (fresh : calls.Fresh)
      (word : size < wordLimit) (returns : w.heap.malloc calls fuel size = .ok (ptr, h)) :
      Step w ⟨h, (ptr, size) :: w.live⟩
  | free {w : World} {calls : MemCalls} {fuel : Nat} {block : Nat × Nat} {h : Heap}
      (held : block ∈ w.live) (returns : w.heap.free calls fuel block.1 = .ok h) :
      Step w ⟨h, w.live.erase block⟩
  | freeNull {w : World} {calls : MemCalls} {fuel : Nat} {h : Heap}
      (returns : w.heap.free calls fuel 0 = .ok h) : Step w ⟨h, w.live⟩
  | store {w : World} {mem : Nat → Header}
      (kept : ∀ addr, w.Untouchable addr → mem addr = w.heap.mem addr) :
      Step w ⟨{ w.heap with mem := mem }, w.live⟩

/-- The heap before the first call, over any memory. -/
def boot (mem : Nat → Header) : World := ⟨⟨mem, none, [], []⟩, []⟩

/-- The worlds after any sequence of calls that have all returned. -/
inductive Reachable : World → Prop where
  | boot (mem : Nat → Header) : Reachable (boot mem)
  | step {w w' : World} (before : Reachable w) (step : Step w w') : Reachable w'

end FelineOS.Malloc
