import FelineOS.Kernel.Word

/-!
# The physical memory manager

`kernel/phys_mem.cpp` keeps the physical memory as a doubly linked list of headers. The
headers live in chunks of one page each, chained by the chunk's own `next` field. Here the
slots of all chunks form one list: slot `headersPerChunk * c + i` is `headers[i]` of chunk
`c`, and a `PhysMemHeader *` is a slot number. Chunk `0` is `first_chunk`. Following a
pointer that names no slot or no chunk is the fault `undefined`.

Each call runs alone: `modifying_pmm` is held from the first statement of every entry point
to its return, and nothing called in between takes it. The two counters are `uintmax_t` and
count headers on distinct pages of a 32-bit address space, so they are plain naturals here.
The log calls and the unused `allocation_strategy` argument are left out.
-/

namespace FelineOS.PhysMem

/-- `struct PhysMemHeader`. -/
structure PhysMemHeader where
  /-- The following header, or null. -/
  next : Option Nat
  /-- The preceding header, or null. -/
  prev : Option Nat
  /-- First address of the area. -/
  memory : Nat
  /-- Size of the area in bytes. -/
  size : Nat
  /-- Whether the area is handed out. -/
  inUse : Bool
  /-- The two canary bytes. -/
  canary : Nat × Nat
  /-- Whether the header controls memory at all. -/
  headerInUse : Bool
  deriving DecidableEq, Repr

/-- `enum pmm_results`. -/
inductive PmmResult where
  | success
  | invalid
  | nomem
  | null
  deriving DecidableEq, Repr

/-- What `map_range` does for the page of a new chunk. On success the chunk is at a fresh
virtual address, and its `next` field reads whatever the page held before. -/
inductive MapResult where
  | failed
  | mapped (next : Option Nat)
  deriving DecidableEq, Repr

/-- `sizeof(PhysMemHeader)`: two links, two `page` objects of two words each (they have a
virtual function), and four bytes. -/
def sizeofHeader : Nat := 28

/-- The length of `PhysMemHeaderList::headers`. -/
def headersPerChunk : Nat := (pageSize - 4) / sizeofHeader

/-- The canary every header carries. -/
def canaryBytes : Nat × Nat := (0xCD, 0xEF)

/-- The static variables of the manager, with the memory behind its two pointers. -/
structure Pmm where
  /-- The headers of all chunks. -/
  slots : List PhysMemHeader
  /-- The `next` field of each chunk. -/
  chunkNext : List (Option Nat)
  /-- `first_header`. -/
  firstHeader : Option Nat
  /-- `headers_in_use`. -/
  headersInUse : Nat
  /-- `headers_allocated`. -/
  headersAllocated : Nat
  deriving DecidableEq, Repr

/-- The behaviour of `map_range` during one call of the manager. -/
abbrev MapRange := Pmm → MapResult

namespace Pmm

/-- Read the header a pointer names. -/
def header (s : Pmm) (i : Nat) : Except Fault PhysMemHeader :=
  match s.slots[i]? with
  | some h => .ok h
  | none => .error .undefined

/-- Store a header in a slot. -/
def put (s : Pmm) (i : Nat) (h : PhysMemHeader) : Pmm := { s with slots := s.slots.set i h }

/-- Change fields of the header a pointer names. -/
def modify (s : Pmm) (i : Nat) (f : PhysMemHeader → PhysMemHeader) : Except Fault Pmm := do
  let h ← s.header i
  pure (s.put i (f h))

/-- Assign `headers_in_use`. -/
def setInUse (s : Pmm) (n : Nat) : Pmm := { s with headersInUse := n }

/-- Read the `next` field of the chunk a pointer names. -/
def chunk (s : Pmm) (c : Nat) : Except Fault (Option Nat) :=
  match s.chunkNext[c]? with
  | some next => .ok next
  | none => .error .undefined

/-- The loops over the header list: the first header that passes a test, from a cursor on.
A walk that passes more headers than there are slots has come back to one of them. -/
def findFrom (s : Pmm) (test : PhysMemHeader → Bool) :
    Nat → Option Nat → Except Fault (Option Nat)
  | _, none => .ok none
  | 0, some _ => .error .divergence
  | fuel + 1, some i => do
    let h ← s.header i
    assert h.headerInUse
    if test h then pure (some i) else s.findFrom test fuel h.next

/-- The first header of the list that passes a test. -/
def find (s : Pmm) (test : PhysMemHeader → Bool) : Except Fault (Option Nat) :=
  s.findFrom test (s.slots.length + 1) s.firstHeader

/-- `find_free_pages`. -/
def findFreePages (s : Pmm) (len : Nat) : Except Fault (Option Nat) :=
  s.find fun h => !h.inUse && decide (len ≤ h.size)

/-- The lookup test of `find_header_for_page`: the end of the area counts as inside. -/
def PhysMemHeader.reaches (addr : Nat) (h : PhysMemHeader) : Bool :=
  decide (h.memory ≤ addr) && decide (addr ≤ wrap (h.memory + h.size))

/-- `find_header_for_page`. -/
def findHeaderForPage (s : Pmm) (addr len : Nat) : Except Fault (Option Nat) := do
  match ← s.find (PhysMemHeader.reaches addr) with
  | none => pure none
  | some i =>
    let h ← s.header i
    pure (if h.inUse || decide (h.size < len) then none else some i)

/-- `internal_claim_mem_area`. -/
def internalClaimMemArea (s : Pmm) (i : Nat) : Except Fault (PmmResult × Pmm) := do
  let h ← s.header i
  assert h.headerInUse
  assert !h.inUse
  assert (h.canary.1 == canaryBytes.1)
  assert (h.canary.2 == canaryBytes.2)
  pure (.success, s.put i { h with inUse := true })

/-- A header as `get_header_chunk` initialises it. -/
def emptyHeader : PhysMemHeader where
  next := none
  prev := none
  memory := 0
  size := 0
  inUse := true
  canary := canaryBytes
  headerInUse := false

/-- The loop that walks to the last chunk. -/
def lastChunk (s : Pmm) : Nat → Nat → Except Fault Nat
  | 0, _ => .error .divergence
  | fuel + 1, c => do
    match ← s.chunk c with
    | none => pure c
    | some next => s.lastChunk fuel next

/-- The first slot of a chunk whose header controls no memory. -/
def unusedIn (s : Pmm) (c : Nat) : Option Nat :=
  (((s.slots.drop (headersPerChunk * c)).take headersPerChunk).findIdx? fun h =>
    !h.headerInUse).map (headersPerChunk * c + ·)

/-- The search loop of `get_new_header`: the first unused header from a chunk on. -/
def takeFrom (s : Pmm) : Nat → Option Nat → Except Fault (Option Nat × Pmm)
  | _, none => .ok (none, s)
  | 0, some _ => .error .divergence
  | fuel + 1, some c => do
    let next ← s.chunk c
    match s.unusedIn c with
    | some i =>
      let h ← s.header i
      assert (h.canary.1 == canaryBytes.1)
      assert (h.canary.2 == canaryBytes.2)
      pure (some i, s.put i { h with headerInUse := true })
    | none => s.takeFrom fuel next

end Pmm

/-! ## Functions that grow the pool -/

/-- A state that the manager is part of, and what `map_range` does to it for the page of a new
chunk, which is the page of a header. -/
structure Host (σ : Type) where
  /-- The manager. -/
  pmm : σ → Pmm
  /-- The state with another manager. -/
  withPmm : σ → Pmm → σ
  /-- `map_range` for the page of the header. -/
  mapRange : σ → Nat → Except Fault (MapResult × σ)

namespace Host

variable {σ : Type} (o : Host σ)

/-- `get_header_chunk`. The requested length `1` becomes a `page` and so is `0`: the first
free header is taken whatever its size. The `next` field of the new chunk is not set. -/
def getHeaderChunk (s : σ) : Except Fault (Option Nat × σ) := do
  match ← (o.pmm s).findFreePages (pageFloor 1) with
  | none => pure (none, s)
  | some i =>
    let (result, pmm) ← (o.pmm s).internalClaimMemArea i
    let s := o.withPmm s pmm
    if result != .success then pure (none, s)
    else
      let (mapped, s) ← o.mapRange s i
      match mapped with
      | .failed => do
        let pmm ← (o.pmm s).modify i fun h => { h with inUse := false }
        pure (none, o.withPmm s pmm)
      | .mapped next =>
        let pmm := o.pmm s
        pure (some pmm.chunkNext.length,
          o.withPmm s { pmm with
            slots := pmm.slots ++ List.replicate headersPerChunk Pmm.emptyHeader
            chunkNext := pmm.chunkNext ++ [next]
            headersAllocated := pmm.headersAllocated + headersPerChunk })

/-- `get_new_header`. -/
def getNewHeader (s : σ) : Except Fault (Option Nat × σ) := do
  assert (decide ((o.pmm s).headersInUse ≤ (o.pmm s).headersAllocated))
  if (o.pmm s).headersAllocated ≤ (o.pmm s).headersInUse + 1 then
    let last ← (o.pmm s).lastChunk ((o.pmm s).chunkNext.length + 1) 0
    let (new, s) ← o.getHeaderChunk s
    let pmm := { o.pmm s with chunkNext := (o.pmm s).chunkNext.set last new }
    let (header, pmm) ← pmm.takeFrom (pmm.chunkNext.length + 1) new
    pure (header, o.withPmm s pmm)
  else
    let (header, pmm) ← (o.pmm s).takeFrom ((o.pmm s).chunkNext.length + 1) (some 0)
    pure (header, o.withPmm s pmm)

/-- `split_header_at_len`. -/
def splitHeaderAtLen (s : σ) (i len : Nat) : Except Fault σ := do
  let h ← (o.pmm s).header i
  assert h.headerInUse
  assert h.inUse
  assert (h.canary.1 == canaryBytes.1)
  assert (h.canary.2 == canaryBytes.2)
  assert (decide (len ≤ h.size))
  if h.size = len then pure s
  else
    match ← o.getNewHeader s with
    | (none, s) => pure s
    | (some t, s) =>
      let temp ← (o.pmm s).header t
      assert (temp.canary.1 == canaryBytes.1)
      assert (temp.canary.2 == canaryBytes.2)
      let h ← (o.pmm s).header i
      let memory ← pageAdd h.memory len
      let size ← pageSub h.size len
      let pmm := (o.pmm s).put t
        { next := h.next, prev := some i, memory, size, inUse := false, canary := canaryBytes,
          headerInUse := true }
      let pmm := pmm.setInUse (pmm.headersInUse + 1)
      let pmm ← match h.next with
        | none => pure pmm
        | some n => pmm.modify n fun follower => { follower with prev := some t }
      let pmm ← pmm.modify i fun h => { h with next := some t }
      let rest ← pageSub h.size size
      let pmm ← pmm.modify i fun h => { h with size := rest }
      pure (o.withPmm s pmm)

/-- `get_mem_area(addr, len)`. The front split is guarded by `header->memory > addr`. -/
def getMemAreaAt (s : σ) (addr len : Nat) : Except Fault (PmmResult × σ) := do
  match ← (o.pmm s).findHeaderForPage addr len with
  | none => pure (.nomem, s)
  | some i =>
    let (temp, pmm) ← (o.pmm s).internalClaimMemArea i
    let s := o.withPmm s pmm
    if temp = .success then
      let h ← (o.pmm s).header i
      let (i, s) ←
        if addr < h.memory then do
          let s ← o.splitHeaderAtLen s i (pageFloor (wrapSub addr h.memory))
          let pmm ← (o.pmm s).modify i fun h => { h with inUse := false }
          let h ← pmm.header i
          match h.next with
          | none => throw .undefined
          | some n =>
            let (_, pmm) ← pmm.internalClaimMemArea n
            pure (n, o.withPmm s pmm)
        else pure (i, s)
      let s ← o.splitHeaderAtLen s i (roundUpToPage len)
      pure (temp, s)
    else pure (temp, s)

/-- `get_mem_area(&addr, len)`: the result, what is stored through the pointer, and the
state. -/
def getMemAreaAny (s : σ) (len : Nat) : Except Fault (PmmResult × Option Nat × σ) := do
  match ← (o.pmm s).findFreePages (roundUpToPage len) with
  | none => pure (.nomem, none, s)
  | some i =>
    let (result, pmm) ← (o.pmm s).internalClaimMemArea i
    let s := o.withPmm s pmm
    if result = .success then
      let s ← o.splitHeaderAtLen s i (roundUpToPage len)
      let h ← (o.pmm s).header i
      pure (result, some h.memory, s)
    else pure (result, none, s)

end Host

namespace Pmm

/-- The manager on its own, with a given behaviour of `map_range`. -/
@[reducible] def host (mapRange : MapRange) : Host Pmm where
  pmm s := s
  withPmm _ s := s
  mapRange s _ := .ok (mapRange s, s)

/-- `get_header_chunk`. -/
def getHeaderChunk (mapRange : MapRange) (s : Pmm) : Except Fault (Option Nat × Pmm) :=
  (host mapRange).getHeaderChunk s

/-- What runs in the manager alone is the manager's function. -/
theorem host_getHeaderChunk (mapRange : MapRange) (s : Pmm) :
    (host mapRange).getHeaderChunk s = s.getHeaderChunk mapRange := rfl

/-- `get_new_header`. -/
def getNewHeader (mapRange : MapRange) (s : Pmm) : Except Fault (Option Nat × Pmm) :=
  (host mapRange).getNewHeader s

/-- So is this one. -/
theorem host_getNewHeader (mapRange : MapRange) (s : Pmm) :
    (host mapRange).getNewHeader s = s.getNewHeader mapRange := rfl

/-- `split_header_at_len`. -/
def splitHeaderAtLen (mapRange : MapRange) (s : Pmm) (i len : Nat) : Except Fault Pmm :=
  (host mapRange).splitHeaderAtLen s i len

/-- And the split. -/
theorem host_splitHeaderAtLen (mapRange : MapRange) (s : Pmm) (i len : Nat) :
    (host mapRange).splitHeaderAtLen s i len = s.splitHeaderAtLen mapRange i len := rfl

/-- `get_mem_area(addr, len)`. -/
def getMemAreaAt (mapRange : MapRange) (s : Pmm) (addr len : Nat) :
    Except Fault (PmmResult × Pmm) :=
  (host mapRange).getMemAreaAt s addr len

/-- `get_mem_area(&addr, len)`. -/
def getMemAreaAny (mapRange : MapRange) (s : Pmm) (len : Nat) :
    Except Fault (PmmResult × Option Nat × Pmm) :=
  (host mapRange).getMemAreaAny s len

/-- The first half of `merge_adjacent_headers`: absorb the follower. -/
def mergeNext (s : Pmm) (i : Nat) : Except Fault Pmm := do
  let h ← s.header i
  match h.next with
  | none => pure s
  | some n =>
    let follower ← s.header n
    if follower.inUse then pure s
    else
      let stop ← pageAdd h.memory h.size
      if stop = follower.memory then
        let s ← s.modify n fun follower => { follower with headerInUse := false }
        let size ← pageAdd h.size follower.size
        let s ← s.modify i fun h => { h with size }
        let s ← match follower.next with
          | none => pure s
          | some m => s.modify m fun third => { third with prev := some i }
        let s ← s.modify i fun h => { h with next := follower.next }
        pure (s.setInUse (s.headersInUse - 1))
      else pure s

/-- The second half of `merge_adjacent_headers`: be absorbed by the predecessor. -/
def mergePrev (s : Pmm) (i : Nat) : Except Fault Pmm := do
  let h ← s.header i
  match h.prev with
  | none => pure s
  | some p =>
    let before ← s.header p
    if before.inUse then pure s
    else
      let stop ← pageAdd before.memory before.size
      if stop = h.memory then
        let s ← s.modify i fun h => { h with headerInUse := false }
        let size ← pageAdd before.size h.size
        let s ← s.modify p fun before => { before with size }
        let s ← s.modify p fun before => { before with next := h.next }
        let s ← match h.next with
          | none => pure s
          | some n => s.modify n fun follower => { follower with prev := h.prev }
        pure (s.setInUse (s.headersInUse - 1))
      else pure s

/-- `merge_adjacent_headers`. -/
def mergeAdjacentHeaders (s : Pmm) (i : Nat) : Except Fault Pmm := do
  let s ← s.mergeNext i
  s.mergePrev i

/-- The lookup test of `free_mem_area`: the end of the area counts as outside. -/
def PhysMemHeader.holds (addr : Nat) (h : PhysMemHeader) : Bool :=
  decide (h.memory ≤ addr) && decide (addr < wrap (h.memory + h.size))

/-- `free_mem_area`. The header that contains `addr` is freed as a whole. -/
def freeMemArea (s : Pmm) (addr len : Nat) : Except Fault (PmmResult × Pmm) := do
  match ← s.find (PhysMemHeader.holds addr) with
  | none => pure (.invalid, s)
  | some i =>
    let h ← s.header i
    if wrap (h.memory + h.size) < wrap (addr + len) then throw .abort
    else if h.inUse then
      let s ← s.modify i fun h => { h with inUse := false }
      let s ← s.mergeAdjacentHeaders i
      pure (.success, s)
    else pure (.invalid, s)

end Pmm

/-- One call of the manager's interface, with the behaviour of `map_range` during it. -/
inductive Call where
  | getAny (mapRange : MapRange) (len : UInt32)
  | getAt (mapRange : MapRange) (addr len : UInt32)
  | free (addr len : UInt32)

/-- The result of a call, the address stored by `get_mem_area(&addr, len)`, and the state
after it. -/
def Pmm.exec (s : Pmm) : Call → Except Fault (PmmResult × Option Nat × Pmm)
  | .getAny mapRange len => s.getMemAreaAny mapRange len.toNat
  | .getAt mapRange addr len => do
    let (result, s) ← s.getMemAreaAt mapRange addr.toNat len.toNat
    pure (result, none, s)
  | .free addr len => do
    let (result, s) ← s.freeMemArea addr.toNat len.toNat
    pure (result, none, s)

/-- A sequence of calls, up to the first that does not return. -/
def Pmm.run (s : Pmm) : List Call → Except Fault Pmm
  | [] => .ok s
  | call :: calls => do
    let (_, _, s) ← s.exec call
    s.run calls

end FelineOS.PhysMem
