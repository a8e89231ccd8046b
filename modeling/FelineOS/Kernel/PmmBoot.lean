import FelineOS.Kernel.Carving
import FelineOS.Kernel.PhysMem

/-!
# Setting the manager up

`start_phys_mem_manager` of `kernel/phys_mem.cpp` around the carving: the search for a place for
the first chunk of headers, the chunk itself, and the reservation of its own memory. An address is
a word, null is `0`, and every sum of an address and a length is cut to a word. What `map_range`
does with the pages of the first chunk is a parameter; the result of the reservation is only
logged. Headers are filled by position, and a position behind the last header of the chunk is the
fault `undefined`.

`ensure_not_allocatable` takes memory out of the header list again, for a driver that has a device
there. Its loop shrinks or unlinks every header that the memory overlaps.
-/

namespace FelineOS.PhysMem

open Boot (Region Range Span overlap addAvailableRegions)

/-! ## The place of the first chunk -/

/-- `round_up_to_alignment` for pages. -/
def roundUpToAlignment (addr : Nat) : Nat :=
  if addr % pageSize = 0 then addr else wrap (addr + pageSize - addr % pageSize)

/-- The size of the first chunk for a number of available regions. -/
def headersNeededSize (numAvailable : Nat) : Nat :=
  roundUpToPage (wrap (wrap (numAvailable + 3) * sizeofHeader))

/-- `enum find_actions`. -/
inductive FindAction where
  /-- There is no way to make it work. -/
  | fail
  /-- It works perfectly. -/
  | success
  /-- Try at the end of the current reserved area. -/
  | after
  deriving DecidableEq, Repr

/-- `is_overlap`. -/
def isOverlap (location sizeNeeded endOfAvailable startReserved endReserved : Nat) : FindAction :=
  if endReserved < location ∨ wrap (location + sizeNeeded) < startReserved then .success
  else if wrap (endReserved + sizeNeeded) < endOfAvailable then .after
  else .fail

/-- The loop of `find_space_in_area` over the unavailable regions. -/
def findSpaceLoop (recursiveSelf : Nat → Except Fault Nat)
    (location endOfAvailable sizeNeeded : Nat) : List Region → Except Fault Nat
  | [] => .ok location
  | u :: rest =>
    match isOverlap location sizeNeeded endOfAvailable u.addr (wrap (u.addr + u.len)) with
    | .success => findSpaceLoop recursiveSelf location endOfAvailable sizeNeeded rest
    | .fail => .ok 0
    | .after => recursiveSelf (wrap (wrap (u.addr + u.len) + 1))

/-- `find_space_in_area`. The fuel counts the depth of the recursion. -/
def findSpaceInArea (unavailable : List Region) (endOfAvailable sizeNeeded : Nat) :
    Nat → Nat → Except Fault Nat
  | 0, _ => .error .divergence
  | fuel + 1, location =>
    findSpaceLoop (findSpaceInArea unavailable endOfAvailable sizeNeeded fuel)
      (roundUpToAlignment location) endOfAvailable sizeNeeded unavailable

/-- The loop that looks for `phys_hdr_ptr` in each available region. -/
def findHeaderSpace (unavailable : List Region) (sizeNeeded fuel : Nat) :
    List Region → Except Fault Nat
  | [] => .ok 0
  | region :: rest => do
    let physHdrPtr ← findSpaceInArea unavailable (wrap (region.addr + region.len)) sizeNeeded fuel
      region.addr
    if physHdrPtr = 0 then findHeaderSpace unavailable sizeNeeded fuel rest else pure physHdrPtr

namespace Pmm

/-! ## The first chunk -/

/-- The header that was filled at position `i` of `count`. -/
def filledHeader (count i : Nat) (h : Span) : PhysMemHeader where
  next := if i + 1 < count then some (i + 1) else none
  prev := if i = 0 then none else some (i - 1)
  memory := h.memory
  size := h.size
  inUse := false
  canary := canaryBytes
  headerInUse := true

/-- A header as `start_phys_mem_manager` clears it. -/
def clearedHeader : PhysMemHeader := { emptyHeader with inUse := false }

/-- The manager when the regions have been copied. -/
def firstChunk (headers : List Span) : Pmm where
  slots := headers.mapIdx (filledHeader headers.length) ++
    List.replicate (headersPerChunk - headers.length) clearedHeader
  chunkNext := [none]
  firstHeader := some 0
  headersInUse := headers.length
  headersAllocated := headersPerChunk

/-- `start_phys_mem_manager`. -/
def startPhysMemManager (mapHeaders : Nat → Nat → Bool) (mapRange : MapRange) (fuel : Nat)
    (unavailable available : List Region) : Except Fault Pmm := do
  let headersNeeded := headersNeededSize available.length
  let physHdrPtr ← findHeaderSpace unavailable headersNeeded fuel available
  if physHdrPtr = 0 then throw .abort
  if mapHeaders physHdrPtr headersNeeded = false then throw .abort
  let headers ← addAvailableRegions unavailable fuel available []
  if headersPerChunk < headers.length then throw .undefined
  let (_, s) ← (firstChunk headers).getMemAreaAt mapRange physHdrPtr headersNeeded
  pure s

/-! ## Memory to be left alone -/

/-- Change fields of the header a pointer names, unless it is null. -/
def modifyIf (s : Pmm) (pointer : Option Nat) (f : PhysMemHeader → PhysMemHeader) :
    Except Fault Pmm :=
  match pointer with
  | none => .ok s
  | some i => s.modify i f

/-- The body of the loop of `ensure_not_allocatable` for the header `h` in the slot `i`. -/
def excludeFrom (s : Pmm) (search : Range) (i : Nat) (h : PhysMemHeader) : Except Fault Pmm := do
  let stop ← pageAdd h.memory h.size
  let target : Range := ⟨h.memory, stop⟩
  if overlap search target then
    if search.start ≤ target.start ∧ target.stop ≤ search.stop then do
      let s ← s.modify i fun h => { h with inUse := false }
      let s ← s.modifyIf h.next fun follower => { follower with prev := h.prev }
      let s ← s.modifyIf h.prev fun before => { before with next := h.next }
      s.modify i fun h => { h with headerInUse := false }
    else if search.start ≤ target.start then
      s.modify i fun h => { h with
        memory := pageFloor search.stop
        size := pageFloor (wrapSub target.stop search.stop) }
    else if target.stop ≤ search.stop then
      s.modify i fun h => { h with size := pageFloor (wrapSub search.start target.start) }
    else throw .abort
  else pure s

/-- The loop of `ensure_not_allocatable` from a cursor on. A walk that passes more headers than
there are slots has come back to one of them. -/
def ensureFrom (search : Range) : Nat → Pmm → Option Nat → Except Fault Pmm
  | _, s, none => .ok s
  | 0, _, some _ => .error .divergence
  | fuel + 1, s, some i => do
    let h ← s.header i
    let s ← s.excludeFrom search i h
    let h ← s.header i
    ensureFrom search fuel s h.next

/-- `ensure_not_allocatable`. -/
def ensureNotAllocatable (s : Pmm) (addr len : Nat) : Except Fault Pmm :=
  ensureFrom ⟨addr, wrap (addr + len)⟩ (s.slots.length + 1) s s.firstHeader

end Pmm

end FelineOS.PhysMem
