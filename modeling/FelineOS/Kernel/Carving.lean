import FelineOS.Kernel.Word

/-!
# Carving the memory map

The part of `start_phys_mem_manager` that turns the bootloader's regions into headers: the
lambda `try_add_available_memory_region`, applied to each available region. All addresses and
lengths are 32-bit words, and so is every sum and difference; the casts through `ptrdiff_t`
and `unsigned long long` end in a word again.

The headers are filled one after the other and linked by position, so only their ranges are
kept here. The lambda calls itself for the front part of a region that is split; the fuel
counts the depth of that recursion.
-/

namespace FelineOS.Boot

/-- `struct bootloader_mem_region`. -/
structure Region where
  /-- First address. -/
  addr : Nat
  /-- Number of bytes. -/
  len : Nat
  deriving DecidableEq, Repr

/-- The byte lies in the region. -/
def Region.Has (r : Region) (x : Nat) : Prop := r.addr ≤ x ∧ x < r.addr + r.len

instance (r : Region) (x : Nat) : Decidable (r.Has x) := inferInstanceAs (Decidable (_ ∧ _))

/-- `struct range`. -/
structure Range where
  /-- The field `start`. -/
  start : Nat
  /-- The field `end`. -/
  stop : Nat
  deriving DecidableEq, Repr

/-- `overlap`: the ends count as inside. -/
def overlap (a b : Range) : Bool :=
  decide (b.start ≤ max a.start a.stop) && decide (min a.start a.stop ≤ b.stop)

/-- The range of a region, its end computed as a word. -/
def Region.range (r : Region) : Range := ⟨r.addr, wrap (r.addr + r.len)⟩

/-- The range of a header that `start_phys_mem_manager` has filled. -/
structure Span where
  /-- The field `memory`. -/
  memory : Nat
  /-- The field `size`. -/
  size : Nat
  deriving DecidableEq, Repr

/-- The range of a header, its end computed as a word. -/
def Span.range (h : Span) : Range := ⟨h.memory, wrap (h.memory + h.size)⟩

/-- What one pass of the loop over the unavailable regions does with the region. -/
inductive Cut where
  /-- Nothing: the two do not overlap. -/
  | skip
  /-- The region is covered and given up. -/
  | drop
  /-- The front is carved by a recursive call, and the loop goes on with the rest. -/
  | split (front rest : Region)
  /-- The loop goes on with a part of the region. -/
  | shrink (rest : Region)
  /-- The branch that should be unreachable. -/
  | missing
  deriving DecidableEq, Repr

/-- The body of the loop over the unavailable regions. -/
def carve (availableRegion unavailRegion : Region) : Cut :=
  let available := availableRegion.range
  let unavailable := unavailRegion.range
  if !overlap available unavailable then .skip
  else if unavailable.start ≤ available.start ∧ available.stop ≤ unavailable.stop then .drop
  else if available.start < unavailable.start ∧ unavailable.stop < available.stop then
    let addr := wrap (unavailable.stop + pageSize)
    .split
      ⟨availableRegion.addr, wrapSub (wrapSub unavailable.start available.start) pageSize⟩
      ⟨addr, wrapSub available.stop addr⟩
  else if unavailable.start ≤ available.start ∧ available.start ≤ unavailable.stop then
    .shrink ⟨wrap (unavailable.stop + pageSize),
      wrapSub (wrapSub available.stop unavailable.stop) pageSize⟩
  else if unavailable.start ≤ available.stop ∧ available.stop ≤ unavailable.stop then
    .shrink ⟨availableRegion.addr,
      wrapSub (wrapSub unavailable.stop available.start) pageSize⟩
  else .missing

/-- The end of the lambda: extend the first header that overlaps the region, or fill the next
one. -/
def addRegion (region : Region) : List Span → Except Fault (List Span)
  | [] => .ok [⟨pageFloor region.addr, pageFloor region.len⟩]
  | h :: headers =>
    if overlap region.range h.range then do
      let memory := pageFloor (min region.range.start h.range.start)
      let size ← pageSub (pageFloor (max region.range.stop h.range.stop)) memory
      pure (⟨memory, size⟩ :: headers)
    else do
      let headers ← addRegion region headers
      pure (h :: headers)

/-- The loop over the unavailable regions, with what follows it. -/
def carveLoop (recursiveSelf : Region → List Span → Except Fault (List Span)) :
    List Region → Region → List Span → Except Fault (List Span)
  | [], region, headers => addRegion region headers
  | unavail :: rest, region, headers =>
    match carve region unavail with
    | .skip => carveLoop recursiveSelf rest region headers
    | .drop => .ok headers
    | .split front back => do
      let headers ← recursiveSelf front headers
      carveLoop recursiveSelf rest back headers
    | .shrink part => carveLoop recursiveSelf rest part headers
    | .missing => .error .abort

/-- `try_add_available_memory_region`. -/
def tryAddAvailableMemoryRegion (unavailable : List Region) :
    Nat → Region → List Span → Except Fault (List Span)
  | 0, _, _ => .error .divergence
  | fuel + 1, region, headers =>
    carveLoop (tryAddAvailableMemoryRegion unavailable fuel) unavailable region headers

/-- The loop that applies the lambda to each available region. -/
def addAvailableRegions (unavailable : List Region) (fuel : Nat) :
    List Region → List Span → Except Fault (List Span)
  | [], headers => .ok headers
  | region :: rest, headers => do
    let headers ← tryAddAvailableMemoryRegion unavailable fuel region headers
    addAvailableRegions unavailable fuel rest headers

end FelineOS.Boot
