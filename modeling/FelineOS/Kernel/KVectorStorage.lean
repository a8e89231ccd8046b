import FelineOS.Kernel.Scheduler

/-!
# The storage of the growable vector

`KVector` of `libFeline/include/feline/kvector.h` once more, now with the block that its elements
are constructed in and with elements that own a buffer of their own. Destroying an element
releases its buffer and leaves the bytes of the element in its place, so a place that is no
longer alive still has contents, and whoever destroys it once more releases its buffer once more.
A move assignment swaps, over a destroyed element as well.
-/

namespace FelineOS

/-- What `get_memory` has handed out to the vector and what `return_memory` got back. -/
structure HeapLog (ι : Type) where
  /-- The blocks that the vector asked for. -/
  granted : List ι
  /-- Everything that was released, once for every release. -/
  released : List ι
  deriving DecidableEq, Repr

/-- `return_memory` for each buffer. -/
def HeapLog.release {ι : Type} (heap : HeapLog ι) (buffers : List ι) : HeapLog ι :=
  { heap with released := heap.released ++ buffers }

/-- A type of elements that own buffers and move by swapping. -/
structure ElementType (α ι : Type) where
  /-- `sizeof(T)`. -/
  sizeof : Nat
  /-- The buffers that the destructor releases. -/
  destroy : α → List ι
  /-- `T(std::move(other))`: the new object, and what is left of the other one. -/
  moveConstruct : α → α × α
  /-- `target = std::move(source)`: what the two hold afterwards. -/
  moveAssign : α → α → α × α
  /-- An owner has at least a pointer. -/
  sized : 4 ≤ sizeof
  /-- The new object is the other one. -/
  constructed : ∀ other, (moveConstruct other).1 = other
  /-- Nothing is left to release in the other one. -/
  emptied : ∀ other, destroy (moveConstruct other).2 = []
  /-- The target becomes the source. -/
  assigned : ∀ target source, (moveAssign target source).1 = source
  /-- The source gets what the target owned. -/
  swapped : ∀ target source, destroy (moveAssign target source).2 = destroy target

/-! ## The element types of the kernel -/

/-- A vector object with elements that have no destructor. -/
structure Owned (β ι : Type) where
  /-- The block, or the null pointer. -/
  items : Option ι
  /-- The elements in it and their number, and `m_capacity`. -/
  vector : KVector β
  deriving DecidableEq, Repr

namespace Owned

variable {β ι : Type}

/-- The default constructor. -/
def empty : Owned β ι := ⟨none, KVector.empty⟩

/-- `swap`, member by member. -/
def swap (first second : Owned β ι) : Owned β ι × Owned β ι :=
  (⟨second.items, second.vector⟩, ⟨first.items, first.vector⟩)

/-- The move constructor: a default constructed vector that is swapped with the other one. -/
def moveConstruct (other : Owned β ι) : Owned β ι × Owned β ι := swap empty other

/-- The move assignment. -/
def moveAssign (target source : Owned β ι) : Owned β ι × Owned β ι := swap target source

/-- The destructor: a null pointer is not released. -/
def destroy (v : Owned β ι) : List ι := v.items.toList

end Owned

/-- `KString`. -/
abbrev KString (ι : Type) : Type := Owned UInt8 ι

/-- `KString` as an element. -/
def KString.element (ι : Type) : ElementType (KString ι) ι where
  sizeof := 16
  destroy := Owned.destroy
  moveConstruct := Owned.moveConstruct
  moveAssign := Owned.moveAssign
  sized := by decide
  constructed _ := rfl
  emptied _ := rfl
  assigned _ _ := rfl
  swapped _ _ := rfl

/-- `struct Task` with the block of its allocations. -/
structure OwningTask (ρ ι : Type) where
  /-- The saved registers. -/
  registers : ρ
  /-- Whether the task has ended. -/
  state : Scheduler.TaskState
  /-- A `size_t`. -/
  numTimesScheduled : UInt32
  /-- The memory to free with the task. -/
  allocations : Owned Scheduler.TaskAllocation ι
  deriving DecidableEq, Repr

namespace OwningTask

variable {ρ ι : Type}

/-- The implicit move constructor: the registers and numbers are copied, the vector is moved. -/
def moveConstruct (other : OwningTask ρ ι) : OwningTask ρ ι × OwningTask ρ ι :=
  let (allocations, left) := other.allocations.moveConstruct
  (⟨other.registers, other.state, other.numTimesScheduled, allocations⟩,
    { other with allocations := left })

/-- The implicit move assignment, member by member. -/
def moveAssign (target source : OwningTask ρ ι) : OwningTask ρ ι × OwningTask ρ ι :=
  let (allocations, left) := target.allocations.moveAssign source.allocations
  (⟨source.registers, source.state, source.numTimesScheduled, allocations⟩,
    { source with allocations := left })

/-- `Task` as an element; `registers` is `sizeof(Registers)`. -/
def element (ρ ι : Type) (registers : Nat) : ElementType (OwningTask ρ ι) ι where
  sizeof := registers + 24
  destroy task := task.allocations.destroy
  moveConstruct := moveConstruct
  moveAssign := moveAssign
  sized := by omega
  constructed _ := rfl
  emptied _ := rfl
  assigned _ _ := rfl
  swapped _ _ := rfl

end OwningTask

/-! ## The vector -/

/-- The members of the vector, with the places of its block. -/
structure Storage (α ι : Type) where
  /-- The block, or the null pointer. -/
  items : Option ι
  /-- What the places of the block hold; a place without contents was never constructed. -/
  places : List (Option α)
  /-- `num_items`. -/
  numItems : Nat
  /-- `m_capacity`. -/
  capacity : Nat
  deriving DecidableEq, Repr

namespace Storage

variable {α ι : Type}

/-- The default constructor. -/
def empty : Storage α ι := ⟨none, [], 0, 0⟩

/-- `KGeneralAllocator<T>::allocate`. -/
def allocate (malloc : Nat → Option ι) (sizeofT count : Nat) (heap : HeapLog ι) :
    Except Fault (ι × HeapLog ι) :=
  if uintptrMax / sizeofT < count then .error .abort
  else match malloc (count * sizeofT) with
    | none => .error .abort
    | some block => .ok (block, { heap with granted := heap.granted ++ [block] })

/-- The object in a place. -/
def object (places : List (Option α)) (pos : Nat) : Except Fault α :=
  match places[pos]? with
  | some (some element) => .ok element
  | _ => .error .undefined

/-- `new (&items[pos]) value_type(..)`. -/
def construct (places : List (Option α)) (pos : Nat) (element : α) :
    Except Fault (List (Option α)) :=
  if pos < places.length then .ok (places.set pos (some element)) else .error .undefined

section Elements

variable (elem : ElementType α ι)

/-- `std::destroy_n` from a place on. -/
def destroyN (places : List (Option α)) : Nat → Nat → HeapLog ι → Except Fault (HeapLog ι)
  | 0, _, heap => .ok heap
  | count + 1, first, heap => do
    let element ← object places first
    destroyN places count (first + 1) (heap.release (elem.destroy element))

/-- `std::uninitialized_move` of the places from `i` on to the same places of a new block. -/
def uninitializedMove :
    Nat → Nat → List (Option α) → List (Option α) →
      Except Fault (List (Option α) × List (Option α))
  | 0, _, items, newItems => .ok (items, newItems)
  | count + 1, i, items, newItems => do
    let other ← object items i
    let (element, left) := elem.moveConstruct other
    let newItems ← construct newItems i element
    uninitializedMove count (i + 1) (items.set i (some left)) newItems

/-- `std::move` of a number of places from `source` on to the places from `target` on. -/
def moveDown : Nat → Nat → Nat → List (Option α) → Except Fault (List (Option α))
  | 0, _, _, places => .ok places
  | count + 1, source, target, places => do
    let held ← object places target
    let other ← object places source
    let (element, left) := elem.moveAssign held other
    moveDown count (source + 1) (target + 1)
      ((places.set target (some element)).set source (some left))

/-- `reserve`. -/
def reserve (malloc : Nat → Option ι) (num : Nat) (v : Storage α ι) (heap : HeapLog ι) :
    Except Fault (Storage α ι × HeapLog ι) :=
  if num ≤ v.capacity then .ok (v, heap)
  else do
    let (newItems, heap) ← allocate malloc elem.sizeof num heap
    let (old, places) ←
      uninitializedMove elem v.numItems 0 v.places (List.replicate num none)
    let heap ← destroyN elem old v.numItems 0 heap
    return (⟨some newItems, places, v.numItems, num⟩, heap.release v.items.toList)

/-- `push_back`; its parameter is destroyed when it returns. -/
def pushBack (malloc : Nat → Option ι) (item : α) (v : Storage α ι) (heap : HeapLog ι) :
    Except Fault (Storage α ι × HeapLog ι) := do
  let (v, heap) ← v.reserve elem malloc (wrap (v.numItems + 1)) heap
  let (element, left) := elem.moveConstruct item
  let places ← construct v.places v.numItems element
  return ({ v with places, numItems := wrap (v.numItems + 1) }, heap.release (elem.destroy left))

/-- `erase(pos)`. -/
def erase (pos : Nat) (v : Storage α ι) (heap : HeapLog ι) :
    Except Fault (Storage α ι × HeapLog ι) :=
  if pos = v.numItems then .ok (v, heap)
  else do
    let heap ← destroyN elem v.places 1 pos heap
    let places ← moveDown elem (v.numItems - (pos + 1)) (pos + 1) pos v.places
    return ({ v with places, numItems := v.numItems - 1 }, heap)

/-- `erase(first, last)`. -/
def eraseRange (first last : Nat) (v : Storage α ι) (heap : HeapLog ι) :
    Except Fault (Storage α ι × HeapLog ι) :=
  if first = last then .ok (v, heap)
  else do
    let heap ← destroyN elem v.places (last - first) first heap
    let places ← moveDown elem (v.numItems - last) last first v.places
    return ({ v with places, numItems := v.numItems - (last - first) }, heap)

/-- `clear`. -/
def clear (v : Storage α ι) (heap : HeapLog ι) : Except Fault (Storage α ι × HeapLog ι) := do
  let heap ← destroyN elem v.places v.numItems 0 heap
  return ({ v with numItems := 0 }, heap)

/-- The destructor. -/
def destroy (v : Storage α ι) (heap : HeapLog ι) : Except Fault (HeapLog ι) := do
  let heap ← destroyN elem v.places v.numItems 0 heap
  return heap.release v.items.toList

end Elements

/-! ## Sequences of calls -/

/-- A call, with the answers of the allocator to it. -/
inductive Call (α ι : Type) where
  /-- `push_back(item)`. -/
  | pushBack (malloc : Nat → Option ι) (item : α)
  /-- `reserve(num)`. -/
  | reserve (malloc : Nat → Option ι) (num : Nat)
  /-- `erase(pos)`. -/
  | erase (pos : Nat)
  /-- `erase(first, last)`. -/
  | eraseRange (first last : Nat)
  /-- `clear()`. -/
  | clear

/-- One call. -/
def exec (elem : ElementType α ι) : Call α ι → Storage α ι → HeapLog ι →
    Except Fault (Storage α ι × HeapLog ι)
  | .pushBack malloc item => pushBack elem malloc item
  | .reserve malloc num => reserve elem malloc num
  | .erase pos => erase elem pos
  | .eraseRange first last => eraseRange elem first last
  | .clear => clear elem

/-- The calls one after the other. -/
def run (elem : ElementType α ι) : List (Call α ι) → Storage α ι → HeapLog ι →
    Except Fault (Storage α ι × HeapLog ι)
  | [], v, heap => .ok (v, heap)
  | call :: calls, v, heap => do
    let (v, heap) ← exec elem call v heap
    run elem calls v heap

end Storage

end FelineOS
