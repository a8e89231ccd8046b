import FelineOS.Kernel.KVectorStorage
import FelineOS.Kernel.Logger

/-!
# Appending to the growable vector

The appending members of `KVector` of `libFeline/include/feline/kvector.h`, for elements of every
type and with the places that they are constructed in. What an element owns is left out, but not
what a move leaves in the element that it takes from. A parameter that is passed by value is the
caller's copy, and a source is an object outside the vector.
-/

namespace FelineOS.KVector

/-- A type of elements. -/
structure Elements (α : Type) where
  /-- `sizeof(T)`. -/
  sizeof : Nat
  /-- What `T(std::move(item))` leaves in `item`; the new object is what `item` was. -/
  left : α → α
  /-- An object has at least a byte. -/
  sized : 0 < sizeof

namespace Elements

/-- `uint8_t` and `char`: a move is a copy. -/
def bytes : Elements UInt8 := ⟨1, id, Nat.one_pos⟩

/-- `KVector<T>` by its contents: a move swaps with a default constructed vector. -/
def vectors (β : Type) : Elements (List β) := ⟨16, fun _ => [], by decide⟩

end Elements

/-- The memory that a call finds. -/
structure Memory where
  /-- Whether `malloc` has a number of bytes. -/
  malloc : Nat → Bool
  /-- Whether the copy of an element into a place finds the memory for what it owns. -/
  copies : Nat → Bool
  /-- No object is larger than `PTRDIFF_MAX`. -/
  bounded : ∀ bytes, malloc bytes → bytes ≤ Logger.ptrdiffMax

/-- The elements of another vector, of an array or of a range. -/
structure Source {α : Type} (elem : Elements α) where
  /-- The elements. -/
  elements : List α
  /-- They are an object. -/
  object : elements.length * elem.sizeof ≤ Logger.ptrdiffMax

/-- The members of the vector, with the places of its block. -/
structure Block (α : Type) where
  /-- Whether `items` points to a block. -/
  items : Bool
  /-- What is alive in the places of the block. -/
  places : List (Option α)
  /-- `num_items`. -/
  numItems : Nat
  /-- `m_capacity`. -/
  capacity : Nat
  deriving DecidableEq, Repr

namespace Block

variable {α : Type}

/-- The default constructor. -/
def empty : Block α := ⟨false, [], 0, 0⟩

/-- `std::uninitialized_move` of the places from `i` on to the same places of a new block. -/
def uninitializedMove (places : List (Option α)) :
    Nat → Nat → List (Option α) → Except Fault (List (Option α))
  | 0, _, newItems => .ok newItems
  | count + 1, i, newItems => do
    let element ← Storage.object places i
    let newItems ← Storage.construct newItems i element
    uninitializedMove places count (i + 1) newItems

/-- `std::uninitialized_copy` of elements to the places from `pos` on. -/
def uninitializedCopy (copies : Nat → Bool) :
    List α → Nat → List (Option α) → Except Fault (List (Option α))
  | [], _, places => .ok places
  | element :: source, pos, places =>
    if copies pos then do
      let places ← Storage.construct places pos element
      uninitializedCopy copies source (pos + 1) places
    else .error .abort

/-- The loop of `append(item, count)`: one and the same `item` is moved from each time. -/
def constructMoved (left : α → α) :
    Nat → Nat → α → List (Option α) → Except Fault (List (Option α))
  | 0, _, _, places => .ok places
  | count + 1, pos, item, places => do
    let places ← Storage.construct places pos item
    constructMoved left count (pos + 1) (left item) places

/-- `std::destroy_n` from a place on. -/
def destroyN : Nat → Nat → List (Option α) → Except Fault (List (Option α))
  | 0, _, places => .ok places
  | count + 1, pos, places => do
    let _ ← Storage.object places pos
    destroyN count (pos + 1) (places.set pos none)

section Members

variable (elem : Elements α) (memory : Memory)

/-- `reserve`; what the moves left in the old block is gone with it. -/
def reserve (num : Nat) (v : Block α) : Except Fault (Block α) :=
  if num ≤ v.capacity then .ok v
  else do
    allocate memory.malloc elem.sizeof num
    let newItems ← uninitializedMove v.places v.numItems 0 (List.replicate num none)
    return ⟨true, newItems, v.numItems, num⟩

/-- `push_back`. -/
def pushBack (item : α) (v : Block α) : Except Fault (Block α) := do
  let v ← v.reserve elem memory (wrap (v.numItems + 1))
  let places ← Storage.construct v.places v.numItems item
  return { v with places, numItems := wrap (v.numItems + 1) }

/-- `append(item, count)`. -/
def appendItem (item : α) (count : Nat) (v : Block α) : Except Fault (Block α) := do
  let v ← v.reserve elem memory (wrap (v.numItems + count))
  let places ← constructMoved elem.left count v.numItems item v.places
  return { v with places, numItems := wrap (v.numItems + count) }

/-- `append` of a `KVector<T>`. -/
def appendVector (other : List α) (v : Block α) : Except Fault (Block α) := do
  let v ←
    if v.capacity < wrap (v.numItems + other.length) ∨ v.items = false then
      v.reserve elem memory (wrap (v.numItems + other.length))
    else .ok v
  let places ← uninitializedCopy memory.copies other v.numItems v.places
  return { v with places, numItems := wrap (v.numItems + other.length) }

/-- Room is made for elements and they are copied behind the last one. -/
def appendCopied (source : List α) (v : Block α) : Except Fault (Block α) := do
  let v ← v.reserve elem memory (wrap (v.numItems + source.length))
  let places ← uninitializedCopy memory.copies source v.numItems v.places
  return { v with places, numItems := wrap (v.numItems + source.length) }

/-- `append` of a `KVector<T const>`. -/
def appendConst (other : List α) : Block α → Except Fault (Block α) :=
  appendCopied elem memory other

/-- `append(pointer, len)`, of a `KVector<T const>` over the array. -/
def appendPointer (other : List α) : Block α → Except Fault (Block α) :=
  appendConst elem memory other

/-- `append(first, last)`. -/
def appendRange (range : List α) : Block α → Except Fault (Block α) :=
  appendCopied elem memory range

end Members

/-- `clear`. -/
def clear (v : Block α) : Except Fault (Block α) := do
  let places ← destroyN v.numItems 0 v.places
  return { v with places, numItems := 0 }

/-! ## Calls -/

/-- A call of a member; a count is a `size_t`. -/
inductive Call (elem : Elements α) where
  /-- `push_back(item)`. -/
  | pushBack (item : α)
  /-- `append(item, count)`. -/
  | appendItem (item : α) (count : UInt32)
  /-- `append(other)`. -/
  | appendVector (other : Source elem)
  /-- `append(other)`, of constant elements. -/
  | appendConst (other : Source elem)
  /-- `append(pointer, len)`. -/
  | appendPointer (other : Source elem)
  /-- `append(first, last)`. -/
  | appendRange (range : Source elem)
  /-- `reserve(num)`. -/
  | reserve (num : UInt32)
  /-- `clear()`. -/
  | clear

/-- One call. -/
def exec {elem : Elements α} (memory : Memory) : Call elem → Block α → Except Fault (Block α)
  | .pushBack item => pushBack elem memory item
  | .appendItem item count => appendItem elem memory item count.toNat
  | .appendVector other => appendVector elem memory other.elements
  | .appendConst other => appendConst elem memory other.elements
  | .appendPointer other => appendPointer elem memory other.elements
  | .appendRange range => appendRange elem memory range.elements
  | .reserve num => reserve elem memory num.toNat
  | .clear => clear

end Block

end FelineOS.KVector
