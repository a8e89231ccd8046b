import FelineOS.Kernel.Word
import FelineOS.Library.FlatTree

/-!
# The device tree

`arch/arm/devicetree/devicetree.cpp`, with the string functions of the C library that it calls. A
pointer is a word, and a sum with a pointer is cut to a word. The memory is not written while the
tree is walked. `big_endian<uint32_t>` is read as the number it stands for. The cursor that the
recursive calls share is an argument and part of the result. The fuel of the walk counts passes of
its loop. A string that has no end in the whole address space is a loop of `strlen` that has none.

A callback gets the address of the entry and the cell sizes, and changes a state of its own.
-/

namespace FelineOS.DeviceTree

open Library.FlatTree (Memory readBE ascii)

/-! ## Strings -/

/-- `strlen`. -/
def strlen (mem : Memory) : Nat → Nat → Except Fault Nat
  | 0, _ => .error .divergence
  | fuel + 1, str =>
    if mem str = 0 then .ok 0
    else do
      let len ← strlen mem fuel (wrap (str + 1))
      pure (len + 1)

/-- The loop of `strcmp` from an index on, for a string on the left that is given by its bytes. -/
def strcmpFrom (mem : Memory) (lhs : List UInt8) (rhs : Nat) : Nat → Nat → Int
  | 0, _ => 0
  | remaining + 1, i =>
    let l := lhs.getD i 0
    let r := mem (wrap (rhs + i))
    if l < r then -1
    else if r < l then 1
    else if r = 0 then 0
    else strcmpFrom mem lhs rhs remaining (i + 1)

/-- `strcmp`. -/
def strcmp (mem : Memory) (lhs : List UInt8) (rhs : Nat) : Int :=
  strcmpFrom mem lhs rhs uintptrMax 0

/-- The loop of `strncmp` from an index on. It does not stop at the end of a string. -/
def strncmpFrom (mem : Memory) (lhs : List UInt8) (rhs : Nat) : Nat → Nat → Int
  | 0, _ => 0
  | remaining + 1, i =>
    let l := lhs.getD i 0
    let r := mem (wrap (rhs + i))
    if l < r then -1
    else if r < l then 1
    else strncmpFrom mem lhs rhs remaining (i + 1)

/-- `strncmp(lhs, rhs, strlen(lhs))`. -/
def strncmp (mem : Memory) (lhs : List UInt8) (rhs : Nat) : Int :=
  strncmpFrom mem lhs rhs lhs.length 0

/-! ## Entries -/

/-- `enum fdt_node_type`, with the values that are none of it. -/
inductive NodeType where
  | beginNode
  | endNode
  | prop
  | nop
  | stop
  | invalid
  deriving DecidableEq, Repr

/-- The type that a word stands for. -/
def NodeType.ofWord : Nat → NodeType
  | 1 => .beginNode
  | 2 => .endNode
  | 3 => .prop
  | 4 => .nop
  | 9 => .stop
  | _ => .invalid

/-- `node_type`. -/
def nodeType (mem : Memory) (entry : Nat) : NodeType := .ofWord (readBE mem 4 entry)

/-- The address of `node_name`. -/
def nodeName (entry : Nat) : Nat := wrap (entry + 4)

/-- `prop.len`. -/
def propLen (mem : Memory) (entry : Nat) : Nat := readBE mem 4 (wrap (entry + 4))

/-- `prop.nameoff`. -/
def propNameoff (mem : Memory) (entry : Nat) : Nat := readBE mem 4 (wrap (entry + 8))

/-- `prop.value[i]`. -/
def propValue (mem : Memory) (entry i : Nat) : Nat := readBE mem 4 (wrap (entry + 12 + 4 * i))

/-- `pad_len`. -/
def padLen (len : Nat) : Nat := if len % 4 = 0 then len else wrap (len + (4 - len % 4))

/-- `increment_fdt_struct`. -/
def incrementFdtStruct (mem : Memory) (entry : Nat) : Except Fault Nat :=
  match nodeType mem entry with
  | .beginNode => do
    let len ← strlen mem wordLimit (nodeName entry)
    pure (wrap (entry + 4 + padLen (wrap (len + 1))))
  | .prop => pure (wrap (entry + 4 + 8 + padLen (propLen mem entry)))
  | .endNode => pure (wrap (entry + 4))
  | .nop => pure (wrap (entry + 4))
  | .stop => throw .abort
  | .invalid => throw .abort

/-! ## The walk -/

/-- `devicetree_cell_size`. -/
structure CellSize where
  /-- `address_cells`. -/
  addressCells : Nat
  /-- `size_cells`. -/
  sizeCells : Nat
  deriving DecidableEq, Repr

/-- The cell sizes that every level starts with. -/
def CellSize.initial : CellSize := ⟨2, 1⟩

variable {σ : Type}

/-- The mapped tree: `structs` and `strings`, and the memory they point to. -/
structure Blob where
  /-- The memory. -/
  mem : Memory
  /-- The variable `structs`. -/
  structs : Nat
  /-- The variable `strings`. -/
  strings : Nat

/-- The address of the name of a property. -/
def Blob.propName (blob : Blob) (entry : Nat) : Nat :=
  wrap (blob.strings + propNameoff blob.mem entry)

/-- The cell sizes after a property of the node. -/
def Blob.readCells (blob : Blob) (entry : Nat) (next : CellSize) : CellSize :=
  if strcmp blob.mem (ascii "#address-cells") (blob.propName entry) = 0 then
    { next with addressCells := propValue blob.mem entry 0 }
  else if strcmp blob.mem (ascii "#size-cells") (blob.propName entry) = 0 then
    { next with sizeCells := propValue blob.mem entry 0 }
  else next

/-- The loop of the recursive `for_each_prop_in_node`, from a pass on: the cursor and the state
that it leaves. -/
def Blob.forEachFrom (blob : Blob) (leading : List UInt8)
    (callback : Nat → CellSize → σ → Except Fault σ) :
    Nat → Bool → CellSize → CellSize → Nat → σ → Except Fault (Nat × σ)
  | 0, _, _, _, _, _ => .error .divergence
  | fuel + 1, usecallback, curr, next, node, state =>
    match nodeType blob.mem node with
    | .beginNode => do
      let matching := decide (strncmp blob.mem leading (nodeName node) = 0)
      let node ← incrementFdtStruct blob.mem node
      let (node, state) ← blob.forEachFrom leading callback fuel matching next .initial node state
      blob.forEachFrom leading callback fuel usecallback curr next node state
    | .prop => do
      let next := blob.readCells node next
      let state ← if usecallback then callback node curr state else pure state
      let node ← incrementFdtStruct blob.mem node
      blob.forEachFrom leading callback fuel usecallback curr next node state
    | .nop => do
      let node ← incrementFdtStruct blob.mem node
      blob.forEachFrom leading callback fuel usecallback curr next node state
    | .endNode => do
      let node ← incrementFdtStruct blob.mem node
      pure (node, state)
    | .stop => pure (node, state)
    | .invalid => throw .abort

/-- `for_each_prop_in_node(prefix, callback, state)`. -/
def Blob.forEachPropInNode (blob : Blob) (leading : List UInt8)
    (callback : Nat → CellSize → σ → Except Fault σ) (fuel : Nat) (state : σ) : Except Fault σ := do
  let (_, state) ←
    blob.forEachFrom leading callback fuel false .initial .initial blob.structs state
  pure state

end FelineOS.DeviceTree
