import FelineOS.Kernel.KVectorStorage
import FelineOS.Kernel.Logger
import Mathlib.Logic.Function.Basic

/-!
# Messages of the logger

`kout` of `libFeline/src/logging/logger.cpp` over a heap: an object of the class collects views of
the parts of a message, and the strings that some of the views look into, until its destructor
writes the whole message at once. Without allocations each part is written at once. The output
lock is left out, and so are the settings: `written` are the calls of the function that the level
has. A string is in the heap with its characters, and a block that is released has none.
-/

namespace FelineOS

namespace Kout

variable {ι : Type} [DecidableEq ι]

/-! ## Memory -/

/-- The characters in every allocated block; a block that holds no string has none. -/
abbrev Heap (ι : Type) : Type := ι → Option (List UInt8)

/-- `KGeneralAllocator<T>::allocate`; `malloc` may answer as the heap is. -/
def allocate (malloc : Heap ι → Nat → Option ι) (sizeofT count : Nat) (heap : Heap ι) :
    Except Fault (ι × Heap ι) :=
  if uintptrMax / sizeofT < count then .error .abort
  else match malloc heap (count * sizeofT) with
    | none => .error .abort
    | some block => .ok (block, Function.update heap block (some []))

/-- `return_memory`: a null pointer is not released. -/
def returnMemory : Option ι → Heap ι → Except Fault (Heap ι)
  | none, heap => .ok heap
  | some block, heap =>
    if (heap block).isSome then .ok (Function.update heap block none) else .error .undefined

/-- The characters of a literal. -/
def ascii (text : String) : List UInt8 := text.toList.map fun c => UInt8.ofNat c.toNat

/-- `KStringView`. -/
inductive KStringView (ι : Type) where
  /-- Characters that are there for longer than the message. -/
  | literal (chars : List UInt8)
  /-- The first characters of a block. -/
  | block (items : Option ι) (len : Nat)
  deriving DecidableEq, Repr

namespace KStringView

/-- `length`. -/
def length : KStringView ι → Nat
  | .literal chars => chars.length
  | .block _ len => len

/-- The characters from `begin` to `end`. -/
def chars (heap : Heap ι) : KStringView ι → Except Fault (List UInt8)
  | .literal chars => .ok chars
  | .block items len =>
    if len = 0 then .ok []
    else match items.bind heap with
      | none => .error .undefined
      | some held => if len ≤ held.length then .ok (held.take len) else .error .undefined

end KStringView

/-- Characters are written to the places of a block from `pos` on. -/
def write (items : Option ι) (pos : Nat) (chars : List UInt8) (heap : Heap ι) :
    Except Fault (Heap ι) :=
  match items with
  | none => if chars = [] then .ok heap else .error .undefined
  | some block =>
    match heap block with
    | none => .error .undefined
    | some held =>
      if pos ≤ held.length then
        .ok (Function.update heap block
          (some (held.take pos ++ chars ++ held.drop (pos + chars.length))))
      else .error .undefined

/-! ## Strings -/

/-- `KString`, with its characters in the heap. -/
structure KString (ι : Type) where
  /-- The block, or the null pointer. -/
  items : Option ι
  /-- `num_items`. -/
  numItems : Nat
  /-- `m_capacity`. -/
  capacity : Nat
  deriving DecidableEq, Repr

namespace KString

/-- The default constructor. -/
def empty : KString ι := ⟨none, 0, 0⟩

/-- The view of the whole string. -/
def view (str : KString ι) : KStringView ι := .block str.items str.numItems

section Members

variable (malloc : Heap ι → Nat → Option ι)

/-- `reserve`. -/
def reserve (num : Nat) (str : KString ι) (heap : Heap ι) : Except Fault (KString ι × Heap ι) :=
  if num ≤ str.capacity then .ok (str, heap)
  else do
    let (newItems, heap) ← allocate malloc 1 num heap
    let chars ← str.view.chars heap
    let heap ← write (some newItems) 0 chars heap
    let heap ← returnMemory str.items heap
    return (⟨some newItems, str.numItems, num⟩, heap)

/-- `append(item, count)`. -/
def append (item : UInt8) (count : Nat) (str : KString ι) (heap : Heap ι) :
    Except Fault (KString ι × Heap ι) := do
  let (str, heap) ← str.reserve malloc (wrap (str.numItems + count)) heap
  if str.numItems + count ≤ str.capacity then do
    let heap ← write str.items str.numItems (List.replicate count item) heap
    return ({ str with numItems := wrap (str.numItems + count) }, heap)
  else .error .undefined

/-- The copy constructor. -/
def copy (str : KString ι) (heap : Heap ι) : Except Fault (KString ι × Heap ι) := do
  let (items, heap) ← allocate malloc 1 str.numItems heap
  let chars ← str.view.chars heap
  let heap ← write (some items) 0 chars heap
  return (⟨some items, str.numItems, str.numItems⟩, heap)

/-- The destructor. -/
def destroy (str : KString ι) (heap : Heap ι) : Except Fault (Heap ι) :=
  returnMemory str.items heap

/-- A vector whose places are all constructed. -/
def full {β : Type} (items : List β) : KVector β := ⟨items, items.length, Nat.le_refl _⟩

/-- `ntostr` into a string. -/
def ntostr (fuel num base minWidth : Nat) (heap : Heap ι) : Except Fault (KString ι × Heap ι) := do
  let (str, heap) ← empty.reserve malloc minWidth heap
  if base < 2 ∨ 16 < base then return (str, heap)
  else if num = 0 then str.append malloc 0x30 minWidth heap
  else do
    let len ← Logger.strLen num base fuel 1 0
    let len := if len < minWidth then minWidth else len
    let (str, heap) ← str.append malloc 0 len heap
    let chars ← str.view.chars heap
    let digits ← Logger.putDigits num base len 1 (full chars)
    let heap ← write str.items 0 digits.items heap
    return (str, heap)

/-- `dec`. -/
def dec (fuel n minWidth : Nat) (heap : Heap ι) : Except Fault (KString ι × Heap ι) :=
  ntostr malloc fuel n 10 minWidth heap

end Members

end KString

/-! ## Numbers without memory -/

/-- The loop of `ntostr` over the places of an array in front of an offset. -/
def putPlaces (num base : Nat) : Nat → Nat → List UInt8 → Except Fault (List UInt8)
  | 0, _, str => .ok str
  | offset + 1, todivby, str =>
    if todivby = 0 then .error .undefined
    else putPlaces num base offset (todivby * base % 2 ^ 64)
      (str.set offset (UInt8.ofNat (num / todivby % base) + 0x30))

/-- `ntostr` into an array. -/
def ntostrArray (num base : Nat) (str : List UInt8) : Except Fault (List UInt8) :=
  if base < 2 ∨ 16 < base then .ok str
  else if str.length < 17 then .error .undefined
  else putPlaces num base 16 1 (str.set 16 0)

/-- `itostr` into an array. -/
def itostrArray (num : Nat) (str : List UInt8) : Except Fault (List UInt8) :=
  ntostrArray num 10 str

/-- `KStringView` of a C string in an array. -/
def ofCString (str : List UInt8) : Except Fault (KStringView ι) :=
  if 0 ∈ str then .ok (.literal (str.takeWhile (· ≠ 0))) else .error .undefined

/-! ## Vectors of objects -/

/-- `append(item)` of a vector of objects. -/
def append {β : Type} (malloc : Heap ι → Nat → Option ι) (sizeofT : Nat) (item : β)
    (v : Owned β ι) (heap : Heap ι) : Except Fault (Owned β ι × Heap ι) :=
  let num := wrap (v.vector.items.length + 1)
  if num ≤ v.vector.capacity then
    if room : (v.vector.items ++ [item]).length ≤ v.vector.capacity then
      .ok (⟨v.items, v.vector.items ++ [item], v.vector.capacity, room⟩, heap)
    else .error .undefined
  else do
    let (newItems, heap) ← allocate malloc sizeofT num heap
    let heap ← returnMemory v.items heap
    if room : (v.vector.items ++ [item]).length ≤ num then
      return (⟨some newItems, v.vector.items ++ [item], num, room⟩, heap)
    else .error .undefined

end Kout

/-! ## The class -/

/-- `log_level`. -/
inductive LogLevel where
  /-- `critical`. -/
  | critical
  /-- `error`. -/
  | error
  /-- `warning`. -/
  | warning
  /-- `log`. -/
  | log
  /-- `debug`. -/
  | debug
  deriving DecidableEq, Repr

/-- The part that a message of the level starts with. -/
def LogLevel.text : LogLevel → List UInt8
  | .critical => Kout.ascii "FOS Critical "
  | .error => Kout.ascii "FOS Error "
  | .warning => Kout.ascii "FOS Warning "
  | .log => Kout.ascii "FOS Log "
  | .debug => Kout.ascii "FOS Debug "

/-- `std::source_location`. -/
structure SourceLocation where
  /-- `file_name`. -/
  fileName : List UInt8
  /-- `function_name`. -/
  functionName : List UInt8
  /-- `line`. -/
  line : UInt32
  /-- `column`. -/
  column : UInt32
  deriving DecidableEq, Repr

/-- The members of a `kout`, with the calls of its function. -/
structure Kout (ι : Type) where
  /-- The parts so far. -/
  strings : Owned (Kout.KStringView ι) ι
  /-- The strings that some parts are views of. -/
  lifetimeExtender : Owned (Kout.KString ι) ι
  /-- Whether the message is collected. -/
  alloc : Bool
  /-- The texts that the function was called with. -/
  written : List (List UInt8)

namespace Kout

variable {ι : Type} [DecidableEq ι] (malloc : Heap ι → Nat → Option ι)

/-- `add_part`. -/
def addPart (str : KStringView ι) (out : Kout ι) (heap : Heap ι) :
    Except Fault (Kout ι × Heap ι) :=
  if out.alloc then do
    let (strings, heap) ← append malloc 8 str out.strings heap
    return ({ out with strings }, heap)
  else do
    let text ← str.chars heap
    return ({ out with written := out.written ++ [text] }, heap)

/-- `operator<<` for a `KString`, which is destroyed with the end of the function. -/
def outString (str : KString ι) (out : Kout ι) (heap : Heap ι) : Except Fault (Kout ι × Heap ι) :=
  if out.alloc then do
    let (item, heap) ← str.copy malloc heap
    let (lifetimeExtender, heap) ← append malloc 16 item out.lifetimeExtender heap
    match lifetimeExtender.vector.items.getLast? with
    | none => .error .undefined
    | some last => do
      let (out, heap) ← addPart malloc last.view { out with lifetimeExtender } heap
      let heap ← str.destroy heap
      return (out, heap)
  else do
    let (out, heap) ← addPart malloc str.view out heap
    let heap ← str.destroy heap
    return (out, heap)

/-- `operator<<` for a `char`; a string is made for it when the message is collected. -/
def outChar (c : UInt8) (out : Kout ι) (heap : Heap ι) : Except Fault (Kout ι × Heap ι) :=
  if out.alloc then do
    let (tempString, heap) ← KString.empty.append malloc c 1 heap
    let (str, heap) ← tempString.copy malloc heap
    let (out, heap) ← outString malloc str out heap
    let heap ← tempString.destroy heap
    return (out, heap)
  else addPart malloc (.literal [c]) out heap

/-- `relative_path`, which leaves out the first characters of the file's name. -/
def relativePath (truncate : Nat) (loc : SourceLocation) : Except Fault (KStringView ι) :=
  if truncate ≤ loc.fileName.length then .ok (.literal (loc.fileName.drop truncate))
  else .error .undefined

/-- The constructor; `buf` is its array of 20 characters as the stack has it. -/
def construct (fuel truncate : Nat) (level : LogLevel) (loc : SourceLocation) (alloc : Bool)
    (buf : List UInt8) (heap : Heap ι) : Except Fault (Kout ι × Heap ι) := do
  let out : Kout ι := ⟨Owned.empty, Owned.empty, alloc, []⟩
  let (out, heap) ← addPart malloc (.literal level.text) out heap
  let path ← relativePath truncate loc
  let (out, heap) ← addPart malloc path out heap
  let (out, heap) ← outChar malloc 0x3A out heap
  if alloc then do
    let (line, heap) ← KString.dec malloc fuel loc.line.toNat 1 heap
    let (out, heap) ← outString malloc line out heap
    let (out, heap) ← outChar malloc 0x3A out heap
    let (column, heap) ← KString.dec malloc fuel loc.column.toNat 1 heap
    let (out, heap) ← outString malloc column out heap
    let (out, heap) ← outChar malloc 0x28 out heap
    let (out, heap) ← addPart malloc (.literal loc.functionName) out heap
    addPart malloc (.literal (ascii "): ")) out heap
  else do
    let buf ← itostrArray loc.line.toNat buf
    let line ← ofCString buf
    let (out, heap) ← addPart malloc line out heap
    let (out, heap) ← outChar malloc 0x3A out heap
    let buf ← itostrArray loc.column.toNat buf
    let column ← ofCString buf
    let (out, heap) ← addPart malloc column out heap
    let (out, heap) ← outChar malloc 0x28 out heap
    let (out, heap) ← addPart malloc (.literal loc.functionName) out heap
    addPart malloc (.literal (ascii "): ")) out heap

/-- The loop of `do_write` over the parts; `check_index` aborts behind the string. -/
def copyParts (fullString : KString ι) :
    List (KStringView ι) → Nat → Heap ι → Except Fault (Heap ι)
  | [], _, heap => .ok heap
  | str :: strings, currentIndex, heap =>
    if fullString.numItems ≤ currentIndex then .error .abort
    else do
      let chars ← str.chars heap
      let heap ←
        if currentIndex + chars.length ≤ fullString.capacity then
          write fullString.items currentIndex chars heap
        else .error .undefined
      copyParts fullString strings (wrap (currentIndex + str.length)) heap

/-- `do_write`. -/
def doWrite (out : Kout ι) (heap : Heap ι) : Except Fault (Kout ι × Heap ι) := do
  assert out.alloc
  let totalLength := out.strings.vector.items.foldl (fun sum str => wrap (sum + str.length)) 0
  let (fullString, heap) ← KString.empty.append malloc 0 totalLength heap
  let heap ← copyParts fullString out.strings.vector.items 0 heap
  let text ← fullString.view.chars heap
  let heap ← fullString.destroy heap
  return ({ out with written := out.written ++ [text] }, heap)

/-- The members are destroyed, the last one first. -/
def destroyMembers (out : Kout ι) (heap : Heap ι) : Except Fault (Heap ι) := do
  let heap ← out.lifetimeExtender.vector.items.foldlM (fun heap str => str.destroy heap) heap
  let heap ← returnMemory out.lifetimeExtender.items heap
  returnMemory out.strings.items heap

/-- The destructor: the calls of the function, and the heap that is left. -/
def destroy (out : Kout ι) (heap : Heap ι) : Except Fault (List (List UInt8) × Heap ι) := do
  let (out, heap) ← addPart malloc (.literal (ascii "\n")) out heap
  let (out, heap) ← if out.alloc then doWrite malloc out heap else .ok (out, heap)
  let heap ← destroyMembers out heap
  return (out.written, heap)

/-! ## Whole messages -/

/-- What can be put out. -/
inductive Item where
  /-- A `KStringView`, or the C string that one is made of. -/
  | view (chars : List UInt8)
  /-- A `KString` that the caller makes, with the places that it has. -/
  | string (chars : List UInt8) (capacity : UInt32) (fits : chars.length ≤ capacity.toNat)
  /-- A `char`. -/
  | char (c : UInt8)

/-- The caller makes a string. -/
def makeString (chars : List UInt8) (capacity : Nat) (heap : Heap ι) :
    Except Fault (KString ι × Heap ι) := do
  let (str, heap) ← KString.empty.reserve malloc capacity heap
  let heap ← write str.items 0 chars heap
  return ({ str with numItems := chars.length }, heap)

/-- One item. -/
def put (item : Item) (out : Kout ι) (heap : Heap ι) : Except Fault (Kout ι × Heap ι) :=
  match item with
  | .view chars => addPart malloc (.literal chars) out heap
  | .string chars capacity _ => do
    let (str, heap) ← makeString malloc chars capacity.toNat heap
    outString malloc str out heap
  | .char c => outChar malloc c out heap

/-- The items one after the other. -/
def putAll : List Item → Kout ι → Heap ι → Except Fault (Kout ι × Heap ι)
  | [], out, heap => .ok (out, heap)
  | item :: items, out, heap => do
    let (out, heap) ← put malloc item out heap
    putAll items out heap

/-- A statement that makes a `kout`, puts items out and destroys it. -/
def log (fuel truncate : Nat) (level : LogLevel) (loc : SourceLocation) (alloc : Bool)
    (buf : List UInt8) (items : List Item) (heap : Heap ι) :
    Except Fault (List (List UInt8) × Heap ι) := do
  let (out, heap) ← construct malloc fuel truncate level loc alloc buf heap
  let (out, heap) ← putAll malloc items out heap
  destroy malloc out heap

end Kout

end FelineOS
