import FelineOS.Kernel.Word

/-!
# Objects of the classes `page` and `largePage`

The members of `kernel/kernel/page.cpp` on the objects that a program has made. `get_chunk_size` is
a virtual function, so it goes by the class of the object, except in a constructor of `page`, which
runs before the object is a `largePage`. It returns an `unsigned long long`, and cutting a result
to a `uintptr_t` loses nothing of a chunk size.
-/

namespace FelineOS.PageObject

/-- The class of an object. -/
inductive Class where
  /-- `page`. -/
  | page
  /-- `largePage`. -/
  | largePage
  deriving DecidableEq, Repr

/-- `get_chunk_size`: `PHYS_MEM_CHUNK_SIZE` or `LARGE_CHUNK_SIZE`. -/
def Class.getChunkSize : Class → UInt32
  | .page => 0x1000
  | .largePage => 0x100000

/-- An object. -/
structure Object where
  /-- Its class. -/
  kind : Class
  /-- `addr`. -/
  addr : UInt32
  deriving DecidableEq, Repr

/-- `UINTPTR_MAX`. -/
def uintptrMax : UInt32 := 0xFFFFFFFF

/-- `addr &= ~(get_chunk_size() - 1)`. -/
def cutOff (chunk addr : UInt32) : UInt32 := addr &&& ~~~(chunk - 1)

/-- The constructors of both classes, from a pointer or an integer. -/
def construct (kind : Class) (virtAddr : UInt32) : Object :=
  -- the constructor of `largePage` only calls that of `page`
  ⟨kind, cutOff Class.page.getChunkSize virtAddr⟩

namespace Object

/-- `set`. -/
def set (o : Object) (newAddr : UInt32) : Object :=
  { o with addr := cutOff o.kind.getChunkSize newAddr }

/-- The prefix `operator++`. -/
def increment (o : Object) : Object :=
  if o.addr ≤ uintptrMax - o.kind.getChunkSize then
    { o with addr := o.addr + o.kind.getChunkSize }
  else { o with addr := uintptrMax }

/-- The prefix `operator--`. -/
def decrement (o : Object) : Object :=
  if o.kind.getChunkSize ≤ o.addr then { o with addr := o.addr - o.kind.getChunkSize }
  else { o with addr := 0 }

/-- `operator+=`. -/
def addAssign (o rhs : Object) : Except Fault Object :=
  if o.addr < uintptrMax - rhs.addr then .ok { o with addr := o.addr + rhs.addr }
  else .error .pageRange

/-- `operator-=`. -/
def subAssign (o rhs : Object) : Except Fault Object :=
  if rhs.addr ≤ o.addr then .ok { o with addr := o.addr - rhs.addr } else .error .pageRange

/-- A `page` made from an object of either class. -/
def slice (o : Object) : Object := { o with kind := .page }

end Object

/-- `operator+`; its left operand is a `page` of its own. -/
def add (lhs rhs : Object) : Except Fault Object := lhs.slice.addAssign rhs

/-- `operator-`. -/
def sub (lhs rhs : Object) : Except Fault Object := lhs.slice.subAssign rhs

/-! ## Programs -/

/-- What a program does with its objects, which are numbered in the order they were made. -/
inductive Call where
  /-- A constructor. -/
  | construct (kind : Class) (virtAddr : UInt32)
  /-- `set`. -/
  | set (i : Nat) (newAddr : UInt32)
  /-- The prefix `operator++`. -/
  | preIncrement (i : Nat)
  /-- The postfix `operator++`, which returns a `page`. -/
  | postIncrement (i : Nat)
  /-- The prefix `operator--`. -/
  | preDecrement (i : Nat)
  /-- The postfix `operator--`. -/
  | postDecrement (i : Nat)
  /-- `operator+=`. -/
  | addAssign (i j : Nat)
  /-- `operator-=`. -/
  | subAssign (i j : Nat)
  /-- `operator+`, which returns a `page`. -/
  | add (i j : Nat)
  /-- `operator-`. -/
  | sub (i j : Nat)
  deriving DecidableEq, Repr

/-- The object with a number. -/
def fetch (objects : List Object) (i : Nat) : Except Fault Object :=
  match objects[i]? with
  | some o => .ok o
  | none => .error .undefined

/-- One call. -/
def exec (objects : List Object) : Call → Except Fault (List Object)
  | .construct kind virtAddr => .ok (objects ++ [construct kind virtAddr])
  | .set i newAddr => do
    let o ← fetch objects i
    return objects.set i (o.set newAddr)
  | .preIncrement i => do
    let o ← fetch objects i
    return objects.set i o.increment
  | .postIncrement i => do
    let o ← fetch objects i
    return objects.set i o.increment ++ [o.slice]
  | .preDecrement i => do
    let o ← fetch objects i
    return objects.set i o.decrement
  | .postDecrement i => do
    let o ← fetch objects i
    return objects.set i o.decrement ++ [o.slice]
  | .addAssign i j => do
    let o ← fetch objects i
    let rhs ← fetch objects j
    let o ← o.addAssign rhs
    return objects.set i o
  | .subAssign i j => do
    let o ← fetch objects i
    let rhs ← fetch objects j
    let o ← o.subAssign rhs
    return objects.set i o
  | .add i j => do
    let lhs ← fetch objects i
    let rhs ← fetch objects j
    let result ← add lhs rhs
    return objects ++ [result]
  | .sub i j => do
    let lhs ← fetch objects i
    let rhs ← fetch objects j
    let result ← sub lhs rhs
    return objects ++ [result]

end FelineOS.PageObject
