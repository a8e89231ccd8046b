import FelineOS.Kernel.Word

/-!
# The registry of destructors

`__cxa_atexit` and `__cxa_finalize` of `libc/icxxabi/icxxabi.cpp`. A pointer is a word, with zero
for `nullptr`. What a destructor does is left out, except that it does not register or finalize
itself; a call through a null pointer is undefined.
-/

namespace FelineOS.Icxxabi

/-- `atexit_func_entry_t`. -/
structure AtexitFuncEntry where
  /-- `destructor_func`. -/
  destructorFunc : UInt32
  /-- `obj_ptr`. -/
  objPtr : UInt32
  /-- `dso_handle`. -/
  dsoHandle : UInt32
  deriving DecidableEq, Repr

/-- `ATEXIT_MAX_FUNCS`. -/
def atexitMaxFuncs : Nat := 128

/-- The two variables of the file. -/
structure Registry where
  /-- `__atexit_funcs`. -/
  funcs : List AtexitFuncEntry
  /-- `__atexit_func_count`. -/
  count : Nat
  deriving DecidableEq, Repr

/-- The variables at the start of a program. -/
def Registry.init : Registry := ⟨List.replicate atexitMaxFuncs ⟨0, 0, 0⟩, 0⟩

/-- An entry of the table is read. -/
def load (funcs : List AtexitFuncEntry) (i : Nat) : Except Fault AtexitFuncEntry :=
  match funcs[i]? with
  | some entry => .ok entry
  | none => .error .undefined

/-- An entry of the table is written. -/
def store (funcs : List AtexitFuncEntry) (i : Nat) (entry : AtexitFuncEntry) :
    Except Fault (List AtexitFuncEntry) :=
  if i < funcs.length then .ok (funcs.set i entry) else .error .undefined

/-- `(*entry.destructor_func)(entry.obj_ptr)`. -/
def call (entry : AtexitFuncEntry) : Except Fault Unit :=
  if entry.destructorFunc = 0 then .error .undefined else .ok ()

/-- `__cxa_atexit`. -/
def cxaAtexit (entry : AtexitFuncEntry) (r : Registry) : Except Fault (Registry × Int) :=
  if atexitMaxFuncs ≤ r.count then .ok (r, -1)
  else do
    let funcs ← store r.funcs r.count entry
    return (⟨funcs, r.count + 1⟩, 0)

/-- The loop for a function that is not null, over the entries below an index. -/
def runBelow (funcs : List AtexitFuncEntry) : Nat → Except Fault (List AtexitFuncEntry)
  | 0 => .ok []
  | i + 1 => do
    let entry ← load funcs i
    if entry.destructorFunc ≠ 0 then do
      call entry
      let ran ← runBelow funcs i
      return entry :: ran
    else runBelow funcs i

/-- The loop that slides the entries above an index down. -/
def slide : Nat → Nat → List AtexitFuncEntry → Except Fault (List AtexitFuncEntry)
  | 0, _, funcs => .ok funcs
  | remaining + 1, j, funcs => do
    let above ← load funcs (j + 1)
    let funcs ← store funcs j above
    slide remaining (j + 1) funcs

/-- The loop for a null function, over the entries below an index. -/
def removeBelow (f : UInt32) : Nat → Registry → Except Fault (Registry × List AtexitFuncEntry)
  | 0, r => .ok (r, [])
  | i + 1, r => do
    let entry ← load r.funcs i
    if entry.destructorFunc = f then do
      call entry
      let funcs ← store r.funcs i { entry with destructorFunc := 0 }
      let funcs ← slide (r.count - i) i funcs
      let (r, ran) ← removeBelow f i ⟨funcs, r.count - 1⟩
      return (r, entry :: ran)
    else removeBelow f i r

/-- `__cxa_finalize`: the variables after it and the entries that it ran, in their order. -/
def cxaFinalize (f : UInt32) (r : Registry) : Except Fault (Registry × List AtexitFuncEntry) :=
  if f ≠ 0 then do
    let ran ← runBelow r.funcs r.count
    return (r, ran)
  else removeBelow f r.count r

/-! ## Programs -/

/-- A call. -/
inductive Call where
  /-- `__cxa_atexit`. -/
  | atexit (entry : AtexitFuncEntry)
  /-- `__cxa_finalize`. -/
  | finalize (f : UInt32)
  deriving DecidableEq, Repr

/-- One call: the variables after it, and what it ran. -/
def exec (r : Registry) : Call → Except Fault (Registry × List AtexitFuncEntry)
  | .atexit entry => do
    let (r, _) ← cxaAtexit entry r
    return (r, [])
  | .finalize f => cxaFinalize f r

/-- The calls of a run, one after the other. -/
def run : Registry → List Call → Except Fault (Registry × List AtexitFuncEntry)
  | r, [] => .ok (r, [])
  | r, call :: calls => do
    let (r, ran) ← exec r call
    let (r, later) ← run r calls
    return (r, ran ++ later)

end FelineOS.Icxxabi
