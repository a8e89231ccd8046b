import FelineOS.Libc.Icxxabi

/-!
# What the registry of destructors is for

The entries that are registered and have not run, oldest first, with what each call does to them.
-/

namespace FelineOS.Icxxabi

/-- The entries that a `__cxa_finalize` is about. -/
def due (f : UInt32) (live : List AtexitFuncEntry) : List AtexitFuncEntry :=
  if f = 0 then live else live.filter fun entry => entry.destructorFunc = f

/-- The entries that it leaves. -/
def spared (f : UInt32) (live : List AtexitFuncEntry) : List AtexitFuncEntry :=
  if f = 0 then [] else live.filter fun entry => entry.destructorFunc ≠ f

/-- The entries behind a registration; the table takes no more than it has places for. -/
def registered (entry : AtexitFuncEntry) (live : List AtexitFuncEntry) : List AtexitFuncEntry :=
  if live.length < atexitMaxFuncs then live ++ [entry] else live

/-- The entries behind a call. -/
def Call.leaves (live : List AtexitFuncEntry) : Call → List AtexitFuncEntry
  | .atexit entry => registered entry live
  | .finalize f => spared f live

/-- What a call runs: what is due, the most recent first. -/
def Call.runs (live : List AtexitFuncEntry) : Call → List AtexitFuncEntry
  | .atexit _ => []
  | .finalize f => (due f live).reverse

/-- The table of the code holds these entries. -/
structure Registry.Holds (r : Registry) (live : List AtexitFuncEntry) : Prop where
  /-- The table has its size. -/
  size : r.funcs.length = atexitMaxFuncs
  /-- The counter is their number. -/
  count : r.count = live.length
  /-- They are in the first places. -/
  entries : r.funcs.take live.length = live

/-- The code does what the calls are for, from entries that it holds on. -/
def Follows : Registry → List AtexitFuncEntry → List Call → Prop
  | r, live, [] => r.Holds live
  | r, live, call :: calls => r.Holds live ∧
    ∃ after, exec r call = .ok (after, call.runs live) ∧ Follows after (call.leaves live) calls

/-- The entries that a run registers. -/
def registrations (calls : List Call) : List AtexitFuncEntry :=
  calls.filterMap fun
    | .atexit entry => some entry
    | .finalize _ => none

/-- A program does with its destructors what its calls are for, and runs none of them twice. -/
structure Finalizes (calls : List Call) : Prop where
  /-- Every call runs what is due and keeps the others. -/
  follows : Follows Registry.init [] calls
  /-- Over the whole run an entry is run no more often than it was registered. -/
  once : ∀ after ran, run Registry.init calls = .ok (after, ran) →
    ∀ entry, ran.count entry ≤ (registrations calls).count entry

/-- No finalization comes to a destructor: with a null function it comes to no entry, with another
to entries without one. -/
def Idle : List AtexitFuncEntry → List Call → Prop
  | _, [] => True
  | live, .atexit entry :: calls => Idle (registered entry live) calls
  | live, .finalize f :: calls =>
    (∀ entry ∈ live, f ≠ 0 ∧ entry.destructorFunc = 0) ∧ Idle live calls

end FelineOS.Icxxabi
