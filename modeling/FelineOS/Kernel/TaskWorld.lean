import FelineOS.Kernel.Scheduler
import FelineOS.Library.WordMemory

/-!
# Tasks in the memory of a machine

The steps of `scheduler.cpp` and `task.cpp` as they look to the machine, for any of the targets. A
task that waits has its registers in a `struct Registers`, which moves when the task is swapped or
copied, and its stack. What the C++ code does between the calls of the assembly code is any change
of the machine that leaves both alone.
-/

namespace FelineOS.Tasks

open Library

/-- Some bytes of the memory. -/
structure Area where
  /-- The first address. -/
  base : BitVec 32
  /-- The number of bytes. -/
  length : Nat
  deriving Repr

/-- Some bytes that are in none of the areas. -/
def Outside (written : List Area) (base : BitVec 32) (length : Nat) : Prop :=
  ∀ a ∈ written, Memory.AreasApart base length a.base a.length

instance (written : List Area) (base : BitVec 32) (length : Nat) :
    Decidable (Outside written base length) := inferInstanceAs (Decidable (∀ a ∈ written, _))

/-- What a target keeps of a task, and what its assembly code does. -/
structure Target (σ κ : Type) where
  /-- The memory. -/
  memory : σ → Memory
  /-- `sizeof(Registers)`. -/
  sizeofRegisters : Nat
  /-- The stack of a task that waits, as far as it matters. -/
  stack : κ → Area
  /-- The memory has the registers of a task at an address, and its stack. -/
  Held : Memory → BitVec 32 → κ → Prop
  /-- What the machine has of the running task, with as much of the stack as there is of another
  one. -/
  reads : σ → κ → κ
  /-- The context of the scheduler. -/
  context : κ → Scheduler.Context κ
  /-- `create_new_task` lays out a stack, which writes to some areas, and then fills the registers
  of the new task at an address. -/
  Creates : σ → List Area → σ → σ → BitVec 32 → κ → Prop
  /-- `swap_task_registers` writes to some areas. It saves the running task at the first address and
  loads another one from the second. -/
  Switches : σ → List Area → σ → BitVec 32 → κ → BitVec 32 → Prop

/-- A task that waits. -/
structure Waiting (κ : Type) where
  /-- The number of the task. -/
  id : Nat
  /-- `&registers`. -/
  area : BitVec 32
  /-- What the task gets back. -/
  kept : κ

variable {σ κ : Type}

/-- Some areas do not belong to a task. -/
def Target.Apart (target : Target σ κ) (t : Waiting κ) (written : List Area) : Prop :=
  Outside written t.area target.sizeofRegisters ∧
    Outside written (target.stack t.kept).base (target.stack t.kept).length

/-- The memory was changed, but the stack of a task is the same and its registers are, too, at
their new place. -/
structure Target.Left (target : Target σ κ) (m later : Memory) (old new : Waiting κ) : Prop where
  /-- The same task. -/
  id : new.id = old.id
  /-- It still gets the same back. -/
  kept : new.kept = old.kept
  /-- The registers. -/
  area : m.Copied old.area later new.area target.sizeofRegisters
  /-- The stack. -/
  stack : later.Same m (target.stack old.kept).base (target.stack old.kept).length

/-- The machine and all tasks, of which one runs. -/
structure World (σ κ : Type) where
  /-- The machine. -/
  machine : σ
  /-- The running task. -/
  running : Nat
  /-- The other tasks. -/
  waiting : List (Waiting κ)
  /-- What happened so far, as the scheduler sees it. -/
  history : List (Scheduler.Event κ)

/-- One step of the running task. -/
inductive World.Step (target : Target σ κ) : World σ κ → World σ κ → Prop where
  /-- It runs some code, which may move the registers of the other tasks. -/
  | work {w : World σ κ} {later : σ} {moved : List (Waiting κ)}
    (left : List.Forall₂ (target.Left (target.memory w.machine) (target.memory later)) w.waiting
      moved) : Step target w { w with machine := later, waiting := moved }
  /-- It creates a task. -/
  | create {w : World σ κ} {id : Nat} {written : List Area} {laidOut filled : σ} {area : BitVec 32}
    {initial : κ} {moved : List (Waiting κ)} (fresh : id ∉ w.running :: w.waiting.map Waiting.id)
    (creates : target.Creates w.machine written laidOut filled area initial)
    (others : ∀ t ∈ w.waiting, target.Apart t written)
    (left : List.Forall₂ (target.Left (target.memory laidOut) (target.memory filled)) w.waiting
      moved) :
    Step target w {
      machine := filled
      running := w.running
      waiting := ⟨id, area, initial⟩ :: moved
      history := .created id (target.context initial) :: w.history }
  /-- It switches to another task. -/
  | switch {w : World σ κ} {front back : List (Waiting κ)} {next : Waiting κ} {written : List Area}
    {later : σ} {area : BitVec 32} {saved : κ} (split : w.waiting = front ++ next :: back)
    (switches : target.Switches w.machine written later area saved next.area)
    (others : ∀ t ∈ w.waiting, target.Apart t written) :
    Step target w {
      machine := later
      running := next.id
      waiting := ⟨w.running, area, saved⟩ :: (front ++ back)
      history := .switched w.running (target.context saved) next.id
        (target.context (target.reads later next.kept)) :: w.history }
  /-- A task that waits is removed. -/
  | remove {w : World σ κ} {front back : List (Waiting κ)} {task : Waiting κ}
    (split : w.waiting = front ++ task :: back) : Step target w { w with waiting := front ++ back }

/-- The runs of a machine on which only the task 0 runs at first. -/
inductive World.Reachable (target : Target σ κ) (start : σ) : World σ κ → Prop where
  /-- Only one task runs. -/
  | start : Reachable target start ⟨start, 0, [], []⟩
  /-- One more step. -/
  | step {w w' : World σ κ} (earlier : Reachable target start w) (next : World.Step target w w') :
    Reachable target start w'

end FelineOS.Tasks
