import FelineOS.Kernel.KVector

/-!
# The scheduler

`kernel/scheduler.cpp` and `kernel/task.cpp`: the running task, the vector of the other tasks
and the calls that move tasks between the two. The calls run one after the other; interrupts
are off while one of them holds `editing_task_list`.

`swap_task_registers(a, b)` saves the whole context of the CPU in `*a` and loads it from `*b`.
A context is the registers together with the place in the kernel where it goes on, which the
code keeps in `r14` or on the stack that the saved registers point to. The identity of a task
and the history of a run are not part of the code; they name what the calls did.
-/

namespace FelineOS.Scheduler

/-- `enum task_state`. -/
inductive TaskState where
  /-- Can be switched to. -/
  | runnable
  /-- Was ended by `end_cur_task`. -/
  | finished
  deriving DecidableEq, Repr

/-- Where `swap_task_registers` returns to when a context is loaded. -/
inductive Resume where
  /-- The end of `sched`. -/
  | sched
  /-- The end of `end_cur_task`, which the code takes for unreachable. -/
  | endCurTask
  /-- `exit_scheduler_stub`, with the function it calls. -/
  | exitSchedulerStub (startExecuting : UInt32)
  deriving DecidableEq, Repr

/-- Everything that is saved and loaded at a task switch. -/
structure Context (ρ : Type) where
  /-- `struct Registers`. -/
  registers : ρ
  /-- Where the context goes on. -/
  resume : Resume
  deriving DecidableEq, Repr

/-- `struct TaskAllocation`. -/
structure TaskAllocation where
  /-- First address. -/
  addr : UInt32
  /-- Number of bytes. -/
  len : UInt32
  deriving DecidableEq, Repr

/-- `struct Task`. -/
structure Task (ρ : Type) where
  /-- The saved context. -/
  registers : Context ρ
  /-- Whether the task has ended. -/
  state : TaskState
  /-- A `size_t`. -/
  numTimesScheduled : UInt32
  /-- The memory to free with the task. -/
  allocations : KVector TaskAllocation
  /-- The number of tasks created before this one. -/
  id : Nat
  deriving DecidableEq, Repr

/-- `struct x86Registers`. -/
structure X86Registers where
  eax : UInt32
  ebx : UInt32
  ecx : UInt32
  edx : UInt32
  esi : UInt32
  edi : UInt32
  ebp : UInt32
  esp : UInt32
  eflags : UInt32
  deriving DecidableEq, Repr

/-- `struct ARMRegisters`. -/
structure ARMRegisters where
  r0 : UInt32
  r1 : UInt32
  r2 : UInt32
  r3 : UInt32
  r4 : UInt32
  r5 : UInt32
  r6 : UInt32
  r7 : UInt32
  r8 : UInt32
  r9 : UInt32
  r10 : UInt32
  r11 : UInt32
  r12 : UInt32
  r13 : UInt32
  r14 : UInt32
  deriving DecidableEq, Repr

/-- What the two targets do differently. -/
structure Arch (ρ : Type) where
  /-- `sizeof(Registers)`. -/
  sizeofRegisters : Nat
  /-- The registers of a new task, from the current ones, the top of its stack and its first
  function. -/
  newRegisters : ρ → UInt32 → UInt32 → ρ

/-- The registers for `init_frame`'s four words at the top of the stack. -/
def Arch.i386 : Arch X86Registers where
  sizeofRegisters := 36
  newRegisters cpu stackTop _ :=
    { eax := 0, ebx := 0, ecx := 0, edx := 0, esi := 0, edi := 0,
      ebp := stackTop - 16, esp := 0, eflags := cpu.eflags }

/-- The registers that return to the stub with its argument. -/
def Arch.arm (exitSchedulerStub : UInt32) : Arch ARMRegisters where
  sizeofRegisters := 60
  newRegisters _ stackTop startExecuting :=
    { r0 := startExecuting, r1 := 0, r2 := 0, r3 := 0, r4 := 0, r5 := 0, r6 := 0, r7 := 0,
      r8 := 0, r9 := 0, r10 := 0, r11 := 0, r12 := 0, r13 := stackTop, r14 := exitSchedulerStub }

/-- `sizeof(Task)`: the registers, two words and a vector of four words. -/
def Arch.sizeofTask {ρ : Type} (arch : Arch ρ) : Nat := arch.sizeofRegisters + 24

/-- What the memory managers answer during one call. -/
structure Memory where
  /-- The address that `get_mem` returns for a length, if it succeeds. -/
  getMem : UInt32 → Option UInt32
  /-- Whether `malloc` returns memory for a number of bytes. -/
  malloc : Nat → Bool

/-- The lock `editing_task_list`, as one call at a time uses it. -/
structure LockOps (σ : Type) where
  /-- `acquire_lock`, which may spin forever. -/
  acquireLock : σ → Except Fault σ
  /-- `try_acquire_lock`. -/
  tryAcquireLock : σ → Bool × σ
  /-- `release_lock`. -/
  releaseLock : σ → σ

/-- `spinlock.cpp` on the flag alone: `try_acquire_lock` returns the previous flag, and the
loop of `acquire_lock` ends when the previous flag is set, at its second pass at the latest. -/
def LockOps.spinlock : LockOps Bool where
  acquireLock _ := .ok true
  tryAcquireLock flag := (flag, true)
  releaseLock _ := false

/-- What the calls did. -/
inductive Event (ρ : Type) where
  /-- `create_new_task` made a task with an initial context. -/
  | created (id : Nat) (initial : Context ρ)
  /-- `end_cur_task` marked the running task as finished. -/
  | ended (id : Nat)
  /-- `swap_task_registers` saved the context of one task and loaded that of another. -/
  | switched (out : Nat) (saved : Context ρ) (next : Nat) (loaded : Context ρ)
  /-- `cleanup_finished_tasks` freed an allocation. -/
  | freed (allocation : TaskAllocation)
  deriving DecidableEq, Repr

/-- The scheduler's globals. -/
structure Sched (ρ σ : Type) where
  /-- The state of the lock. -/
  editingTaskList : σ
  /-- The running task. -/
  currentTask : Task ρ
  /-- The other tasks. -/
  allTasks : KVector (Task ρ)
  /-- The number of tasks created so far. -/
  numCreated : Nat
  /-- What happened so far, the latest first. -/
  history : List (Event ρ)
  deriving DecidableEq, Repr

variable {ρ σ : Type}

/-- `create_new_stack`. -/
def createNewStack (memory : Memory) (len : UInt32) : Except Fault TaskAllocation :=
  match memory.getMem len with
  | none => .error .abort
  | some stack => .ok ⟨stack, len⟩

/-- `create_new_task`. -/
def createNewTask (arch : Arch ρ) (memory : Memory) (cpu : ρ) (startExecuting : UInt32) (id : Nat) :
    Except Fault (Task ρ) := do
  let stack ← createNewStack memory 0x4000
  let allocations ← KVector.empty.pushBack memory.malloc 8 stack
  return {
    registers := ⟨arch.newRegisters cpu (stack.addr + stack.len) startExecuting,
      .exitSchedulerStub startExecuting⟩
    state := .runnable
    numTimesScheduled := 0
    allocations
    id }

/-- The loop of `find_next_task` from position `i` on, with the pointer `next_task` so far and
the task it points to. -/
def findNextTaskFrom : List (Task ρ) → Nat → Option (Nat × Task ρ) → Option (Nat × Task ρ)
  | [], _, nextTask => nextTask
  | p :: rest, i, nextTask =>
    findNextTaskFrom rest (i + 1) <|
      if p.state = .runnable then
        match nextTask with
        | none => some (i, p)
        | some (j, q) => if q.numTimesScheduled > p.numTimesScheduled then some (i, p) else some (j, q)
      else nextTask

/-- `find_next_task`. -/
def findNextTask (tasks : List (Task ρ)) : Option (Nat × Task ρ) := findNextTaskFrom tasks 0 none

/-- `init_scheduler`, with the lock and the vector as the static initialisation leaves them. -/
def initScheduler (arch : Arch ρ) (lock : σ) (memory : Memory) (cpu : ρ) (initialTask : UInt32) :
    Except Fault (Sched ρ σ) := do
  let task ← createNewTask arch memory cpu initialTask 0
  return {
    editingTaskList := lock
    currentTask := task
    allTasks := KVector.empty
    numCreated := 1
    history := [.created 0 task.registers] }

/-- `swap_task_registers(&next_task->registers, &current_task.registers)` and what follows it
where the loaded context goes on. -/
def Sched.swapTaskRegisters (ops : LockOps σ) (s : Sched ρ σ) (nextTask out : Nat)
    (saved : Context ρ) : Except Fault (Sched ρ σ) :=
  let loaded := s.currentTask.registers
  let switched := { s with
    allTasks := s.allTasks.modify nextTask fun task => { task with registers := saved }
    history := .switched out saved s.currentTask.id loaded :: s.history }
  match loaded.resume with
  | .sched | .exitSchedulerStub _ =>
    .ok { switched with editingTaskList := ops.releaseLock switched.editingTaskList }
  | .endCurTask => .error .undefined

/-- `std::swap(current_task, *next_task)`, the count and the switch. -/
def Sched.switchTo (ops : LockOps σ) (s : Sched ρ σ) (nextTask : Nat) (next : Task ρ)
    (saved : Context ρ) : Except Fault (Sched ρ σ) :=
  let swapped := { s with
    currentTask := next
    allTasks := s.allTasks.modify nextTask fun _ => s.currentTask }
  let counted := { swapped with
    currentTask := { next with numTimesScheduled := next.numTimesScheduled + 1 } }
  counted.swapTaskRegisters ops nextTask s.currentTask.id saved

/-- `sched`, called with the registers `cpu`. -/
def Sched.sched (ops : LockOps σ) (s : Sched ρ σ) (cpu : ρ) : Except Fault (Sched ρ σ) :=
  let (acquired, lock) := ops.tryAcquireLock s.editingTaskList
  let s := { s with editingTaskList := lock }
  if !acquired then .ok s
  else
    match findNextTask s.allTasks.items with
    | none => .ok { s with editingTaskList := ops.releaseLock s.editingTaskList }
    | some (nextTask, next) => s.switchTo ops nextTask next ⟨cpu, .sched⟩

/-- `add_new_task`. -/
def Sched.addNewTask (ops : LockOps σ) (arch : Arch ρ) (s : Sched ρ σ) (memory : Memory) (cpu : ρ)
    (startFunc : UInt32) : Except Fault (Sched ρ σ) := do
  let lock ← ops.acquireLock s.editingTaskList
  let task ← createNewTask arch memory cpu startFunc s.numCreated
  let allTasks ← s.allTasks.pushBack memory.malloc arch.sizeofTask task
  return { s with
    editingTaskList := ops.releaseLock lock
    allTasks
    numCreated := s.numCreated + 1
    history := .created s.numCreated task.registers :: s.history }

/-- `end_cur_task`, called with the registers `cpu`. Without another task the CPU halts in the
running one and waits for interrupts, which may make further calls. -/
def Sched.endCurTask (ops : LockOps σ) (s : Sched ρ σ) (cpu : ρ) : Except Fault (Sched ρ σ) := do
  let lock ← ops.acquireLock s.editingTaskList
  let s := { s with editingTaskList := lock }
  match findNextTask s.allTasks.items with
  | none => return { s with editingTaskList := ops.releaseLock s.editingTaskList }
  | some (nextTask, next) =>
    let marked := { s with
      currentTask := { s.currentTask with state := .finished }
      history := .ended s.currentTask.id :: s.history }
    marked.switchTo ops nextTask next ⟨cpu, .endCurTask⟩

/-- The loop of `cleanup_finished_tasks` from the position `task` on. The fuel bounds the number
of passes. -/
def cleanupFrom : Nat → Nat → KVector (Task ρ) → List (Event ρ) →
    Except Fault (KVector (Task ρ) × List (Event ρ))
  | 0, _, _, _ => .error .divergence
  | fuel + 1, pos, allTasks, history =>
    match allTasks.items[pos]? with
    | none => .ok (allTasks, history)
    | some task =>
      if task.state = .finished then
        cleanupFrom fuel pos (allTasks.erase pos)
          (task.allocations.items.foldl (fun past allocation => .freed allocation :: past) history)
      else cleanupFrom fuel (pos + 1) allTasks history

/-- `cleanup_finished_tasks`. -/
def Sched.cleanupFinishedTasks (ops : LockOps σ) (s : Sched ρ σ) : Except Fault (Sched ρ σ) := do
  let (acquired, lock) := ops.tryAcquireLock s.editingTaskList
  let s := { s with editingTaskList := lock }
  if !acquired then return s
  else
    let (allTasks, history) ← cleanupFrom (s.allTasks.items.length + 1) 0 s.allTasks s.history
    return { s with editingTaskList := ops.releaseLock s.editingTaskList, allTasks, history }

/-- A call, with what it gets from outside the scheduler. -/
inductive Call (ρ : Type) where
  /-- `sched`. -/
  | sched (cpu : ρ)
  /-- `add_new_task`. -/
  | addNewTask (memory : Memory) (cpu : ρ) (startFunc : UInt32)
  /-- `end_cur_task`. -/
  | endCurTask (cpu : ρ)
  /-- `cleanup_finished_tasks`. -/
  | cleanupFinishedTasks

/-- One call. -/
def Sched.call (ops : LockOps σ) (arch : Arch ρ) (s : Sched ρ σ) :
    Call ρ → Except Fault (Sched ρ σ)
  | .sched cpu => s.sched ops cpu
  | .addNewTask memory cpu startFunc => s.addNewTask ops arch memory cpu startFunc
  | .endCurTask cpu => s.endCurTask ops cpu
  | .cleanupFinishedTasks => s.cleanupFinishedTasks ops

/-- Some calls, one after the other. -/
def Sched.calls (ops : LockOps σ) (arch : Arch ρ) (s : Sched ρ σ) :
    List (Call ρ) → Except Fault (Sched ρ σ)
  | [] => .ok s
  | c :: rest => do
    let s ← s.call ops arch c
    s.calls ops arch rest

end FelineOS.Scheduler
