import FelineOS.Kernel.KVectorStorage

/-!
# Cleaning up after tasks

`cleanup_finished_tasks` of `kernel/scheduler.cpp` once more, now over the block in which
`all_tasks` keeps its tasks. Every task owns the block of its allocations, and the loop erases
tasks while it goes through the vector: `erase` destroys a task, swaps the later ones down over
it and leaves the iterator where it was.
-/

namespace FelineOS.Scheduler

/-- What the loop works on. -/
structure TaskStore (ρ ι : Type) where
  /-- `all_tasks`. -/
  allTasks : Storage (OwningTask ρ ι) ι
  /-- The blocks of the vectors. -/
  heap : HeapLog ι
  /-- The calls of `free_mem`, in their order. -/
  freeMem : List TaskAllocation
  deriving DecidableEq, Repr

namespace TaskStore

variable {ρ ι σ : Type}

/-- The calls of `free_mem` for the allocations of a task. -/
def freeAllocations (s : TaskStore ρ ι) (task : OwningTask ρ ι) : TaskStore ρ ι :=
  { s with freeMem := s.freeMem ++ task.allocations.vector.items }

/-- `all_tasks.erase(task)`; `registers` is `sizeof(Registers)`. -/
def erase (registers : Nat) (s : TaskStore ρ ι) (task : Nat) : Except Fault (TaskStore ρ ι) := do
  let (allTasks, heap) ← s.allTasks.erase (OwningTask.element ρ ι registers) task s.heap
  return { s with allTasks, heap }

/-- The loop from the position `task` on. The fuel bounds the number of passes. -/
def cleanupFrom (registers : Nat) : Nat → Nat → TaskStore ρ ι → Except Fault (TaskStore ρ ι)
  | 0, _, _ => .error .divergence
  | fuel + 1, task, s =>
    if task = s.allTasks.numItems then .ok s
    else do
      let reached ← Storage.object s.allTasks.places task
      if reached.state = .finished then
        let s ← (s.freeAllocations reached).erase registers task
        cleanupFrom registers fuel task s
      else cleanupFrom registers fuel (task + 1) s

/-- `cleanup_finished_tasks`, with `editing_task_list`. -/
def cleanupFinishedTasks (ops : LockOps σ) (registers : Nat) (lock : σ) (s : TaskStore ρ ι) :
    Except Fault (σ × TaskStore ρ ι) := do
  let (acquired, lock) := ops.tryAcquireLock lock
  if !acquired then return (lock, s)
  else
    let s ← cleanupFrom registers (s.allTasks.numItems + 1) 0 s
    return (ops.releaseLock lock, s)

end TaskStore

end FelineOS.Scheduler
