import FelineOS.Kernel.Scheduler
import FelineOS.Kernel.Spinlock
import Mathlib.Data.List.Nodup
import Mathlib.Data.List.Perm.Basic

/-!
# No task is lost

What holds after every sequence of scheduler calls. The history says which tasks were created,
which were marked as finished and which contexts were saved; the running task and the vector
hold exactly the created tasks that are not finished, and every switch loads the context that
was saved last for the task it goes to.
-/

namespace FelineOS.Scheduler

variable {ρ σ : Type}

/-- The tasks that were created. -/
def createdIds : List (Event ρ) → List Nat
  | [] => []
  | .created id _ :: past => id :: createdIds past
  | .ended _ :: past | .switched .. :: past | .freed _ :: past => createdIds past

/-- The tasks that were marked as finished. -/
def endedIds : List (Event ρ) → List Nat
  | [] => []
  | .ended id :: past => id :: endedIds past
  | .created .. :: past | .switched .. :: past | .freed _ :: past => endedIds past

/-- The context that was saved when a task was last switched out, or its initial one. -/
def lastContext (id : Nat) : List (Event ρ) → Option (Context ρ)
  | [] => none
  | .created created initial :: past => if created = id then some initial else lastContext id past
  | .switched out saved _ _ :: past => if out = id then some saved else lastContext id past
  | .ended _ :: past | .freed _ :: past => lastContext id past

/-- Every switch of a history relates what happened before it, the task it goes to and the
context it loads. -/
def EverySwitch (holds : List (Event ρ) → Nat → Context ρ → Prop) (history : List (Event ρ)) : Prop :=
  ∀ recent past out saved next loaded,
    history = recent ++ .switched out saved next loaded :: past → holds past next loaded

/-- Every switch goes to a task that was not finished by then. -/
def FinishedStayOut (history : List (Event ρ)) : Prop :=
  EverySwitch (fun past next _ => next ∉ endedIds past) history

/-- Every switch loads the context that its task was last switched out with. -/
def ContextsKept (history : List (Event ρ)) : Prop :=
  EverySwitch (fun past next loaded => lastContext next past = some loaded) history

/-- All tasks that the scheduler holds. -/
def Sched.tasks (s : Sched ρ σ) : List (Task ρ) := s.currentTask :: s.allTasks.items

/-- The contract of the scheduler, in one state of a run. -/
structure Conserved (s : Sched ρ σ) : Prop where
  /-- Every created task is a task of its own. -/
  distinct : (createdIds s.history).Nodup
  /-- The unfinished tasks are the created ones that were not marked, each exactly once. -/
  unfinished : ((s.tasks.filter (·.state ≠ .finished)).map Task.id).Perm
    ((createdIds s.history).filter (· ∉ endedIds s.history))
  /-- The running task is not finished. -/
  running : s.currentTask.state ≠ .finished
  /-- No finished task was switched to. -/
  stayOut : FinishedStayOut s.history
  /-- Every switch loaded the right context. -/
  contexts : ContextsKept s.history

/-! ## The lock -/

section Lock

open Spinlock

variable {ι : Type} [DecidableEq ι]

/-- A client that nobody disturbs runs `try_acquire_lock` as the scheduler's lock does. -/
theorem tryAcquireLock_alone (arch : Interrupts) (w : World ι) (c : ι) (out : w.pc c = .outside) :
    ∃ w', w.fireAll arch (.tryAcquireLock c :: List.replicate 3 (.advance c)) = some w' ∧
      (w'.pc c = .inside ↔ (LockOps.spinlock.tryAcquireLock w.lock.flag).1) ∧
      w'.lock.flag = (LockOps.spinlock.tryAcquireLock w.lock.flag).2 := by
  cases flag : w.lock.flag <;>
    simp [World.fireAll, World.fire, World.goto, Pc.advance, Lock.testAndSet, LockOps.spinlock,
      List.replicate, out, flag]

/-- A client that nobody disturbs runs `acquire_lock` as the scheduler's lock does. -/
theorem acquireLock_alone (arch : Interrupts) (w : World ι) (c : ι) (out : w.pc c = .outside) :
    ∃ steps w', w.fireAll arch (.acquireLock c :: List.replicate steps (.advance c)) = some w' ∧
      w'.pc c = .inside ∧ LockOps.spinlock.acquireLock w.lock.flag = .ok w'.lock.flag := by
  cases flag : w.lock.flag
  case true =>
    refine ⟨3, ?_⟩
    simp [World.fireAll, World.fire, World.goto, Pc.advance, Lock.testAndSet, LockOps.spinlock,
      List.replicate, out, flag]
  case false =>
    -- The first `test_and_set` returns false and sets the flag, the second ends the loop.
    refine ⟨4, ?_⟩
    simp [World.fireAll, World.fire, World.goto, Pc.advance, Lock.testAndSet, LockOps.spinlock,
      List.replicate, out, flag]

/-- A client that nobody disturbs runs `release_lock` as the scheduler's lock does. -/
theorem releaseLock_alone (arch : Interrupts) (w : World ι) (c : ι) (holds : w.pc c = .inside) :
    ∃ w', w.fireAll arch (.releaseLock c :: List.replicate 3 (.advance c)) = some w' ∧
      w'.pc c = .outside ∧ w'.lock.flag = LockOps.spinlock.releaseLock w.lock.flag := by
  simp [World.fireAll, World.fire, World.goto, Pc.advance, LockOps.spinlock, List.replicate, holds]

end Lock

/-! ## The history -/

/-- A history is judged event by event. -/
theorem EverySwitch.cons {holds : List (Event ρ) → Nat → Context ρ → Prop} {event : Event ρ}
    {past : List (Event ρ)} (before : EverySwitch holds past)
    (now : ∀ out saved next loaded, event = .switched out saved next loaded →
      holds past next loaded) : EverySwitch holds (event :: past) := by
  intro recent earlier out saved next loaded split
  cases recent with
  | nil =>
    obtain ⟨same, rfl⟩ := List.cons.inj split
    exact now out saved next loaded same
  | cons last recent =>
    exact before recent earlier out saved next loaded (List.cons.inj split).2

/-! ## The invariant -/

/-- What holds also between marking the running task and switching away from it. -/
structure Tracked (s : Sched ρ σ) : Prop where
  /-- No two tasks are the same. -/
  unique : (s.tasks.map Task.id).Nodup
  /-- No task was created twice. -/
  distinct : (createdIds s.history).Nodup
  /-- Identities are given in order. -/
  fresh : ∀ id ∈ createdIds s.history, id < s.numCreated
  /-- Every task was created. -/
  known : ∀ task ∈ s.tasks, task.id ∈ createdIds s.history
  /-- Only created tasks end. -/
  endedKnown : ∀ id ∈ endedIds s.history, id ∈ createdIds s.history
  /-- The states are those of the history. -/
  marked : ∀ task ∈ s.tasks, task.state = .finished ↔ task.id ∈ endedIds s.history
  /-- Unfinished tasks are still there. -/
  held : ∀ id ∈ createdIds s.history, id ∉ endedIds s.history → id ∈ s.tasks.map Task.id
  /-- Waiting tasks hold the context they were switched out with. -/
  saved : ∀ task ∈ s.allTasks.items, lastContext task.id s.history = some task.registers
  /-- A waiting task that can run was not switched out by `end_cur_task`. -/
  resumable : ∀ task ∈ s.allTasks.items, task.state = .runnable →
    task.registers.resume ≠ .endCurTask
  /-- No finished task was switched to. -/
  stayOut : FinishedStayOut s.history
  /-- Every switch loaded the right context. -/
  contexts : ContextsKept s.history

/-- What holds between two calls. -/
structure Inv (s : Sched ρ σ) : Prop extends Tracked s where
  /-- The running task is not finished. -/
  running : s.currentTask.state = .runnable

/-- A task is in one of the two states. -/
theorem TaskState.ne_finished {state : TaskState} : state ≠ .finished ↔ state = .runnable := by
  cases state <;> simp

/-- The invariant gives the contract. -/
theorem Inv.conserved {s : Sched ρ σ} (inv : Inv s) : Conserved s := by
  refine ⟨inv.distinct, ?_, TaskState.ne_finished.mpr inv.running, inv.stayOut, inv.contexts⟩
  have heldOnce : ((s.tasks.filter (·.state ≠ .finished)).map Task.id).Nodup :=
    inv.unique.sublist (List.filter_sublist.map Task.id)
  apply (List.perm_ext_iff_of_nodup heldOnce (inv.distinct.filter _)).mpr
  intro id
  simp only [List.mem_map, List.mem_filter, decide_eq_true_eq]
  constructor
  · rintro ⟨task, ⟨member, unfinished⟩, rfl⟩
    exact ⟨inv.known task member, fun ended => unfinished ((inv.marked task member).mpr ended)⟩
  · rintro ⟨created, notEnded⟩
    obtain ⟨task, member, rfl⟩ := List.mem_map.mp (inv.held id created notEnded)
    exact ⟨task, ⟨member, fun ended => notEnded ((inv.marked task member).mp ended)⟩, rfl⟩

/-! ## Choosing a task -/

/-- A task of the vector can be switched to at a position. -/
def Waiting (tasks : List (Task ρ)) (i : Nat) (task : Task ρ) : Prop :=
  task.state = .runnable ∧ ∃ front back, tasks = front ++ task :: back ∧ i = front.length

/-- A waiting task still waits, one place further on, behind another task. -/
theorem Waiting.cons {tasks : List (Task ρ)} {i : Nat} {task : Task ρ} (waits : Waiting tasks i task)
    (first : Task ρ) : Waiting (first :: tasks) (i + 1) task := by
  obtain ⟨run, front, back, rfl, rfl⟩ := waits
  exact ⟨run, first :: front, back, rfl, rfl⟩

/-- The loop returns the task it had before or a task it has passed that can run. -/
theorem findNextTaskFrom_some (tasks : List (Task ρ)) (i : Nat) (nextTask : Option (Nat × Task ρ))
    {found : Nat} {task : Task ρ} (result : findNextTaskFrom tasks i nextTask = some (found, task)) :
    nextTask = some (found, task) ∨ ∃ k, found = i + k ∧ Waiting tasks k task := by
  induction tasks generalizing i nextTask with
  | nil => exact .inl result
  | cons p rest ih =>
    simp only [findNextTaskFrom] at result
    rcases ih _ _ result with chosen | ⟨k, rfl, waits⟩
    · have fresh : p.state = .runnable → some (i, p) = some (found, task) →
          ∃ k, found = i + k ∧ Waiting (p :: rest) k task := by
        intro run same
        obtain ⟨rfl, rfl⟩ := Prod.mk.inj (Option.some.inj same)
        exact ⟨0, rfl, run, [], rest, rfl, rfl⟩
      split at chosen
      case isFalse => exact .inl chosen
      case isTrue run =>
        split at chosen
        case h_1 => exact .inr (fresh run chosen)
        case h_2 =>
          split at chosen
          · exact .inr (fresh run chosen)
          · exact .inl chosen
    · exact .inr ⟨k + 1, by omega, waits.cons p⟩

/-- `find_next_task` returns a task of the vector that can run. -/
theorem findNextTask_some {tasks : List (Task ρ)} {i : Nat} {task : Task ρ}
    (result : findNextTask tasks = some (i, task)) : Waiting tasks i task := by
  rcases findNextTaskFrom_some tasks 0 none result with none | ⟨k, rfl, waits⟩
  · cases none
  · rwa [Nat.zero_add]

/-! ## Switching -/

/-- The state right after a switch: the two tasks have changed places, and the context of the
outgoing one was written to the place it has now. -/
theorem switchTo_eq (ops : LockOps σ) (s : Sched ρ σ) {front back : List (Task ρ)} {next : Task ρ}
    (saved : Context ρ) (place : s.allTasks.items = front ++ next :: back)
    (resumes : next.registers.resume ≠ .endCurTask) :
    ∃ s', s.switchTo ops front.length next saved = .ok s' ∧
      s'.currentTask = { next with numTimesScheduled := next.numTimesScheduled + 1 } ∧
      s'.allTasks.items = front ++ { s.currentTask with registers := saved } :: back ∧
      s'.numCreated = s.numCreated ∧
      s'.history = .switched s.currentTask.id saved next.id next.registers :: s.history := by
  have items : ((s.allTasks.modify front.length fun _ => s.currentTask).modify front.length
      fun task => { task with registers := saved }).items =
        front ++ { s.currentTask with registers := saved } :: back := by
    simp [KVector.modify, place, List.modify_eq_take_cons_drop]
  unfold Sched.switchTo Sched.swapTaskRegisters
  cases resume : next.registers.resume with
  | endCurTask => exact absurd resume resumes
  | sched =>
    simp only [resume]
    exact ⟨_, rfl, rfl, items, rfl, rfl⟩
  | exitSchedulerStub start =>
    simp only [resume]
    exact ⟨_, rfl, rfl, items, rfl, rfl⟩

/-- What the vector and the running task say about a task, whatever its context. -/
def Task.entry (task : Task ρ) : Nat × TaskState := (task.id, task.state)

/-- Entries that are only reordered keep what the history says about the tasks. -/
theorem entries_perm {old new : List (Task ρ)} (perm : (new.map Task.entry).Perm (old.map Task.entry)) :
    (new.map Task.id).Perm (old.map Task.id) ∧
      ∀ task ∈ new, ∃ before ∈ old, before.id = task.id ∧ before.state = task.state := by
  constructor
  · have ids := perm.map Prod.fst
    simpa [List.map_map, Function.comp_def, Task.entry] using ids
  · intro task member
    obtain ⟨before, there, same⟩ := List.mem_map.mp (perm.subset (List.mem_map_of_mem member))
    exact ⟨before, there, congrArg Prod.fst same, congrArg Prod.snd same⟩

/-- A switch to a task that can run ends between two calls again. -/
theorem switchTo_inv (ops : LockOps σ) {s : Sched ρ σ} (tracked : Tracked s) {i : Nat}
    {next : Task ρ} (waits : Waiting s.allTasks.items i next) (saved : Context ρ)
    (resumes : s.currentTask.state = .runnable → saved.resume ≠ .endCurTask) :
    ∃ s', s.switchTo ops i next saved = .ok s' ∧ Inv s' := by
  obtain ⟨run, front, back, place, rfl⟩ := waits
  have nextMember : next ∈ s.allTasks.items := by simp [place]
  obtain ⟨s', done, current, items, count, history⟩ := switchTo_eq ops s saved place
    (tracked.resumable next nextMember run)
  refine ⟨s', done, ?_⟩
  have entries : (s'.tasks.map Task.entry).Perm (s.tasks.map Task.entry) := by
    have outside : (s'.tasks.map Task.entry).Perm
        (next.entry :: s.currentTask.entry :: (front ++ back).map Task.entry) := by
      simp only [Sched.tasks, current, items, List.map_cons, List.map_append]
      exact List.perm_middle.cons _
    have inside : (s.tasks.map Task.entry).Perm
        (s.currentTask.entry :: next.entry :: (front ++ back).map Task.entry) := by
      simp only [Sched.tasks, place, List.map_cons, List.map_append]
      exact List.perm_middle.cons _
    exact (outside.trans (List.Perm.swap _ _ _)).trans inside.symm
  obtain ⟨ids, entry⟩ := entries_perm entries
  -- The outgoing task is told from the other waiting tasks by its identity.
  have others : ∀ task ∈ front ++ back, s.currentTask.id ≠ task.id := by
    intro task member same
    have absent := (List.nodup_cons.mp tracked.unique).1
    apply absent
    rw [same, place]
    exact List.mem_map_of_mem (by simp at member ⊢; tauto)
  have waiting : ∀ task ∈ s'.allTasks.items,
      task = { s.currentTask with registers := saved } ∨ task ∈ front ++ back := by
    intro task member
    rw [items] at member
    simp at member ⊢
    tauto
  have kept : ∀ task ∈ front ++ back, task ∈ s.allTasks.items := by
    intro task member
    rw [place]
    simp at member ⊢
    tauto
  suffices after : Tracked s' from ⟨after, by rw [current]; exact run⟩
  constructor
  case unique => exact ids.nodup_iff.mpr tracked.unique
  case distinct => simpa [history, createdIds] using tracked.distinct
  case fresh => simpa [history, createdIds, count] using tracked.fresh
  case endedKnown => simpa [history, createdIds, endedIds] using tracked.endedKnown
  case known =>
    intro task member
    obtain ⟨before, there, same, -⟩ := entry task member
    simpa [history, createdIds, same] using tracked.known before there
  case marked =>
    intro task member
    obtain ⟨before, there, same, state⟩ := entry task member
    simpa [history, endedIds, same, state] using tracked.marked before there
  case held =>
    intro id created notEnded
    rw [history] at created notEnded
    exact ids.mem_iff.mpr (tracked.held id created notEnded)
  case saved =>
    intro task member
    rw [history]
    rcases waiting task member with rfl | other
    · exact if_pos rfl
    · exact (if_neg (others task other)).trans (tracked.saved task (kept task other))
  case resumable =>
    intro task member
    rcases waiting task member with rfl | other
    · exact resumes
    · exact tracked.resumable task (kept task other)
  case stayOut =>
    rw [history]
    apply tracked.stayOut.cons
    rintro _ _ _ _ ⟨⟩ ended
    have finished := (tracked.marked next (List.mem_cons_of_mem _ nextMember)).mpr ended
    rw [run] at finished
    cases finished
  case contexts =>
    rw [history]
    apply tracked.contexts.cons
    rintro _ _ _ _ ⟨⟩
    exact tracked.saved next nextMember

/-- The lock is not part of the invariant. -/
theorem Inv.relock {s : Sched ρ σ} (inv : Inv s) (lock : σ) :
    Inv { s with editingTaskList := lock } :=
  ⟨⟨inv.unique, inv.distinct, inv.fresh, inv.known, inv.endedKnown, inv.marked, inv.held, inv.saved,
    inv.resumable, inv.stayOut, inv.contexts⟩, inv.running⟩

/-- `sched` returns and keeps the invariant. -/
theorem sched_inv (ops : LockOps σ) {s : Sched ρ σ} (inv : Inv s) (cpu : ρ) :
    ∃ s', s.sched ops cpu = .ok s' ∧ Inv s' := by
  unfold Sched.sched
  cases ops.tryAcquireLock s.editingTaskList with | mk acquired lock =>
  cases acquired with
  | false => exact ⟨_, rfl, inv.relock lock⟩
  | true =>
    simp only [Bool.not_true, Bool.false_eq_true, ↓reduceIte]
    cases found : findNextTask s.allTasks.items with
    | none => exact ⟨_, rfl, (inv.relock lock).relock _⟩
    | some choice =>
      exact switchTo_inv ops (inv.relock lock).toTracked (findNextTask_some found) _ (by simp)

/-! ## Ending the running task -/

/-- Marking the running task keeps what is tracked. -/
theorem Inv.mark {s : Sched ρ σ} (inv : Inv s) :
    Tracked { s with
      currentTask := { s.currentTask with state := .finished }
      history := .ended s.currentTask.id :: s.history } := by
  have others : ∀ task ∈ s.allTasks.items, task.id ≠ s.currentTask.id := by
    intro task member same
    apply (List.nodup_cons.mp inv.unique).1
    rw [← same]
    exact List.mem_map_of_mem member
  constructor
  case unique => exact inv.unique
  case distinct => exact inv.distinct
  case fresh => exact inv.fresh
  case known =>
    rintro task (- | ⟨-, member⟩)
    · exact inv.known s.currentTask List.mem_cons_self
    · exact inv.known task (List.mem_cons_of_mem _ member)
  case endedKnown =>
    rintro id (- | ⟨-, member⟩)
    · exact inv.known s.currentTask List.mem_cons_self
    · exact inv.endedKnown id member
  case marked =>
    rintro task (- | ⟨-, member⟩)
    · simp [endedIds]
    · have state := inv.marked task (List.mem_cons_of_mem _ member)
      simpa [endedIds, others task member] using state
  case held =>
    intro id created notEnded
    exact inv.held id created fun ended => notEnded (List.mem_cons_of_mem _ ended)
  case saved => exact inv.saved
  case resumable => exact inv.resumable
  case stayOut => exact inv.stayOut.cons (by rintro _ _ _ _ ⟨⟩)
  case contexts => exact inv.contexts.cons (by rintro _ _ _ _ ⟨⟩)

/-- `end_cur_task` leaves the ended task and keeps the invariant, or halts in it when no other
task can run. -/
theorem endCurTask_inv (ops : LockOps σ) {s : Sched ρ σ} (inv : Inv s) (cpu : ρ) {lock : σ}
    (acquired : ops.acquireLock s.editingTaskList = .ok lock) :
    ∃ s', s.endCurTask ops cpu = .ok s' ∧ Inv s' := by
  unfold Sched.endCurTask
  rw [acquired, ok_bind]
  cases found : findNextTask s.allTasks.items with
  | none =>
    simp only [found]
    exact ⟨_, rfl, (inv.relock lock).relock _⟩
  | some choice =>
    simp only [found]
    exact switchTo_inv ops (inv.relock lock).mark (findNextTask_some found) _ (by simp)

/-! ## Creating a task -/

/-- A new task can run and starts in the stub, or there is no memory for it. -/
theorem createNewTask_cases (arch : Arch ρ) (memory : Memory) (cpu : ρ) (startExecuting : UInt32)
    (id : Nat) :
    createNewTask arch memory cpu startExecuting id = .error .abort ∨
      ∃ task, createNewTask arch memory cpu startExecuting id = .ok task ∧ task.id = id ∧
        task.state = .runnable ∧ task.registers.resume = .exitSchedulerStub startExecuting := by
  unfold createNewTask createNewStack
  cases memory.getMem 0x4000 with
  | none => exact .inl rfl
  | some stack =>
    simp only [ok_bind]
    rcases KVector.empty.pushBack_cases memory.malloc 8 (⟨stack, 0x4000⟩ : TaskAllocation) with
      failed | ⟨allocations, grown, -⟩
    · rw [failed]
      exact .inl rfl
    · rw [grown]
      exact .inr ⟨_, rfl, rfl, rfl, rfl⟩

/-- A new task behind the others keeps the invariant. -/
theorem Inv.create {s : Sched ρ σ} (inv : Inv s) {task : Task ρ} {allTasks : KVector (Task ρ)}
    (items : allTasks.items = s.allTasks.items ++ [task]) (id : task.id = s.numCreated)
    (state : task.state = .runnable) (resumes : task.registers.resume ≠ .endCurTask) (lock : σ) :
    Inv { s with
      editingTaskList := lock
      allTasks
      numCreated := s.numCreated + 1
      history := .created s.numCreated task.registers :: s.history } := by
  have unused : s.numCreated ∉ createdIds s.history := fun there =>
    Nat.lt_irrefl _ (inv.fresh _ there)
  have cases : ∀ other ∈ allTasks.items, other = task ∨ other ∈ s.allTasks.items := by
    intro other member
    simp only [items, List.mem_append, List.mem_singleton] at member
    exact member.symm
  have casesAll : ∀ other ∈ s.currentTask :: allTasks.items, other = task ∨ other ∈ s.tasks := by
    rintro other (- | ⟨-, member⟩)
    · exact .inr List.mem_cons_self
    · exact (cases other member).imp_right (List.mem_cons_of_mem _)
  have tasks : (s.currentTask :: allTasks.items) = s.tasks ++ [task] := by
    rw [items]
    rfl
  suffices after : Tracked { s with
      editingTaskList := lock
      allTasks
      numCreated := s.numCreated + 1
      history := .created s.numCreated task.registers :: s.history } from ⟨after, inv.running⟩
  constructor
  case unique =>
    show ((s.currentTask :: allTasks.items).map Task.id).Nodup
    rw [tasks, List.map_append, List.nodup_append]
    refine ⟨inv.unique, List.nodup_singleton _, ?_⟩
    intro old member new added same
    obtain ⟨other, there, rfl⟩ := List.mem_map.mp member
    have newest : other.id = s.numCreated := by
      rw [same, List.mem_singleton.mp added, id]
    exact unused (newest ▸ inv.known other there)
  case distinct => exact List.nodup_cons.mpr ⟨unused, inv.distinct⟩
  case fresh =>
    rintro old (- | ⟨-, member⟩)
    · exact Nat.lt_succ_self _
    · exact Nat.lt_succ_of_lt (inv.fresh old member)
  case known =>
    intro other member
    rcases casesAll other member with rfl | there
    · rw [id]
      exact List.mem_cons_self
    · exact List.mem_cons_of_mem _ (inv.known other there)
  case endedKnown => exact fun old ended => List.mem_cons_of_mem _ (inv.endedKnown old ended)
  case marked =>
    intro other member
    rcases casesAll other member with rfl | there
    · have notEnded : other.id ∉ endedIds s.history := fun ended =>
        unused (id ▸ inv.endedKnown _ ended)
      simp [endedIds, state, notEnded]
    · exact inv.marked other there
  case held =>
    show ∀ old ∈ _, _ → old ∈ (s.currentTask :: allTasks.items).map Task.id
    rw [tasks, List.map_append]
    rintro old (- | ⟨-, member⟩) notEnded
    · exact List.mem_append_right _ (by simp [id])
    · exact List.mem_append_left _ (inv.held old member notEnded)
  case saved =>
    intro other member
    rcases cases other member with rfl | there
    · simp [lastContext, id]
    · have older : s.numCreated ≠ other.id := by
        intro same
        exact unused (same ▸ inv.known other (List.mem_cons_of_mem _ there))
      exact (if_neg older).trans (inv.saved other there)
  case resumable =>
    intro other member
    rcases cases other member with rfl | there
    · exact fun _ => resumes
    · exact inv.resumable other there
  case stayOut => exact inv.stayOut.cons (by rintro _ _ _ _ ⟨⟩)
  case contexts => exact inv.contexts.cons (by rintro _ _ _ _ ⟨⟩)

/-- `add_new_task` keeps the invariant unless the memory runs out. -/
theorem addNewTask_cases (ops : LockOps σ) (arch : Arch ρ) {s : Sched ρ σ} (inv : Inv s)
    (memory : Memory) (cpu : ρ) (startFunc : UInt32) {lock : σ}
    (acquired : ops.acquireLock s.editingTaskList = .ok lock) :
    s.addNewTask ops arch memory cpu startFunc = .error .abort ∨
      ∃ s', s.addNewTask ops arch memory cpu startFunc = .ok s' ∧ Inv s' := by
  unfold Sched.addNewTask
  rw [acquired, ok_bind]
  rcases createNewTask_cases arch memory cpu startFunc s.numCreated with
    failed | ⟨task, made, id, state, resume⟩
  · rw [failed]
    exact .inl rfl
  · rw [made, ok_bind]
    rcases s.allTasks.pushBack_cases memory.malloc arch.sizeofTask task with
      failed | ⟨allTasks, grown, items⟩
    · rw [failed]
      exact .inl rfl
    · rw [grown, ok_bind]
      exact .inr ⟨_, rfl, inv.create items id state (by simp [resume]) _⟩

/-- The only task of a scheduler that has just started is the running one. -/
theorem inv_init (lock : σ) {task : Task ρ} (id : task.id = 0) (state : task.state = .runnable) :
    Inv { editingTaskList := lock, currentTask := task, allTasks := KVector.empty, numCreated := 1,
          history := [.created 0 task.registers] } := by
  suffices start : Tracked { editingTaskList := lock, currentTask := task,
                             allTasks := KVector.empty, numCreated := 1,
                             history := [.created 0 task.registers] } from ⟨start, state⟩
  have quiet : ∀ holds, EverySwitch holds [.created 0 task.registers] := by
    intro holds
    apply EverySwitch.cons
    · rintro (- | recent) _ _ _ _ _ ⟨⟩
    · rintro _ _ _ _ ⟨⟩
  constructor
  case stayOut => exact quiet _
  case contexts => exact quiet _
  all_goals simp [Sched.tasks, KVector.empty, createdIds, endedIds, id, state]

/-- `init_scheduler` starts the invariant unless there is no memory for the first stack. -/
theorem initScheduler_cases (arch : Arch ρ) (lock : σ) (memory : Memory) (cpu : ρ)
    (initialTask : UInt32) :
    initScheduler arch lock memory cpu initialTask = .error .abort ∨
      ∃ s, initScheduler arch lock memory cpu initialTask = .ok s ∧ s.editingTaskList = lock ∧
        Inv s := by
  unfold initScheduler
  rcases createNewTask_cases arch memory cpu initialTask 0 with failed | ⟨task, made, id, state, -⟩
  · rw [failed]
    exact .inl rfl
  · rw [made]
    exact .inr ⟨_, rfl, rfl, inv_init lock id state⟩

/-! ## Cleaning up -/

/-- The loop keeps what it has passed, removes the finished tasks of the rest and frees their
allocations. -/
theorem cleanupFrom_eq (fuel pos : Nat) (allTasks : KVector (Task ρ)) (history : List (Event ρ))
    (inside : pos ≤ allTasks.items.length) (enough : allTasks.items.length < fuel + pos) :
    ∃ left, cleanupFrom fuel pos allTasks history =
        .ok (left, (((allTasks.items.drop pos).filter (·.state = .finished)).flatMap
          (·.allocations.items)).reverse.map .freed ++ history) ∧
      left.items = allTasks.items.take pos ++
        (allTasks.items.drop pos).filter (·.state ≠ .finished) := by
  induction fuel generalizing pos allTasks history with
  | zero => omega
  | succ fuel ih =>
    unfold cleanupFrom
    by_cases last : pos < allTasks.items.length
    case neg =>
      have atEnd : pos = allTasks.items.length := by omega
      simp only [atEnd, List.getElem?_length, List.drop_length, List.take_length]
      exact ⟨allTasks, by simp, by simp⟩
    case pos =>
      obtain ⟨task, found⟩ : ∃ task, allTasks.items[pos] = task := ⟨_, rfl⟩
      have rest : allTasks.items.drop pos = task :: allTasks.items.drop (pos + 1) := by
        rw [List.drop_eq_getElem_cons last, found]
      have passed : allTasks.items.take (pos + 1) = allTasks.items.take pos ++ [task] := by
        rw [← List.take_append_getElem last, found]
      rw [List.getElem?_eq_getElem last, found]
      cases state : task.state with
      | runnable =>
        obtain ⟨left, done, items⟩ := ih (pos + 1) allTasks history (by omega) (by omega)
        refine ⟨left, ?_, ?_⟩
        · simp [state, done, rest]
        · simp [items, passed, rest, state]
      | finished =>
        -- The later tasks move down, so the loop goes on at the same position.
        have short : (allTasks.erase pos).items =
            allTasks.items.take pos ++ allTasks.items.drop (pos + 1) :=
          List.eraseIdx_eq_take_drop_succ allTasks.items pos
        have front : (allTasks.items.take pos).length = pos := by
          rw [List.length_take]
          omega
        have sizes : (allTasks.erase pos).items.length = allTasks.items.length - 1 := by
          rw [short, List.length_append, front, List.length_drop]
          omega
        obtain ⟨left, done, items⟩ := ih pos (allTasks.erase pos)
          (task.allocations.items.foldl (fun past allocation => .freed allocation :: past) history)
          (by omega) (by omega)
        rw [short, List.drop_left' front] at done items
        rw [List.take_left' front] at items
        refine ⟨left, ?_, ?_⟩
        · simp only [state, ↓reduceIte, done]
          simp [rest, state]
        · simp [items, rest, state]

/-- Freeing memory is no event of a task. -/
theorem freed_quiet (freed : List TaskAllocation) (history : List (Event ρ)) :
    createdIds (freed.map .freed ++ history) = createdIds history ∧
      endedIds (freed.map .freed ++ history) = endedIds history ∧
      (∀ id, lastContext id (freed.map .freed ++ history) = lastContext id history) ∧
      ∀ holds, EverySwitch holds history → EverySwitch holds (freed.map .freed ++ history) := by
  induction freed with
  | nil => exact ⟨rfl, rfl, fun _ => rfl, fun _ before => before⟩
  | cons first rest ih =>
    obtain ⟨created, ended, context, switches⟩ := ih
    exact ⟨created, ended, context, fun holds before =>
      (switches holds before).cons (by rintro _ _ _ _ ⟨⟩)⟩

/-- Removing the finished tasks keeps the invariant. -/
theorem Inv.cleanup {s : Sched ρ σ} (inv : Inv s) {allTasks : KVector (Task ρ)}
    (items : allTasks.items = s.allTasks.items.filter (·.state ≠ .finished))
    (freed : List TaskAllocation) (lock : σ) :
    Inv { s with editingTaskList := lock, allTasks, history := freed.map .freed ++ s.history } := by
  obtain ⟨created, ended, context, switches⟩ := freed_quiet freed s.history
  have kept : (s.currentTask :: allTasks.items).Sublist s.tasks := by
    rw [items]
    exact List.filter_sublist.cons_cons _
  have waiting : ∀ task ∈ allTasks.items, task ∈ s.allTasks.items := by
    intro task member
    rw [items] at member
    exact List.mem_of_mem_filter member
  refine ⟨?_, inv.running⟩
  constructor
  case unique => exact inv.unique.sublist (kept.map Task.id)
  case distinct => exact created ▸ inv.distinct
  case fresh => exact created ▸ inv.fresh
  case known => exact fun task member => created ▸ inv.known task (kept.subset member)
  case endedKnown =>
    simp only [created, ended]
    exact inv.endedKnown
  case marked => exact fun task member => ended ▸ inv.marked task (kept.subset member)
  case held =>
    simp only [created, ended]
    intro id there notEnded
    obtain ⟨task, member, rfl⟩ := List.mem_map.mp (inv.held id there notEnded)
    have unfinished : task.state ≠ .finished := fun finished =>
      notEnded ((inv.marked task member).mp finished)
    apply List.mem_map_of_mem
    rcases List.mem_cons.mp member with rfl | waits
    · exact List.mem_cons_self
    · apply List.mem_cons_of_mem
      rw [items]
      exact List.mem_filter.mpr ⟨waits, by simpa using unfinished⟩
  case saved => exact fun task member => (context _).trans (inv.saved task (waiting task member))
  case resumable => exact fun task member => inv.resumable task (waiting task member)
  case stayOut => exact switches _ inv.stayOut
  case contexts => exact switches _ inv.contexts

/-- `cleanup_finished_tasks` returns and keeps the invariant. -/
theorem cleanupFinishedTasks_inv (ops : LockOps σ) {s : Sched ρ σ} (inv : Inv s) :
    ∃ s', s.cleanupFinishedTasks ops = .ok s' ∧ Inv s' := by
  unfold Sched.cleanupFinishedTasks
  cases ops.tryAcquireLock s.editingTaskList with | mk acquired lock =>
  cases acquired with
  | false => exact ⟨_, rfl, inv.relock lock⟩
  | true =>
    obtain ⟨left, done, items⟩ := cleanupFrom_eq (s.allTasks.items.length + 1) 0 s.allTasks s.history
      (Nat.zero_le _) (by omega)
    simp only [Bool.not_true, Bool.false_eq_true, ↓reduceIte, done, ok_bind]
    exact ⟨_, rfl, inv.cleanup items _ _⟩

/-! ## What the history counts -/

/-- The number of calls of `add_new_task`. -/
def addedTasks : List (Call ρ) → Nat
  | [] => 0
  | .addNewTask _ _ _ :: rest => addedTasks rest + 1
  | .sched _ :: rest | .endCurTask _ :: rest | .cleanupFinishedTasks :: rest => addedTasks rest

/-- The call is an `end_cur_task` that finds a task to switch to. -/
def Sched.ends (s : Sched ρ σ) : Call ρ → Bool
  | .endCurTask _ => (findNextTask s.allTasks.items).isSome
  | .sched _ | .addNewTask _ _ _ | .cleanupFinishedTasks => false

/-- The number of calls of `end_cur_task` that find a task to switch to, each in the state that
the calls before it leave. -/
def Sched.endedTasks (ops : LockOps σ) (arch : Arch ρ) (s : Sched ρ σ) : List (Call ρ) → Nat
  | [] => 0
  | c :: rest =>
    (s.ends c).toNat + match s.call ops arch c with
      | .ok s' => s'.endedTasks ops arch rest
      | .error _ => 0

/-- The history at `s` counts the calls that led there from the start of the scheduler. -/
structure Counted (ops : LockOps σ) (arch : Arch ρ) (start : Sched ρ σ) (cs : List (Call ρ))
    (s : Sched ρ σ) : Prop where
  /-- The initial task and the tasks of `add_new_task` were created. -/
  created : (createdIds s.history).length = 1 + addedTasks cs
  /-- The tasks that `end_cur_task` left were ended. -/
  ended : (endedIds s.history).length = start.endedTasks ops arch cs

/-- A switch creates and ends nothing. -/
theorem switchTo_counts {ops : LockOps σ} {s s' : Sched ρ σ} {nextTask : Nat} {next : Task ρ}
    {saved : Context ρ} (returned : s.switchTo ops nextTask next saved = .ok s') :
    createdIds s'.history = createdIds s.history ∧ endedIds s'.history = endedIds s.history := by
  simp only [Sched.switchTo, Sched.swapTaskRegisters] at returned
  split at returned
  · cases returned
    exact ⟨rfl, rfl⟩
  · cases returned
    exact ⟨rfl, rfl⟩
  · cases returned

/-- The loop of `cleanup_finished_tasks` creates and ends nothing. -/
theorem cleanupFrom_counts {fuel pos : Nat} {allTasks left : KVector (Task ρ)}
    {history past : List (Event ρ)}
    (returned : cleanupFrom fuel pos allTasks history = .ok (left, past)) :
    createdIds past = createdIds history ∧ endedIds past = endedIds history := by
  induction fuel generalizing pos allTasks history with
  | zero => cases returned
  | succ fuel ih =>
    unfold cleanupFrom at returned
    split at returned
    · cases returned
      exact ⟨rfl, rfl⟩
    · next task found =>
      split at returned
      · obtain ⟨created, ended⟩ := ih returned
        have freed : task.allocations.items.foldl
            (fun past allocation => .freed allocation :: past) history =
              task.allocations.items.reverse.map .freed ++ history := by simp
        obtain ⟨createdBefore, endedBefore, -⟩ :=
          freed_quiet task.allocations.items.reverse history
        rw [freed] at created ended
        exact ⟨created.trans createdBefore, ended.trans endedBefore⟩
      · exact ih returned

/-- One call creates a task when it is an `add_new_task`, and ends one when it is an
`end_cur_task` that switches. -/
theorem call_counts {ops : LockOps σ} {arch : Arch ρ} {s s' : Sched ρ σ} {c : Call ρ}
    (returned : s.call ops arch c = .ok s') :
    (createdIds s'.history).length = (createdIds s.history).length + addedTasks [c] ∧
      (endedIds s'.history).length = (endedIds s.history).length + (s.ends c).toNat := by
  cases c with
  | sched cpu =>
    simp only [Sched.call, Sched.sched] at returned
    split at returned
    · cases returned
      exact ⟨rfl, rfl⟩
    · split at returned
      · cases returned
        exact ⟨rfl, rfl⟩
      · obtain ⟨created, ended⟩ := switchTo_counts returned
        rw [created, ended]
        exact ⟨rfl, rfl⟩
  | addNewTask memory cpu startFunc =>
    obtain ⟨lock, -, made⟩ := of_bind_ok returned
    obtain ⟨task, -, grown⟩ := of_bind_ok made
    obtain ⟨allTasks, -, rest⟩ := of_bind_ok grown
    cases rest
    exact ⟨rfl, rfl⟩
  | endCurTask cpu =>
    obtain ⟨lock, -, rest⟩ := of_bind_ok returned
    cases chosen : findNextTask s.allTasks.items with
    | none =>
      simp only [chosen] at rest
      cases rest
      simp [Sched.ends, chosen, addedTasks]
    | some found =>
      simp only [chosen] at rest
      obtain ⟨created, ended⟩ := switchTo_counts rest
      rw [created, ended]
      simp [Sched.ends, chosen, addedTasks, createdIds, endedIds]
  | cleanupFinishedTasks =>
    simp only [Sched.call, Sched.cleanupFinishedTasks] at returned
    split at returned
    · cases returned
      exact ⟨rfl, rfl⟩
    · obtain ⟨⟨left, past⟩, cleaned, rest⟩ := of_bind_ok returned
      cases rest
      obtain ⟨created, ended⟩ := cleanupFrom_counts cleaned
      simp only [created, ended]
      exact ⟨rfl, rfl⟩

/-- The counts of a run. -/
theorem calls_counts {ops : LockOps σ} {arch : Arch ρ} {s s' : Sched ρ σ} {cs : List (Call ρ)}
    (returned : s.calls ops arch cs = .ok s') :
    (createdIds s'.history).length = (createdIds s.history).length + addedTasks cs ∧
      (endedIds s'.history).length = (endedIds s.history).length + s.endedTasks ops arch cs := by
  induction cs generalizing s with
  | nil =>
    cases returned
    exact ⟨rfl, rfl⟩
  | cons c rest ih =>
    obtain ⟨next, first, later⟩ := of_bind_ok returned
    obtain ⟨created, ended⟩ := call_counts first
    obtain ⟨createdLater, endedLater⟩ := ih later
    have split : addedTasks (c :: rest) = addedTasks [c] + addedTasks rest := by
      cases c <;> simp [addedTasks, Nat.add_comm]
    rw [createdLater, endedLater, created, ended, split, Sched.endedTasks, first]
    simp only
    omega

/-- After the start, the history has the initial task as the only one. -/
theorem initScheduler_counted {ops : LockOps σ} {arch : Arch ρ} {lock : σ} {memory : Memory}
    {cpu : ρ} {initialTask : UInt32} {start s : Sched ρ σ} {cs : List (Call ρ)}
    (started : initScheduler arch lock memory cpu initialTask = .ok start)
    (returned : start.calls ops arch cs = .ok s) : Counted ops arch start cs s := by
  obtain ⟨task, -, rest⟩ := of_bind_ok started
  cases rest
  obtain ⟨created, ended⟩ := calls_counts returned
  exact ⟨created, ended.trans (Nat.zero_add _)⟩

/-! ## Runs -/

/-- One call that can take the lock keeps the invariant, unless it is an `add_new_task` for which
the memory has run out. -/
theorem call_cases (ops : LockOps σ) (arch : Arch ρ) {s : Sched ρ σ} (inv : Inv s) {lock : σ}
    (acquired : ops.acquireLock s.editingTaskList = .ok lock) (c : Call ρ) :
    (∃ s', s.call ops arch c = .ok s' ∧ Inv s') ∨
      ∃ memory cpu startFunc, c = .addNewTask memory cpu startFunc ∧
        s.addNewTask ops arch memory cpu startFunc = .error .abort := by
  cases c with
  | sched cpu => exact .inl (sched_inv ops inv cpu)
  | endCurTask cpu => exact .inl (endCurTask_inv ops inv cpu acquired)
  | cleanupFinishedTasks => exact .inl (cleanupFinishedTasks_inv ops inv)
  | addNewTask memory cpu startFunc =>
    rcases addNewTask_cases ops arch inv memory cpu startFunc acquired with failed | kept
    · exact .inr ⟨memory, cpu, startFunc, rfl, failed⟩
    · exact .inl kept

/-- What every call keeps that returns, a run keeps up to the call for which the memory has run
out. -/
theorem calls_keep {ops : LockOps σ} (arch : Arch ρ) {kept : Sched ρ σ → Prop}
    (step : ∀ (s : Sched ρ σ) (c : Call ρ), kept s →
      (∃ s', s.call ops arch c = .ok s' ∧ kept s') ∨
        ∃ memory cpu startFunc, c = .addNewTask memory cpu startFunc ∧
          s.addNewTask ops arch memory cpu startFunc = .error .abort)
    {s : Sched ρ σ} (start : kept s) (cs : List (Call ρ)) :
    (∃ s', s.calls ops arch cs = .ok s' ∧ kept s') ∨
      ∃ before memory cpu startFunc after s',
        cs = before ++ .addNewTask memory cpu startFunc :: after ∧
        s.calls ops arch before = .ok s' ∧ kept s' ∧
        s'.addNewTask ops arch memory cpu startFunc = .error .abort := by
  induction cs generalizing s with
  | nil => exact .inl ⟨s, rfl, start⟩
  | cons c rest ih =>
    rcases step s c start with ⟨s₁, first, kept₁⟩ | ⟨memory, cpu, startFunc, rfl, failed⟩
    · have run : ∀ cs, s.calls ops arch (c :: cs) = s₁.calls ops arch cs := by
        intro cs
        rw [Sched.calls, first, ok_bind]
      rcases ih kept₁ with ⟨s₂, later, kept₂⟩ | ⟨before, memory, cpu, startFunc, after, s₂, rfl, later⟩
      · exact .inl ⟨s₂, (run rest).trans later, kept₂⟩
      · exact .inr ⟨c :: before, memory, cpu, startFunc, after, s₂, rfl,
          (run before).trans later.1, later.2⟩
    · exact .inr ⟨[], memory, cpu, startFunc, rest, s, rfl, rfl, start, failed⟩

/-- Whatever calls follow `init_scheduler`, they all return with the contract kept, or the
contract is kept up to an `add_new_task` that aborts because there is no memory left. The history
counts the calls. -/
theorem calls_conserved (arch : Arch ρ) (memory : Memory) (cpu : ρ) (initialTask : UInt32)
    (cs : List (Call ρ)) :
    initScheduler arch false memory cpu initialTask = .error .abort ∨
      ∃ s₀, initScheduler arch false memory cpu initialTask = .ok s₀ ∧
        ((∃ s, s₀.calls .spinlock arch cs = .ok s ∧ Conserved s ∧
            Counted .spinlock arch s₀ cs s) ∨
          ∃ before memory cpu startFunc after s,
            cs = before ++ .addNewTask memory cpu startFunc :: after ∧
            s₀.calls .spinlock arch before = .ok s ∧ Conserved s ∧
            Counted .spinlock arch s₀ before s ∧
            s.addNewTask .spinlock arch memory cpu startFunc = .error .abort) := by
  rcases initScheduler_cases arch false memory cpu initialTask with failed | ⟨s₀, start, -, inv₀⟩
  · exact .inl failed
  · refine .inr ⟨s₀, start, ?_⟩
    have step (s : Sched ρ Bool) (c : Call ρ) (inv : Inv s) := call_cases .spinlock arch inv rfl c
    rcases calls_keep arch step inv₀ cs with ⟨s, run, inv⟩ | stopped
    · exact .inl ⟨s, run, inv.conserved, initScheduler_counted start run⟩
    · obtain ⟨before, memory, cpu, startFunc, after, s, split, run, inv, failed⟩ := stopped
      exact .inr ⟨before, memory, cpu, startFunc, after, s, split, run, inv.conserved,
        initScheduler_counted start run, failed⟩

-- The first `sched` only sets the flag of the free lock; the second one switches.
example :
    let memory : Memory := ⟨fun _ => some 0xD0000000, fun _ => true⟩
    let cpu : X86Registers := ⟨1, 2, 3, 4, 5, 6, 7, 8, 0x202⟩
    ((initScheduler .i386 false memory cpu 0x1000 >>= fun s =>
      s.calls .spinlock .i386 [.addNewTask memory cpu 0x2000, .sched cpu, .sched cpu]).toOption.map
        fun s => (s.currentTask.id, s.currentTask.registers.registers.ebp, s.tasks.map Task.id)) =
      some (1, 0xD0003FF0, [1, 0]) := by
  decide +kernel

end FelineOS.Scheduler
