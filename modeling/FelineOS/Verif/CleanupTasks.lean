import FelineOS.Kernel.CleanupTasks
import FelineOS.Verif.KVectorStorage
import FelineOS.Verif.Scheduler
import Mathlib.Data.List.Forall2

/-!
# Cleaning up is exact

Behind the position of the loop stand the tasks that it has not looked at yet, in front of it
those that it has kept. An erase brings the next task to the position, so the loop never skips a
task and never looks at a place behind the last one, where the dead contents of the erased tasks
are.
-/

namespace FelineOS.Scheduler.TaskStore

variable {ρ ι σ : Type}

/-- The tasks that the loop removes. -/
def finishedTasks (tasks : List (OwningTask ρ ι)) : List (OwningTask ρ ι) :=
  tasks.filter (·.state = .finished)

/-- The tasks that the loop keeps. -/
def otherTasks (tasks : List (OwningTask ρ ι)) : List (OwningTask ρ ι) :=
  tasks.filter (·.state ≠ .finished)

/-- Everything that `create_new_task` allocated for some tasks. -/
def allocationsOf (tasks : List (OwningTask ρ ι)) : List TaskAllocation :=
  tasks.flatMap (·.allocations.vector.items)

/-- The blocks that some tasks own. -/
def blocksOf (tasks : List (OwningTask ρ ι)) : List ι := tasks.flatMap (·.allocations.destroy)

section Step

variable [DecidableEq ι] {registers : Nat} {given : List ι} {passed later : List (OwningTask ρ ι)}
  {task : OwningTask ρ ι} {s : TaskStore ρ ι}

/-- The vector of the store holds the tasks. -/
def Holds (registers : Nat) (given : List ι) (tasks : List (OwningTask ρ ι)) (s : TaskStore ρ ι) :
    Prop :=
  Storage.Holds (OwningTask.element ρ ι registers) given tasks s.allTasks s.heap

/-- The task at a position. -/
theorem Holds.reached (holds : Holds registers given (passed ++ task :: later) s) :
    Storage.object s.allTasks.places passed.length = .ok task := by
  obtain ⟨rest, places⟩ := holds.first
  have front : s.allTasks.places =
      passed.map some ++ some task :: (later.map some ++ rest) := by
    rw [places, List.map_append, List.map_cons, List.append_assoc, List.cons_append]
  rw [front, ← List.length_map some, Storage.object_append]

/-- One task is erased: the later ones move up to its position and its own block is released. -/
theorem Holds.erased (holds : Holds registers given (passed ++ task :: later) s) :
    ∃ allTasks, s.erase registers passed.length =
        .ok ⟨allTasks, s.heap.release task.allocations.destroy, s.freeMem⟩ ∧
      Holds registers given (passed ++ later)
        ⟨allTasks, s.heap.release task.allocations.destroy, s.freeMem⟩ := by
  have inside : passed.length ≤ (passed ++ task :: later).length := by
    rw [List.length_append]
    exact Nat.le_add_right _ _
  obtain ⟨allTasks, heap, done, shorter, -, released⟩ := Storage.Holds.erase holds inside
  have gone : ((passed ++ task :: later).drop passed.length).take 1 = [task] := by
    rw [List.drop_left]
    rfl
  have kept : (passed ++ task :: later).eraseIdx passed.length = passed ++ later := by
    rw [List.eraseIdx_append_of_length_le (Nat.le_refl _), Nat.sub_self, List.eraseIdx_cons_zero]
  have block : [task].flatMap (OwningTask.element ρ ι registers).destroy =
      task.allocations.destroy := List.flatMap_singleton ..
  rw [gone, block] at released
  rw [kept] at shorter
  subst released
  refine ⟨allTasks, ?_, shorter⟩
  rw [erase, done]
  rfl

/-- The loop keeps what it has passed, and of the rest the tasks that are not finished. -/
theorem Holds.cleanupFrom (fuel : Nat) (holds : Holds registers given (passed ++ later) s)
    (enough : later.length < fuel) :
    ∃ allTasks heap, TaskStore.cleanupFrom registers fuel passed.length s =
        .ok ⟨allTasks, heap, s.freeMem ++ allocationsOf (finishedTasks later)⟩ ∧
      Holds registers given (passed ++ otherTasks later)
        ⟨allTasks, heap, s.freeMem ++ allocationsOf (finishedTasks later)⟩ ∧
      heap = s.heap.release (blocksOf (finishedTasks later)) := by
  induction fuel generalizing passed later s with
  | zero => exact absurd enough (Nat.not_lt_zero _)
  | succ fuel ih =>
    have number := holds.number
    cases later with
    | nil =>
      rw [List.append_nil] at number holds
      have done : TaskStore.cleanupFrom registers (fuel + 1) passed.length s = .ok s := by
        rw [TaskStore.cleanupFrom, if_pos number.symm]
      refine ⟨s.allTasks, s.heap, ?_, ?_, ?_⟩
      · simpa [finishedTasks, allocationsOf] using done
      · simpa [otherTasks, finishedTasks, allocationsOf] using holds
      · simp [finishedTasks, blocksOf, HeapLog.release]
    | cons task later =>
      have unread : passed.length ≠ s.allTasks.numItems := by
        rw [number, List.length_append, List.length_cons]
        omega
      have enough : later.length < fuel := Nat.lt_of_succ_lt_succ enough
      rw [TaskStore.cleanupFrom, if_neg unread, holds.reached, ok_bind]
      cases state : task.state with
      | runnable =>
        have shifted : passed ++ task :: later = (passed ++ [task]) ++ later := by
          rw [List.append_assoc]
          rfl
        have next : passed.length + 1 = (passed ++ [task]).length := by
          rw [List.length_append, List.length_singleton]
        rw [shifted] at holds
        obtain ⟨allTasks, heap, done, kept, released⟩ := ih holds enough
        rw [← next] at done
        refine ⟨allTasks, heap, ?_, ?_, ?_⟩
        · simpa [finishedTasks, state] using done
        · simpa [otherTasks, finishedTasks, state] using kept
        · simpa [finishedTasks, state] using released
      | finished =>
        -- the next task stands at the position now
        obtain ⟨shorter, erased, held⟩ :=
          Holds.erased (s := s.freeAllocations task) holds
        obtain ⟨allTasks, heap, done, kept, released⟩ := ih held enough
        refine ⟨allTasks, heap, ?_, ?_, ?_⟩
        · rw [if_pos rfl, erased, ok_bind, done]
          simp [finishedTasks, state, allocationsOf, freeAllocations]
        · simpa [otherTasks, finishedTasks, state, allocationsOf, freeAllocations] using kept
        · simpa [finishedTasks, state, blocksOf, freeAllocations, Storage.release_release]
            using released

/-- With the lock, `cleanup_finished_tasks` returns and keeps the other tasks. -/
theorem Holds.cleanup (ops : LockOps σ) {lock held : σ}
    (acquired : ops.tryAcquireLock lock = (true, held)) {tasks : List (OwningTask ρ ι)}
    (holds : Holds registers given tasks s) :
    ∃ allTasks heap, s.cleanupFinishedTasks ops registers lock = .ok (ops.releaseLock held,
        ⟨allTasks, heap, s.freeMem ++ allocationsOf (finishedTasks tasks)⟩) ∧
      Holds registers given (otherTasks tasks)
        ⟨allTasks, heap, s.freeMem ++ allocationsOf (finishedTasks tasks)⟩ ∧
      heap = s.heap.release (blocksOf (finishedTasks tasks)) := by
  have enough : tasks.length < s.allTasks.numItems + 1 :=
    Nat.lt_succ_of_le (Nat.le_of_eq holds.number.symm)
  have whole : Holds registers given ([] ++ tasks) s := holds
  obtain ⟨allTasks, heap, done, kept, released⟩ :=
    Holds.cleanupFrom (s.allTasks.numItems + 1) whole enough
  rw [List.length_nil] at done
  rw [List.nil_append] at kept
  refine ⟨allTasks, heap, ?_, kept, released⟩
  rw [cleanupFinishedTasks, acquired]
  simp only [Bool.not_true, Bool.false_eq_true, ↓reduceIte]
  rw [done]
  rfl

/-- Cleaning up with the lock leaves exactly the tasks that are not finished, as they were and in
their order. `free_mem` is called once for each allocation of each finished task, and only the
blocks of these tasks are released. -/
theorem cleanupFinishedTasks_exact (ops : LockOps σ) {lock held : σ}
    (acquired : ops.tryAcquireLock lock = (true, held)) {tasks : List (OwningTask ρ ι)}
    (holds : Holds registers given tasks s) :
    ∃ cleaned, s.cleanupFinishedTasks ops registers lock = .ok (ops.releaseLock held, cleaned) ∧
      Holds registers given (otherTasks tasks) cleaned ∧
      cleaned.allTasks.places.take cleaned.allTasks.numItems = (otherTasks tasks).map some ∧
      cleaned.freeMem = s.freeMem ++ allocationsOf (finishedTasks tasks) ∧
      cleaned.heap = s.heap.release (blocksOf (finishedTasks tasks)) := by
  obtain ⟨allTasks, heap, done, kept, released⟩ := holds.cleanup ops acquired
  obtain ⟨rest, places⟩ := kept.first
  refine ⟨_, done, kept, ?_, rfl, released⟩
  rw [places, kept.number, ← List.length_map some, List.take_left]

end Step

/-! ## The loop without the storage -/

/-- A task and its storage. -/
structure Represents (task : Task ρ) (owning : OwningTask (Context ρ) ι) : Prop where
  /-- The saved context. -/
  registers : owning.registers = task.registers
  /-- Whether it has ended. -/
  state : owning.state = task.state
  /-- How often it was scheduled. -/
  count : owning.numTimesScheduled = task.numTimesScheduled
  /-- What is freed with it. -/
  allocations : owning.allocations.vector = task.allocations

/-- The allocations of tasks are those of their storage. -/
theorem allocationsOf_represents {tasks : List (Task ρ)} {owning : List (OwningTask (Context ρ) ι)}
    (represents : List.Forall₂ Represents tasks owning) :
    allocationsOf owning = tasks.flatMap (·.allocations.items) := by
  induction represents with
  | nil => rfl
  | cons first _ ih =>
    simp only [allocationsOf, List.flatMap_cons, first.allocations] at ih ⊢
    rw [ih]

/-- With the storage and without it `cleanup_finished_tasks` leaves the same tasks and frees the
same memory. -/
theorem cleanupFinishedTasks_represents [DecidableEq ι] (ops : LockOps σ) {registers : Nat}
    {given : List ι} {plain : Sched ρ σ} {held : σ}
    (acquired : ops.tryAcquireLock plain.editingTaskList = (true, held))
    {tasks : List (OwningTask (Context ρ) ι)} {s : TaskStore (Context ρ) ι}
    (holds : Holds registers given tasks s)
    (represents : List.Forall₂ Represents plain.allTasks.items tasks) :
    ∃ after allTasks heap freed,
      plain.cleanupFinishedTasks ops = .ok after ∧
      s.cleanupFinishedTasks ops registers plain.editingTaskList =
        .ok (after.editingTaskList, ⟨allTasks, heap, s.freeMem ++ freed⟩) ∧
      List.Forall₂ Represents after.allTasks.items (otherTasks tasks) ∧
      after.history = freed.reverse.map .freed ++ plain.history := by
  obtain ⟨allTasks, heap, done, -, -⟩ := holds.cleanup ops acquired
  obtain ⟨left, cleaned, items⟩ :=
    Scheduler.cleanupFrom_eq (plain.allTasks.items.length + 1) 0 plain.allTasks plain.history
      (Nat.zero_le _) (Nat.lt_succ_self _)
  rw [List.drop_zero] at cleaned items
  rw [List.take_zero, List.nil_append] at items
  have finished : List.Forall₂ Represents (plain.allTasks.items.filter (·.state = .finished))
      (finishedTasks tasks) :=
    List.rel_filter (fun _ _ same => by simp only [same.state]) represents
  have others : List.Forall₂ Represents (plain.allTasks.items.filter (·.state ≠ .finished))
      (otherTasks tasks) :=
    List.rel_filter (fun _ _ same => by simp only [same.state]) represents
  let after : Sched ρ σ := { plain with
    editingTaskList := ops.releaseLock held
    allTasks := left
    history := (allocationsOf (finishedTasks tasks)).reverse.map .freed ++ plain.history }
  refine ⟨after, allTasks, heap, allocationsOf (finishedTasks tasks), ?_, done, ?_, rfl⟩
  · rw [Sched.cleanupFinishedTasks, acquired]
    simp only [Bool.not_true, Bool.false_eq_true, ↓reduceIte]
    rw [cleaned]
    simp only [after, allocationsOf_represents finished]
    rfl
  · simp only [after, items]
    exact others

/-! ## Two finished tasks side by side -/

/-- A task with one allocation. -/
def sampleTask (block : Nat) (state : TaskState) (addr : UInt32) : OwningTask Nat Nat :=
  ⟨0, state, 0, ⟨some block, ⟨[⟨addr, 0x4000⟩], 1, Nat.le_refl 1⟩⟩⟩

/-- Four tasks, of which the second, the third and the last are finished. -/
def sampleTasks : List (OwningTask Nat Nat) :=
  [sampleTask 1 .runnable 0x10000, sampleTask 2 .finished 0x20000,
    sampleTask 3 .finished 0x30000, sampleTask 4 .finished 0x40000]

/-- The store of these tasks. -/
def sampleStore : TaskStore Nat Nat :=
  ⟨⟨some 0, sampleTasks.map some, 4, 4⟩, ⟨[0], []⟩, []⟩

/-- The first task stays, and the allocations of the others are freed. -/
theorem cleanupFinishedTasks_sample :
    ∃ cleaned, sampleStore.cleanupFinishedTasks .spinlock 60 true = .ok (false, cleaned) ∧
      cleaned.allTasks.places.take cleaned.allTasks.numItems =
        [some (sampleTask 1 .runnable 0x10000)] ∧
      cleaned.freeMem = [⟨0x20000, 0x4000⟩, ⟨0x30000, 0x4000⟩, ⟨0x40000, 0x4000⟩] := by
  have holds : Holds 60 [1, 2, 3, 4] sampleTasks sampleStore := by
    constructor
    · exact ⟨[], rfl⟩
    · rfl
    · rfl
    · decide
    · intro buffer
      simp [sampleStore, sampleTasks, sampleTask, OwningTask.element, Owned.destroy,
        List.count_cons]
  have acquired : LockOps.spinlock.tryAcquireLock true = (true, true) := rfl
  obtain ⟨cleaned, done, -, kept, freed, -⟩ :=
    cleanupFinishedTasks_exact LockOps.spinlock acquired holds
  exact ⟨cleaned, done, kept, freed⟩

end FelineOS.Scheduler.TaskStore
