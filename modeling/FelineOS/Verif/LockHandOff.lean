import FelineOS.Verif.EvenScheduling

/-!
# The hand-off of the lock

The lock `editing_task_list` is taken in one task and released in another. Here the lock does
what `spinlock.h` says of it, and keeps a record of what was done with it. Between two calls it is
free, and a switch hands it to the task that goes on: to one that returns from
`swap_task_registers` in `sched`, or to one that starts in `exit_scheduler_stub`.
-/

namespace FelineOS.Scheduler

variable {ρ σ : Type}

/-- What `spinlock.h` says of a lock, with the states in which it is free. -/
structure LockOps.Contract (ops : LockOps σ) (free : σ → Bool) : Prop where
  /-- `try_acquire_lock` succeeds exactly when the lock is free. -/
  tries : ∀ lock, (ops.tryAcquireLock lock).1 = free lock
  /-- After `try_acquire_lock` the lock is in use. -/
  tried : ∀ lock, free (ops.tryAcquireLock lock).2 = false
  /-- `acquire_lock` takes a lock that is free. -/
  acquires : ∀ lock, free lock = true → ∃ held, ops.acquireLock lock = .ok held ∧ free held = false
  /-- `acquire_lock` waits for a lock that is in use. -/
  waits : ∀ lock, free lock = false → ops.acquireLock lock = .error .divergence
  /-- `release_lock` frees the lock. -/
  releases : ∀ lock, free (ops.releaseLock lock) = true

/-- What can be done with a lock. -/
inductive LockEvent where
  /-- It was taken. -/
  | acquired
  /-- It was released. -/
  | released
  deriving DecidableEq, Repr

/-- A lock with which nothing was done. -/
def emptyRecord (lock : σ) : σ × List LockEvent := (lock, [])

/-- A lock with a record of what was done with it, the latest first. -/
def LockOps.recorded (ops : LockOps σ) : LockOps (σ × List LockEvent) where
  acquireLock lock := (ops.acquireLock lock.1).map fun held => (held, .acquired :: lock.2)
  tryAcquireLock lock :=
    let (acquired, held) := ops.tryAcquireLock lock.1
    (acquired, held, if acquired then .acquired :: lock.2 else lock.2)
  releaseLock lock := (ops.releaseLock lock.1, .released :: lock.2)

/-- The lock was acquired and released in turns, and released last. -/
def Alternating : List LockEvent → Prop
  | [] => True
  | .released :: .acquired :: past => Alternating past
  | _ => False

/-- The scheduler without the record. -/
def Sched.forget (s : Sched ρ (σ × List LockEvent)) : Sched ρ σ :=
  { s with editingTaskList := s.editingTaskList.1 }

/-- `sched` from the return of `swap_task_registers` on. -/
def Sched.returnToSched (ops : LockOps σ) (s : Sched ρ σ) : Sched ρ σ :=
  { s with editingTaskList := ops.releaseLock s.editingTaskList }

/-- `exit_scheduler_stub` up to the call of the first function of the task. -/
def Sched.exitSchedulerStub (ops : LockOps σ) (s : Sched ρ σ) : Sched ρ σ :=
  { s with editingTaskList := ops.releaseLock s.editingTaskList }

/-- A task has run: it is the one that `init_scheduler` made, or it was switched to. -/
def HasRun (id : Nat) (history : List (Event ρ)) : Prop :=
  id = 0 ∨ ∃ out saved loaded, .switched out saved id loaded ∈ history

/-- What a call does with the lock that is free before it. -/
inductive LockUse (ops : LockOps σ) (free : σ → Bool) (s : Sched ρ (σ × List LockEvent)) :
    Sched ρ (σ × List LockEvent) → Prop where
  /-- The call does not switch: it takes the lock and releases it itself. -/
  | alone {s' : Sched ρ (σ × List LockEvent)} (recent : List (Event ρ))
    (history : s'.history = recent ++ s.history) (noSwitch : numSwitches recent = 0)
    (record : s'.editingTaskList.2 = .released :: .acquired :: s.editingTaskList.2)
    (freed : free s'.editingTaskList.1 = true) :
    LockUse ops free s s'
  /-- The call switches to a task that has run before, whose return in `sched` releases the lock. -/
  | resumed {atSwitch : Sched ρ (σ × List LockEvent)} (recent : List (Event ρ)) {out next : Nat}
    {saved loaded : Context ρ}
    (history : atSwitch.history = .switched out saved next loaded :: recent ++ s.history)
    (once : numSwitches recent = 0) (held : free atSwitch.editingTaskList.1 = false)
    (record : atSwitch.editingTaskList.2 = .acquired :: s.editingTaskList.2)
    (resume : loaded.resume = .sched) (again : HasRun next (recent ++ s.history)) :
    LockUse ops free s (atSwitch.returnToSched ops.recorded)
  /-- The call switches to a task that runs for the first time, and `exit_scheduler_stub` releases
  the lock. -/
  | started {atSwitch : Sched ρ (σ × List LockEvent)} (recent : List (Event ρ)) {out next : Nat}
    {saved loaded : Context ρ} {start : UInt32}
    (history : atSwitch.history = .switched out saved next loaded :: recent ++ s.history)
    (once : numSwitches recent = 0) (held : free atSwitch.editingTaskList.1 = false)
    (record : atSwitch.editingTaskList.2 = .acquired :: s.editingTaskList.2)
    (resume : loaded.resume = .exitSchedulerStub start)
    (first : ¬ HasRun next (recent ++ s.history)) :
    LockUse ops free s (atSwitch.exitSchedulerStub ops.recorded)

/-- A task executes outside the scheduler. -/
structure Outside (free : σ → Bool) (s : Sched ρ (σ × List LockEvent)) : Prop where
  /-- The lock is free. -/
  free : free s.editingTaskList.1 = true
  /-- The lock was acquired and released in turns. -/
  alternating : Alternating s.editingTaskList.2

/-- A use of the lock ends with the lock free and with the turns kept. -/
theorem LockUse.outside {ops : LockOps σ} {free : σ → Bool} (contract : ops.Contract free)
    {s s' : Sched ρ (σ × List LockEvent)} (before : Outside free s) (uses : LockUse ops free s s') :
    Outside free s' := by
  cases uses with
  | alone recent history noSwitch record freed =>
    refine ⟨freed, ?_⟩
    rw [record]
    exact before.alternating
  | resumed recent history once held record resume again =>
    refine ⟨contract.releases _, ?_⟩
    show Alternating (.released :: _)
    rw [record]
    exact before.alternating
  | started recent history once held record resume first =>
    refine ⟨contract.releases _, ?_⟩
    show Alternating (.released :: _)
    rw [record]
    exact before.alternating

/-- `try_acquire_lock` with the record. -/
theorem tryAcquireLock_recorded {ops : LockOps σ} {lock : σ × List LockEvent} {acquired : Bool}
    {held : σ} (tried : ops.tryAcquireLock lock.1 = (acquired, held)) :
    ops.recorded.tryAcquireLock lock =
      (acquired, held, if acquired then .acquired :: lock.2 else lock.2) := by
  unfold LockOps.recorded
  simp only [tried]

/-- A lock that was taken was free, is in use, and the record says so. -/
theorem Acquires.recorded {ops : LockOps σ} {free : σ → Bool} (contract : ops.Contract free)
    {lock held : σ × List LockEvent} (wasFree : free lock.1 = true)
    (acquired : Acquires ops.recorded lock held) :
    free held.1 = false ∧ held.2 = .acquired :: lock.2 := by
  rcases acquired with tried | waited
  · have success := contract.tries lock.1
    have inUse := contract.tried lock.1
    rw [wasFree] at success
    simp only [LockOps.recorded, success] at tried
    obtain rfl := (Prod.mk.inj tried).2
    exact ⟨inUse, rfl⟩
  · obtain ⟨taken, result, inUse⟩ := contract.acquires lock.1 wasFree
    simp only [LockOps.recorded, result, Except.map] at waited
    cases waited
    exact ⟨inUse, rfl⟩

/-! ## First runs -/

/-- Which tasks have run, and where the others start. -/
structure FirstRuns (s : Sched ρ σ) : Prop where
  /-- The running task has run. -/
  current : HasRun s.currentTask.id s.history
  /-- Only created tasks have run. -/
  created : ∀ id, HasRun id s.history → id < s.numCreated
  /-- A waiting task starts in the stub until it has run. -/
  resumes : ∀ task ∈ s.allTasks.items,
    HasRun task.id s.history ↔ ∀ start, task.registers.resume ≠ .exitSchedulerStub start

/-- A task has still run after more events. -/
theorem HasRun.later {id : Nat} {history : List (Event ρ)} (hasRun : HasRun id history)
    (recent : List (Event ρ)) : HasRun id (recent ++ history) := by
  rcases hasRun with first | ⟨out, saved, loaded, member⟩
  · exact .inl first
  · exact .inr ⟨out, saved, loaded, List.mem_append_right _ member⟩

/-- Without a switch no other task has run. -/
theorem hasRun_append {id : Nat} (recent : List (Event ρ)) {history : List (Event ρ)}
    (quiet : numSwitches recent = 0) :
    HasRun id (recent ++ history) ↔ HasRun id history := by
  refine ⟨?_, fun hasRun => hasRun.later recent⟩
  rintro (first | ⟨out, saved, loaded, member⟩)
  · exact .inl first
  · rcases List.mem_append.mp member with now | before
    · exact absurd rfl (List.countP_eq_zero.mp quiet _ now)
    · exact .inr ⟨out, saved, loaded, before⟩

/-- A switch is the first or a further run of the task that it goes to. -/
theorem hasRun_switched {id out next : Nat} {saved loaded : Context ρ} {history : List (Event ρ)} :
    HasRun id (.switched out saved next loaded :: history) ↔ id = next ∨ HasRun id history := by
  constructor
  · rintro (first | ⟨out', saved', loaded', member⟩)
    · exact .inr (.inl first)
    · rcases List.mem_cons.mp member with now | before
      · cases now
        exact .inl rfl
      · exact .inr (.inr ⟨out', saved', loaded', before⟩)
  · rintro (rfl | hasRun)
    · exact .inr ⟨out, saved, loaded, List.mem_cons_self⟩
    · exact hasRun.later [_]

/-- A switch keeps track of the first runs. -/
theorem FirstRuns.switch {ops : LockOps σ} {s s' : Sched ρ σ} {i : Nat} {next : Task ρ}
    {saved : Context ρ} (done : s.switchTo ops i next saved = .ok s')
    (waits : Waiting s.allTasks.items i next) (runs : FirstRuns s) (tracked : Tracked s)
    (outside : ∀ start, saved.resume ≠ .exitSchedulerStub start) : FirstRuns s' := by
  obtain ⟨front, back, place, items, current, count, history⟩ := switchTo_result done waits
  have nextMember : next ∈ s.tasks := List.mem_cons_of_mem _ (by simp [place])
  -- The tasks that go on waiting are told from the next one by their identities.
  have others : ∀ task ∈ front ++ back, task.id ≠ next.id := by
    have unique := (List.nodup_cons.mp tracked.unique).2
    rw [place, (List.perm_middle.map Task.id).nodup_iff] at unique
    intro task member same
    exact (List.nodup_cons.mp unique).1 (same ▸ List.mem_map_of_mem member)
  constructor
  case current =>
    rw [current, history, hasRun_switched]
    exact .inl rfl
  case created =>
    intro id hasRun
    rw [history, hasRun_switched] at hasRun
    rw [count]
    rcases hasRun with rfl | before
    · exact tracked.fresh _ (tracked.known next nextMember)
    · exact runs.created id before
  case resumes =>
    intro task member
    rw [history, hasRun_switched]
    rw [items] at member
    rcases List.mem_cons.mp (List.perm_middle.subset member) with rfl | other
    · exact ⟨fun _ => outside, fun _ => .inr runs.current⟩
    · have there : task ∈ s.allTasks.items := by
        rw [place]
        exact List.perm_middle.symm.subset (List.mem_cons_of_mem _ other)
      rw [← runs.resumes task there, or_iff_right (others task other)]

/-- Marking the running task does not change which tasks have run. -/
theorem FirstRuns.mark {s : Sched ρ σ} (runs : FirstRuns s) : FirstRuns s.markFinished := by
  have same : ∀ id, HasRun id s.markFinished.history ↔ HasRun id s.history := fun _ =>
    hasRun_append [.ended s.currentTask.id] rfl
  refine ⟨(same _).mpr runs.current, fun id hasRun => runs.created id ((same id).mp hasRun), ?_⟩
  intro task member
  rw [same]
  exact runs.resumes task member

/-- The lock says nothing about first runs. -/
theorem FirstRuns.relock {s : Sched ρ σ} (runs : FirstRuns s) (lock : σ) :
    FirstRuns { s with editingTaskList := lock } :=
  ⟨runs.current, runs.created, runs.resumes⟩

/-- Every call keeps track of the first runs. -/
theorem Effect.firstRuns {ops : LockOps σ} {s s' : Sched ρ σ} {c : Call ρ}
    (effect : Effect ops s c s') (inv : Inv s) (runs : FirstRuns s) : FirstRuns s' := by
  cases effect with
  | busy refused => exact runs.relock _
  | stayed acquired alone => exact runs.relock _
  | switched acquired found done =>
    exact .switch done (findNextTask_some found) (runs.relock _) (inv.relock _).toTracked (by simp)
  | ended acquired found done =>
    exact .switch done (findNextTask_some found) (runs.relock _).mark (inv.relock _).mark (by simp)
  | @added held task allTasks start adds acquired items id state resume =>
    have same : ∀ id, HasRun id (.created s.numCreated task.registers :: s.history) ↔
        HasRun id s.history := fun _ => hasRun_append [_] rfl
    refine ⟨(same _).mpr runs.current, ?_, ?_⟩
    · intro id hasRun
      exact Nat.lt_succ_of_lt (runs.created id ((same id).mp hasRun))
    · intro other member
      rw [same]
      rw [items] at member
      rcases List.mem_append.mp member with there | new
      · exact runs.resumes other there
      · rw [List.mem_singleton.mp new, id, resume]
        refine ⟨fun hasRun => absurd (runs.created _ hasRun) (Nat.lt_irrefl _), ?_⟩
        exact fun other => absurd rfl (other start)
  | cleaned freed acquired items =>
    have same : ∀ id, HasRun id (freed.map .freed ++ s.history) ↔ HasRun id s.history := fun _ =>
      hasRun_append _ (numSwitches_freed freed)
    refine ⟨(same _).mpr runs.current, fun id hasRun => runs.created id ((same id).mp hasRun), ?_⟩
    intro task member
    rw [items] at member
    rw [same]
    exact runs.resumes task (List.mem_of_mem_filter member)

/-! ## Uses of the lock -/

/-- At a switch the lock is as the caller left it, and what follows is chosen by the context that
is loaded. -/
theorem switchTo_atSwitch {ops : LockOps σ} {s s' : Sched ρ σ} {i : Nat} {next : Task ρ}
    {saved : Context ρ} (done : s.switchTo ops i next saved = .ok s') :
    ∃ atSwitch : Sched ρ σ, atSwitch.editingTaskList = s.editingTaskList ∧
      atSwitch.history = .switched s.currentTask.id saved next.id next.registers :: s.history ∧
      ((next.registers.resume = .sched ∧ s' = atSwitch.returnToSched ops) ∨
        ∃ start, next.registers.resume = .exitSchedulerStub start ∧
          s' = atSwitch.exitSchedulerStub ops) := by
  unfold Sched.switchTo Sched.swapTaskRegisters at done
  cases resume : next.registers.resume with
  | sched =>
    simp only [resume] at done
    cases done
    exact ⟨{ s with
      currentTask := { next with numTimesScheduled := next.numTimesScheduled + 1 }
      allTasks := (s.allTasks.modify i fun _ => s.currentTask).modify i fun task =>
        { task with registers := saved }
      history := .switched s.currentTask.id saved next.id next.registers :: s.history },
      rfl, rfl, .inl ⟨rfl, rfl⟩⟩
  | exitSchedulerStub start =>
    simp only [resume] at done
    cases done
    exact ⟨{ s with
      currentTask := { next with numTimesScheduled := next.numTimesScheduled + 1 }
      allTasks := (s.allTasks.modify i fun _ => s.currentTask).modify i fun task =>
        { task with registers := saved }
      history := .switched s.currentTask.id saved next.id next.registers :: s.history },
      rfl, rfl, .inr ⟨start, rfl, rfl⟩⟩
  | endCurTask =>
    simp only [resume] at done
    cases done

/-- A switch with the lock taken hands the lock to the next task. -/
theorem LockUse.ofSwitch {ops : LockOps σ} {free : σ → Bool}
    {s taken s' : Sched ρ (σ × List LockEvent)} {i : Nat} {next : Task ρ} {saved : Context ρ}
    (recent : List (Event ρ)) (done : taken.switchTo ops.recorded i next saved = .ok s')
    (history : taken.history = recent ++ s.history) (quiet : numSwitches recent = 0)
    (held : free taken.editingTaskList.1 = false)
    (record : taken.editingTaskList.2 = .acquired :: s.editingTaskList.2)
    (runs : FirstRuns taken) (waits : Waiting taken.allTasks.items i next) : LockUse ops free s s' := by
  obtain ⟨-, front, back, place, -⟩ := waits
  have first := runs.resumes next (by simp [place])
  rw [history] at first
  obtain ⟨atSwitch, lock, switched, follows⟩ := switchTo_atSwitch done
  rw [history] at switched
  rw [← lock] at held record
  rcases follows with ⟨resume, rfl⟩ | ⟨start, resume, rfl⟩
  · refine .resumed recent switched quiet held record resume (first.mpr ?_)
    simp [resume]
  · refine .started recent switched quiet held record resume ?_
    intro hasRun
    exact first.mp hasRun start resume

/-- Every call that begins with the lock free takes it and hands it on or releases it. -/
theorem Effect.lockUse {ops : LockOps σ} {free : σ → Bool} (contract : ops.Contract free)
    {s s' : Sched ρ (σ × List LockEvent)} {c : Call ρ} (effect : Effect ops.recorded s c s')
    (runs : FirstRuns s) (outside : Outside free s) : LockUse ops free s s' := by
  have taken : ∀ {held}, Acquires ops.recorded s.editingTaskList held →
      free held.1 = false ∧ held.2 = .acquired :: s.editingTaskList.2 := fun acquired =>
    acquired.recorded contract outside.free
  cases effect with
  | busy refused =>
    have success := contract.tries s.editingTaskList.1
    rw [outside.free] at success
    simp [LockOps.recorded, success] at refused
  | stayed acquired alone =>
    exact .alone [] rfl rfl (congrArg _ (taken acquired).2) (contract.releases _)
  | switched acquired found done =>
    exact .ofSwitch [] done rfl rfl (taken acquired).1 (taken acquired).2 (runs.relock _)
      (findNextTask_some found)
  | ended acquired found done =>
    exact .ofSwitch [_] done rfl rfl (taken acquired).1 (taken acquired).2 (runs.relock _).mark
      (findNextTask_some found)
  | added adds acquired items id state resume =>
    exact .alone [_] rfl rfl (congrArg _ (taken acquired).2) (contract.releases _)
  | cleaned freed acquired items =>
    exact .alone _ rfl (numSwitches_freed freed) (congrArg _ (taken acquired).2) (contract.releases _)

/-! ## The record changes nothing -/

/-- A switch does the same without the record. -/
theorem switchTo_forget (ops : LockOps σ) (s : Sched ρ (σ × List LockEvent)) (i : Nat) (next : Task ρ)
    (saved : Context ρ) :
    (s.switchTo ops.recorded i next saved).map Sched.forget = s.forget.switchTo ops i next saved := by
  unfold Sched.switchTo Sched.swapTaskRegisters
  cases resume : next.registers.resume <;> simp only [resume] <;> rfl

/-- A call does the same without the record. -/
theorem call_forget (ops : LockOps σ) (arch : Arch ρ) (s : Sched ρ (σ × List LockEvent))
    (c : Call ρ) : (s.call ops.recorded arch c).map Sched.forget = s.forget.call ops arch c := by
  cases c with
  | sched cpu =>
    cases taken : ops.tryAcquireLock s.editingTaskList.1 with | mk acquired lock =>
    have plain : ops.tryAcquireLock s.forget.editingTaskList = (acquired, lock) := taken
    have recorded := tryAcquireLock_recorded taken
    simp only [Sched.call, Sched.sched, plain, recorded]
    simp only [Sched.forget]
    cases acquired with
    | false => rfl
    | true =>
      simp only [Bool.not_true, Bool.false_eq_true, ↓reduceIte]
      cases found : findNextTask s.allTasks.items with
      | none => rfl
      | some choice => exact switchTo_forget ops _ choice.1 choice.2 _
  | addNewTask memory cpu startFunc =>
    simp only [Sched.call, Sched.addNewTask, LockOps.recorded, Sched.forget]
    cases ops.acquireLock s.editingTaskList.1 with
    | error fault => rfl
    | ok lock =>
      simp only [Except.map, ok_bind]
      cases createNewTask arch memory cpu startFunc s.numCreated with
      | error fault => rfl
      | ok task =>
        simp only [ok_bind]
        cases s.allTasks.pushBack memory.malloc arch.sizeofTask task <;> rfl
  | endCurTask cpu =>
    simp only [Sched.call, Sched.endCurTask, LockOps.recorded, Sched.forget]
    cases ops.acquireLock s.editingTaskList.1 with
    | error fault => rfl
    | ok lock =>
      simp only [Except.map, ok_bind]
      cases found : findNextTask s.allTasks.items with
      | none => rfl
      | some choice => exact switchTo_forget ops _ choice.1 choice.2 _
  | cleanupFinishedTasks =>
    cases taken : ops.tryAcquireLock s.editingTaskList.1 with | mk acquired lock =>
    have plain : ops.tryAcquireLock s.forget.editingTaskList = (acquired, lock) := taken
    have recorded := tryAcquireLock_recorded taken
    simp only [Sched.call, Sched.cleanupFinishedTasks, plain, recorded]
    simp only [Sched.forget]
    cases acquired with
    | false => rfl
    | true =>
      simp only [Bool.not_true, Bool.false_eq_true, ↓reduceIte]
      cases cleanupFrom (s.allTasks.items.length + 1) 0 s.allTasks s.history <;> rfl

/-- A run does the same without the record. -/
theorem calls_forget (ops : LockOps σ) (arch : Arch ρ) {s s' : Sched ρ (σ × List LockEvent)}
    {cs : List (Call ρ)} (run : s.calls ops.recorded arch cs = .ok s') :
    s.forget.calls ops arch cs = .ok s'.forget := by
  induction cs generalizing s with
  | nil =>
    cases run
    rfl
  | cons c rest ih =>
    obtain ⟨s₁, first, later⟩ := of_bind_ok run
    have plain := call_forget ops arch s c
    rw [first] at plain
    rw [Sched.calls, ← plain]
    exact ih later

/-! ## Runs -/

/-- What holds of the lock, the tasks and the history between two calls. -/
structure HandOff (free : σ → Bool) (s : Sched ρ (σ × List LockEvent)) : Prop where
  /-- The invariant of the scheduler. -/
  inv : Inv s
  /-- Where the tasks go on. -/
  runs : FirstRuns s
  /-- The lock. -/
  outside : Outside free s

/-- A call that returns uses the lock and ends outside again. -/
theorem HandOff.call {ops : LockOps σ} {free : σ → Bool} (contract : ops.Contract free)
    (arch : Arch ρ) {s : Sched ρ (σ × List LockEvent)} (before : HandOff free s) (c : Call ρ) :
    (∃ s', s.call ops.recorded arch c = .ok s' ∧ LockUse ops free s s' ∧ HandOff free s') ∨
      ∃ memory cpu startFunc, c = .addNewTask memory cpu startFunc ∧
        s.addNewTask ops.recorded arch memory cpu startFunc = .error .abort := by
  obtain ⟨held, taken, -⟩ := contract.acquires _ before.outside.free
  have acquired : ops.recorded.acquireLock s.editingTaskList =
      .ok (held, .acquired :: s.editingTaskList.2) := by
    simp only [LockOps.recorded, taken, Except.map]
  rcases call_cases ops.recorded arch before.inv acquired c with ⟨s', done, inv⟩ | failed
  · have effect := call_effect done
    have uses := effect.lockUse contract before.runs before.outside
    exact .inl ⟨s', done, uses, inv, effect.firstRuns before.inv before.runs,
      uses.outside contract before.outside⟩
  · exact .inr failed

/-- A run stays outside between its calls, up to an `add_new_task` without memory. -/
theorem HandOff.calls {ops : LockOps σ} {free : σ → Bool} (contract : ops.Contract free)
    (arch : Arch ρ) {s : Sched ρ (σ × List LockEvent)} (before : HandOff free s)
    (cs : List (Call ρ)) :
    (∃ s', s.calls ops.recorded arch cs = .ok s' ∧ HandOff free s') ∨
      ∃ front memory cpu startFunc after s',
        cs = front ++ .addNewTask memory cpu startFunc :: after ∧
        s.calls ops.recorded arch front = .ok s' ∧ HandOff free s' ∧
        s'.addNewTask ops.recorded arch memory cpu startFunc = .error .abort := by
  refine calls_keep arch (fun s c outside => ?_) before cs
  rcases outside.call contract arch c with ⟨s₁, done, -, after⟩ | failed
  · exact .inl ⟨s₁, done, after⟩
  · exact .inr failed

/-- `init_scheduler` leaves its lock alone. -/
theorem initScheduler_handOff {free : σ → Bool} (arch : Arch ρ) {lock : σ} (isFree : free lock = true)
    (memory : Memory) (cpu : ρ) (initialTask : UInt32) :
    initScheduler arch (emptyRecord lock) memory cpu initialTask = .error .abort ∨
      ∃ s, initScheduler arch (emptyRecord lock) memory cpu initialTask = .ok s ∧
        initScheduler arch lock memory cpu initialTask = .ok s.forget ∧ HandOff free s := by
  unfold initScheduler
  rcases createNewTask_cases arch memory cpu initialTask 0 with failed | ⟨task, made, id, state, -⟩
  · rw [failed]
    exact .inl rfl
  · rw [made]
    refine .inr ⟨_, rfl, rfl, inv_init _ id state, ⟨.inl id, ?_, by simp [KVector.empty]⟩, isFree, trivial⟩
    rintro id' (rfl | ⟨_, _, _, member⟩)
    · exact Nat.one_pos
    · simp at member

/-- Whatever calls follow `init_scheduler`, the lock is free after each of them and was acquired and
released in turns; the call that follows takes it once, and it is released once, by the call itself
or by the task that the call switches to. The only run that stops is one without memory for a new
task. The record of the lock does not change the run. -/
theorem calls_handOff {ops : LockOps σ} {free : σ → Bool} (contract : ops.Contract free)
    (arch : Arch ρ) {lock : σ} (isFree : free lock = true) (memory : Memory) (cpu : ρ)
    (initialTask : UInt32) (cs : List (Call ρ)) :
    initScheduler arch (emptyRecord lock) memory cpu initialTask = .error .abort ∨
      ∃ s₀, initScheduler arch (emptyRecord lock) memory cpu initialTask = .ok s₀ ∧
        initScheduler arch lock memory cpu initialTask = .ok s₀.forget ∧
        ((∃ s, s₀.calls ops.recorded arch cs = .ok s ∧ s₀.forget.calls ops arch cs = .ok s.forget ∧
            Outside free s ∧
            ∀ c, (∃ s', s.call ops.recorded arch c = .ok s' ∧ LockUse ops free s s') ∨
              ∃ memory cpu startFunc, c = .addNewTask memory cpu startFunc ∧
                s.addNewTask ops.recorded arch memory cpu startFunc = .error .abort) ∨
          ∃ before memory cpu startFunc after s,
            cs = before ++ .addNewTask memory cpu startFunc :: after ∧
            s₀.calls ops.recorded arch before = .ok s ∧ Outside free s ∧
            s.addNewTask ops.recorded arch memory cpu startFunc = .error .abort) := by
  rcases initScheduler_handOff arch isFree memory cpu initialTask with
    failed | ⟨s₀, start, plain, start₀⟩
  · exact .inl failed
  refine .inr ⟨s₀, start, plain, ?_⟩
  rcases start₀.calls contract arch cs with ⟨s, run, reached⟩ | stopped
  · refine .inl ⟨s, run, calls_forget ops arch run, reached.outside, ?_⟩
    intro c
    rcases reached.call contract arch c with ⟨s', done, uses, -⟩ | failed
    · exact .inl ⟨s', done, uses⟩
    · exact .inr failed
  · obtain ⟨before, memory, cpu, start, after, s, split, run, reached, failed⟩ := stopped
    exact .inr ⟨before, memory, cpu, start, after, s, split, run, reached.outside, failed⟩

/-- A lock that keeps the contract. -/
theorem exampleLock_contract : exampleLock.Contract id := by
  refine ⟨fun _ => rfl, fun _ => rfl, ?_, ?_, fun _ => rfl⟩
  · rintro lock rfl
    exact ⟨false, rfl, rfl⟩
  · rintro lock rfl
    rfl

/-- Two tasks that take turns, one of which is created, started in the stub and ended. -/
def exampleTurns : List (Call Unit) :=
  [.addNewTask ⟨fun _ => some 0xD0000000, fun _ => true⟩ () 0x2000, .sched (), .sched (),
    .sched (), .endCurTask (), .cleanupFinishedTasks]

/-- Six calls take the lock six times, and end with it free. -/
theorem calls_handOff_turns :
    let arch : Arch Unit := ⟨0, fun _ _ _ => ()⟩
    let memory : Memory := ⟨fun _ => some 0xC0000000, fun _ => true⟩
    (initScheduler arch (emptyRecord true) memory () 0x1000 = .error .abort ∨
      ∃ s₀, initScheduler arch (emptyRecord true) memory () 0x1000 = .ok s₀ ∧
        initScheduler arch true memory () 0x1000 = .ok s₀.forget ∧
        ((∃ s, s₀.calls exampleLock.recorded arch exampleTurns = .ok s ∧
            s₀.forget.calls exampleLock arch exampleTurns = .ok s.forget ∧ Outside id s ∧
            ∀ c, (∃ s', s.call exampleLock.recorded arch c = .ok s' ∧ LockUse exampleLock id s s') ∨
              ∃ memory cpu startFunc, c = .addNewTask memory cpu startFunc ∧
                s.addNewTask exampleLock.recorded arch memory cpu startFunc = .error .abort) ∨
          ∃ before memory cpu startFunc after s,
            exampleTurns = before ++ .addNewTask memory cpu startFunc :: after ∧
            s₀.calls exampleLock.recorded arch before = .ok s ∧ Outside id s ∧
            s.addNewTask exampleLock.recorded arch memory cpu startFunc = .error .abort)) ∧
      ((initScheduler arch (emptyRecord true) memory () 0x1000 >>= fun s =>
        s.calls exampleLock.recorded arch exampleTurns).toOption.map fun s =>
          (s.editingTaskList.1, s.editingTaskList.2.length, s.tasks.map Task.id)) =
        some (true, 12, [0]) :=
  ⟨calls_handOff exampleLock_contract ⟨0, fun _ _ _ => ()⟩ rfl _ () 0x1000 exampleTurns,
    by decide +kernel⟩

end FelineOS.Scheduler
