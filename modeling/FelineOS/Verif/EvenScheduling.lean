import FelineOS.Verif.Scheduler

/-!
# Even scheduling

What one call of the scheduler can do, whatever the lock answers, and how often the tasks are
switched to. `find_next_task` takes the minimum over the vector, without the running task; what
makes the counts even is that the running task is always at the maximum.
-/

namespace FelineOS.Scheduler

variable {ρ σ : Type}

/-! ## What a call does -/

/-- The event is a switch. -/
def Event.isSwitch : Event ρ → Bool
  | .switched .. => true
  | .created .. | .ended _ | .freed _ => false

/-- The number of switches in a history. -/
def numSwitches (history : List (Event ρ)) : Nat := history.countP Event.isSwitch

/-- Freeing memory is no switch. -/
theorem numSwitches_freed (freed : List TaskAllocation) :
    numSwitches (freed.map .freed : List (Event ρ)) = 0 := by
  apply List.countP_eq_zero.mpr
  intro event member
  obtain ⟨allocation, -, rfl⟩ := List.mem_map.mp member
  exact Bool.false_ne_true

/-- The call is `add_new_task`. -/
def Call.isAdd : Call ρ → Bool
  | .addNewTask .. => true
  | .sched _ | .endCurTask _ | .cleanupFinishedTasks => false

/-- The lock was taken, by either of the two calls. -/
def Acquires (ops : LockOps σ) (lock held : σ) : Prop :=
  ops.tryAcquireLock lock = (true, held) ∨ ops.acquireLock lock = .ok held

/-- The running task is marked as finished. -/
def Sched.markFinished (s : Sched ρ σ) : Sched ρ σ :=
  { s with
    currentTask := { s.currentTask with state := .finished }
    history := .ended s.currentTask.id :: s.history }

/-- What a call that returns has done. -/
inductive Effect (ops : LockOps σ) (s : Sched ρ σ) (c : Call ρ) : Sched ρ σ → Prop where
  /-- The lock was in use. -/
  | busy {lock : σ} (refused : ops.tryAcquireLock s.editingTaskList = (false, lock)) :
    Effect ops s c { s with editingTaskList := lock }
  /-- No other task can run. -/
  | stayed {held : σ} (acquired : Acquires ops s.editingTaskList held)
    (alone : findNextTask s.allTasks.items = none) :
    Effect ops s c { s with editingTaskList := ops.releaseLock held }
  /-- `sched` switched to another task. -/
  | switched {held : σ} {i : Nat} {next : Task ρ} {cpu : ρ} {s' : Sched ρ σ}
    (acquired : Acquires ops s.editingTaskList held)
    (found : findNextTask s.allTasks.items = some (i, next))
    (done : { s with editingTaskList := held }.switchTo ops i next ⟨cpu, .sched⟩ = .ok s') :
    Effect ops s c s'
  /-- `end_cur_task` switched to another task. -/
  | ended {held : σ} {i : Nat} {next : Task ρ} {cpu : ρ} {s' : Sched ρ σ}
    (acquired : Acquires ops s.editingTaskList held)
    (found : findNextTask s.allTasks.items = some (i, next))
    (done : { s with editingTaskList := held }.markFinished.switchTo ops i next ⟨cpu, .endCurTask⟩ =
      .ok s') :
    Effect ops s c s'
  /-- `add_new_task` added a task. -/
  | added {held : σ} {task : Task ρ} {allTasks : KVector (Task ρ)} {start : UInt32}
    (adds : c.isAdd) (acquired : Acquires ops s.editingTaskList held)
    (items : allTasks.items = s.allTasks.items ++ [task]) (id : task.id = s.numCreated)
    (state : task.state = .runnable) (resume : task.registers.resume = .exitSchedulerStub start) :
    Effect ops s c { s with
      editingTaskList := ops.releaseLock held
      allTasks
      numCreated := s.numCreated + 1
      history := .created s.numCreated task.registers :: s.history }
  /-- `cleanup_finished_tasks` removed the finished tasks. -/
  | cleaned {held : σ} {allTasks : KVector (Task ρ)} (freed : List TaskAllocation)
    (acquired : Acquires ops s.editingTaskList held)
    (items : allTasks.items = s.allTasks.items.filter (·.state ≠ .finished)) :
    Effect ops s c { s with
      editingTaskList := ops.releaseLock held
      allTasks
      history := freed.map .freed ++ s.history }

/-- `sched` is busy, stays or switches. -/
theorem sched_effect {ops : LockOps σ} {s s' : Sched ρ σ} {c : Call ρ} {cpu : ρ}
    (done : s.sched ops cpu = .ok s') : Effect ops s c s' := by
  unfold Sched.sched at done
  cases taken : ops.tryAcquireLock s.editingTaskList with | mk acquired lock =>
  cases acquired with
  | false =>
    simp only [taken, Bool.not_false, ↓reduceIte, Except.ok.injEq] at done
    subst done
    exact .busy taken
  | true =>
    simp only [taken, Bool.not_true, Bool.false_eq_true, ↓reduceIte] at done
    cases found : findNextTask s.allTasks.items with
    | none =>
      simp only [found, Except.ok.injEq] at done
      subst done
      exact .stayed (.inl taken) found
    | some choice =>
      simp only [found] at done
      exact .switched (.inl taken) found done

/-- `end_cur_task` stays or switches. -/
theorem endCurTask_effect {ops : LockOps σ} {s s' : Sched ρ σ} {c : Call ρ} {cpu : ρ}
    (done : s.endCurTask ops cpu = .ok s') : Effect ops s c s' := by
  unfold Sched.endCurTask at done
  obtain ⟨held, taken, done⟩ := of_bind_ok done
  cases found : findNextTask s.allTasks.items with
  | none =>
    simp only [found] at done
    cases done
    exact .stayed (.inr taken) found
  | some choice =>
    simp only [found] at done
    exact .ended (.inr taken) found done

/-- `add_new_task` adds a task that starts in the stub. -/
theorem addNewTask_effect {ops : LockOps σ} {arch : Arch ρ} {s s' : Sched ρ σ} {memory : Memory}
    {cpu : ρ} {startFunc : UInt32} (done : s.addNewTask ops arch memory cpu startFunc = .ok s') :
    Effect ops s (.addNewTask memory cpu startFunc) s' := by
  unfold Sched.addNewTask at done
  obtain ⟨held, taken, done⟩ := of_bind_ok done
  obtain ⟨task, made, done⟩ := of_bind_ok done
  obtain ⟨allTasks, grown, done⟩ := of_bind_ok done
  cases done
  rcases createNewTask_cases arch memory cpu startFunc s.numCreated with
    failed | ⟨task', made', id, state, resume⟩
  · rw [failed] at made
    cases made
  rcases s.allTasks.pushBack_cases memory.malloc arch.sizeofTask task with
    failed | ⟨allTasks', grown', items⟩
  · rw [failed] at grown
    cases grown
  rw [made] at made'
  rw [grown] at grown'
  cases made'
  cases grown'
  exact .added rfl (.inr taken) items id state resume

/-- `cleanup_finished_tasks` is busy or removes the finished tasks. -/
theorem cleanupFinishedTasks_effect {ops : LockOps σ} {s s' : Sched ρ σ} {c : Call ρ}
    (done : s.cleanupFinishedTasks ops = .ok s') : Effect ops s c s' := by
  unfold Sched.cleanupFinishedTasks at done
  cases taken : ops.tryAcquireLock s.editingTaskList with | mk acquired lock =>
  cases acquired with
  | false =>
    simp only [taken, Bool.not_false, ↓reduceIte] at done
    cases done
    exact .busy taken
  | true =>
    obtain ⟨left, removed, items⟩ := cleanupFrom_eq (s.allTasks.items.length + 1) 0 s.allTasks
      s.history (Nat.zero_le _) (by omega)
    simp only [taken, Bool.not_true, Bool.false_eq_true, ↓reduceIte, removed, ok_bind] at done
    cases done
    exact .cleaned _ (.inl taken) items

/-- Every call that returns has one of the effects. -/
theorem call_effect {ops : LockOps σ} {arch : Arch ρ} {s s' : Sched ρ σ} {c : Call ρ}
    (done : s.call ops arch c = .ok s') : Effect ops s c s' := by
  cases c with
  | sched cpu => exact sched_effect done
  | addNewTask memory cpu startFunc => exact addNewTask_effect done
  | endCurTask cpu => exact endCurTask_effect done
  | cleanupFinishedTasks => exact cleanupFinishedTasks_effect done

/-- A switch that returns went to a task with another context than that of an ended one. -/
theorem switchTo_returns {ops : LockOps σ} {s s' : Sched ρ σ} {i : Nat} {next : Task ρ}
    {saved : Context ρ} (done : s.switchTo ops i next saved = .ok s') :
    next.registers.resume ≠ .endCurTask := by
  intro ended
  simp [Sched.switchTo, Sched.swapTaskRegisters, ended] at done

/-- What a switch that returns leaves in the running task, the vector and the history. -/
theorem switchTo_result {ops : LockOps σ} {s s' : Sched ρ σ} {i : Nat} {next : Task ρ}
    {saved : Context ρ} (done : s.switchTo ops i next saved = .ok s')
    (waits : Waiting s.allTasks.items i next) :
    ∃ front back, s.allTasks.items = front ++ next :: back ∧
      s'.allTasks.items = front ++ { s.currentTask with registers := saved } :: back ∧
      s'.currentTask = { next with numTimesScheduled := next.numTimesScheduled + 1 } ∧
      s'.numCreated = s.numCreated ∧
      s'.history = .switched s.currentTask.id saved next.id next.registers :: s.history := by
  obtain ⟨-, front, back, place, rfl⟩ := waits
  obtain ⟨s'', done', current, items, count, history⟩ := switchTo_eq ops s saved place
    (switchTo_returns done)
  rw [done] at done'
  cases done'
  exact ⟨front, back, place, items, current, count, history⟩

/-- A task in the place of another one is that task or was there before. -/
theorem mem_replaced {front back : List (Task ρ)} {old new task : Task ρ}
    (member : task ∈ front ++ new :: back) : task = new ∨ task ∈ front ++ old :: back := by
  simp only [List.mem_append, List.mem_cons] at member ⊢
  tauto

/-! ## The choice is a minimum -/

/-- The loop never goes to a greater count, and passes no task with a smaller one. -/
theorem findNextTaskFrom_le (tasks : List (Task ρ)) (i : Nat) (nextTask : Option (Nat × Task ρ))
    {found : Nat} {task : Task ρ} (result : findNextTaskFrom tasks i nextTask = some (found, task)) :
    (∀ j earlier, nextTask = some (j, earlier) →
      task.numTimesScheduled ≤ earlier.numTimesScheduled) ∧
      ∀ p ∈ tasks, p.state = .runnable → task.numTimesScheduled ≤ p.numTimesScheduled := by
  induction tasks generalizing i nextTask with
  | nil =>
    refine ⟨?_, by simp⟩
    rintro j earlier rfl
    cases result
    exact UInt32.le_refl _
  | cons p rest ih =>
    obtain ⟨chosen, passed⟩ := ih _ _ result
    by_cases run : p.state = .runnable
    case neg =>
      rw [if_neg run] at chosen
      refine ⟨chosen, ?_⟩
      rintro q (- | ⟨-, member⟩) state
      · exact absurd state run
      · exact passed q member state
    case pos =>
      rw [if_pos run] at chosen
      cases nextTask with
      | none =>
        refine ⟨by simp, ?_⟩
        rintro q (- | ⟨-, member⟩) state
        · exact chosen i p rfl
        · exact passed q member state
      | some pair =>
        obtain ⟨j, earlier⟩ := pair
        simp only at chosen
        by_cases less : earlier.numTimesScheduled > p.numTimesScheduled
        case pos =>
          rw [if_pos less] at chosen
          have here := chosen i p rfl
          refine ⟨?_, ?_⟩
          · rintro _ _ ⟨⟩
            exact UInt32.le_trans here (UInt32.le_of_lt less)
          · rintro q (- | ⟨-, member⟩) state
            · exact here
            · exact passed q member state
        case neg =>
          rw [if_neg less] at chosen
          have here := chosen j earlier rfl
          refine ⟨?_, ?_⟩
          · rintro _ _ ⟨⟩
            exact here
          · rintro q (- | ⟨-, member⟩) state
            · exact UInt32.le_trans here (UInt32.not_lt.mp less)
            · exact passed q member state

/-- `find_next_task` returns a task with the least count. -/
theorem findNextTask_le {tasks : List (Task ρ)} {i : Nat} {next : Task ρ}
    (result : findNextTask tasks = some (i, next)) {p : Task ρ} (member : p ∈ tasks)
    (run : p.state = .runnable) :
    next.numTimesScheduled.toNat ≤ p.numTimesScheduled.toNat :=
  UInt32.le_iff_toNat_le.mp ((findNextTaskFrom_le tasks 0 none result).2 p member run)

/-! ## Counts -/

/-- The counts of the runnable tasks are even, and the running task is at the maximum. -/
structure Even (s : Sched ρ σ) : Prop where
  /-- The running task can run. -/
  running : s.currentTask.state = .runnable
  /-- No waiting task was switched to more often than the running one. -/
  greatest : ∀ task ∈ s.allTasks.items, task.state = .runnable →
    task.numTimesScheduled.toNat ≤ s.currentTask.numTimesScheduled.toNat
  /-- The running task is at most one ahead. -/
  close : ∀ task ∈ s.allTasks.items, task.state = .runnable →
    s.currentTask.numTimesScheduled.toNat ≤ task.numTimesScheduled.toNat + 1

/-- Even counts differ by at most one. -/
theorem Even.within {s : Sched ρ σ} (even : Even s) {p q : Task ρ} (pMember : p ∈ s.tasks)
    (qMember : q ∈ s.tasks) (pRuns : p.state = .runnable) (qRuns : q.state = .runnable) :
    p.numTimesScheduled.toNat ≤ q.numTimesScheduled.toNat + 1 := by
  rcases List.mem_cons.mp pMember with rfl | pWaits <;>
    rcases List.mem_cons.mp qMember with rfl | qWaits
  · omega
  · exact even.close q qWaits qRuns
  · have less := even.greatest p pWaits pRuns
    omega
  · have less := even.greatest p pWaits pRuns
    have near := even.close q qWaits qRuns
    omega

/-- Equal counts are even. -/
theorem Even.ofEqual {s : Sched ρ σ} {n : UInt32} (running : s.currentTask.state = .runnable)
    (equal : ∀ task ∈ s.tasks, task.state = .runnable → task.numTimesScheduled = n) : Even s := by
  have current := equal s.currentTask List.mem_cons_self running
  refine ⟨running, ?_, ?_⟩
  · intro task member run
    rw [current, equal task (List.mem_cons_of_mem _ member) run]
  · intro task member run
    rw [current, equal task (List.mem_cons_of_mem _ member) run]
    omega

/-- A switch to a task with the least count keeps the counts even if the count does not wrap. The
running task that is left may have been marked as finished. -/
theorem Even.switch {s s' : Sched ρ σ} (even : Even s) {i : Nat} {next : Task ρ}
    (found : findNextTask s.allTasks.items = some (i, next))
    (fits : next.numTimesScheduled.toNat + 1 < 2 ^ 32)
    (current : s'.currentTask = { next with numTimesScheduled := next.numTimesScheduled + 1 })
    (waiting : ∀ task ∈ s'.allTasks.items, task.state = .runnable →
      task.numTimesScheduled = s.currentTask.numTimesScheduled ∨ task ∈ s.allTasks.items) :
    Even s' := by
  obtain ⟨run, front, back, place, -⟩ := findNextTask_some found
  have nextMember : next ∈ s.allTasks.items := by simp [place]
  have counted : s'.currentTask.numTimesScheduled.toNat = next.numTimesScheduled.toNat + 1 := by
    rw [current]
    exact (UInt32.toNat_add _ _).trans (Nat.mod_eq_of_lt fits)
  have ahead := even.greatest next nextMember run
  have near := even.close next nextMember run
  refine ⟨by rw [current]; exact run, ?_, ?_⟩
  · intro task member state
    rw [counted]
    rcases waiting task member state with same | there
    · rw [same]
      exact near
    · have less := even.greatest task there state
      omega
  · intro task member state
    rw [counted]
    rcases waiting task member state with same | there
    · rw [same]
      omega
    · have least := findNextTask_le found there state
      omega

/-- A call that adds no task leaves the running task and keeps waiting tasks only, or switches once
to the task with the least count. -/
theorem Effect.counts {ops : LockOps σ} {s s' : Sched ρ σ} {c : Call ρ} (effect : Effect ops s c s')
    (noAdd : c.isAdd = false) :
    (s'.currentTask = s.currentTask ∧ (∀ task ∈ s'.allTasks.items, task ∈ s.allTasks.items) ∧
      numSwitches s'.history = numSwitches s.history) ∨
    ∃ i next, findNextTask s.allTasks.items = some (i, next) ∧
      s'.currentTask = { next with numTimesScheduled := next.numTimesScheduled + 1 } ∧
      (∀ task ∈ s'.allTasks.items, task.state = .runnable →
        task.numTimesScheduled = s.currentTask.numTimesScheduled ∨ task ∈ s.allTasks.items) ∧
      numSwitches s'.history = numSwitches s.history + 1 := by
  cases effect with
  | busy refused => exact .inl ⟨rfl, fun _ member => member, rfl⟩
  | stayed acquired alone => exact .inl ⟨rfl, fun _ member => member, rfl⟩
  | switched acquired found done =>
    obtain ⟨front, back, place, items, current, -, history⟩ :=
      switchTo_result done (findNextTask_some found)
    refine .inr ⟨_, _, found, current, ?_, ?_⟩
    · intro task member _
      rw [items] at member
      rcases mem_replaced member with rfl | there
      · exact .inl rfl
      · exact .inr (place ▸ there)
    · rw [history]
      exact List.countP_cons_of_pos rfl
  | ended acquired found done =>
    obtain ⟨front, back, place, items, current, -, history⟩ :=
      switchTo_result done (findNextTask_some found)
    refine .inr ⟨_, _, found, current, ?_, ?_⟩
    · intro task member state
      rw [items] at member
      rcases mem_replaced member with rfl | there
      · cases state
      · exact .inr (place ▸ there)
    · rw [history]
      exact List.countP_cons_of_pos rfl
  | added adds =>
    rw [adds] at noAdd
    cases noAdd
  | cleaned freed acquired items =>
    refine .inl ⟨rfl, ?_, ?_⟩
    · intro task member
      rw [items] at member
      exact List.mem_of_mem_filter member
    · exact List.countP_append.trans (by rw [← numSwitches, numSwitches_freed, Nat.zero_add]; rfl)

/-- Switches are not forgotten in a run. -/
theorem calls_numSwitches (ops : LockOps σ) (arch : Arch ρ) {s s' : Sched ρ σ} {cs : List (Call ρ)}
    (noAdd : ∀ c ∈ cs, c.isAdd = false) (run : s.calls ops arch cs = .ok s') :
    numSwitches s.history ≤ numSwitches s'.history := by
  induction cs generalizing s with
  | nil =>
    cases run
    exact Nat.le_refl _
  | cons c rest ih =>
    obtain ⟨s₁, first, later⟩ := of_bind_ok run
    have tail := ih (fun c member => noAdd c (List.mem_cons_of_mem _ member)) later
    rcases (call_effect first).counts (noAdd c List.mem_cons_self) with
      ⟨-, -, same⟩ | ⟨_, _, -, -, -, more⟩ <;> omega

/-- A run keeps the counts even as long as there are not enough switches to wrap the count of the
running task. -/
theorem Even.calls (ops : LockOps σ) (arch : Arch ρ) {s s' : Sched ρ σ} {cs : List (Call ρ)}
    (even : Even s) (noAdd : ∀ c ∈ cs, c.isAdd = false) (run : s.calls ops arch cs = .ok s')
    (few : s.currentTask.numTimesScheduled.toNat +
      (numSwitches s'.history - numSwitches s.history) < 2 ^ 32) : Even s' := by
  induction cs generalizing s with
  | nil =>
    cases run
    exact even
  | cons c rest ih =>
    obtain ⟨s₁, first, later⟩ := of_bind_ok run
    have noAddLater : ∀ c ∈ rest, c.isAdd = false := fun c member =>
      noAdd c (List.mem_cons_of_mem _ member)
    have grows := calls_numSwitches ops arch noAddLater later
    rcases (call_effect first).counts (noAdd c List.mem_cons_self) with
      ⟨current, waiting, same⟩ | ⟨i, next, found, current, waiting, more⟩
    · refine ih ⟨?_, ?_, ?_⟩ noAddLater later ?_
      · rw [current]
        exact even.running
      · rw [current]
        exact fun task member => even.greatest task (waiting task member)
      · rw [current]
        exact fun task member => even.close task (waiting task member)
      · rw [current]
        omega
    · -- The task that is switched to is not ahead of the one that is left.
      obtain ⟨state, front, back, place, -⟩ := findNextTask_some found
      have behind := even.greatest next (by simp [place]) state
      refine ih (even.switch found (by omega) current waiting) noAddLater later ?_
      have counted : s₁.currentTask.numTimesScheduled.toNat ≤
          next.numTimesScheduled.toNat + 1 := by
        rw [current]
        exact Nat.le_trans (Nat.le_of_eq (UInt32.toNat_add _ _)) (Nat.mod_le _ _)
      omega

/-- From a state in which all runnable tasks have the same count, as long as no count can have
wrapped, the counts of any two runnable tasks differ by at most one. -/
theorem calls_even (ops : LockOps σ) (arch : Arch ρ) {s s' : Sched ρ σ} {n : UInt32}
    {cs : List (Call ρ)} (running : s.currentTask.state = .runnable)
    (equal : ∀ task ∈ s.tasks, task.state = .runnable → task.numTimesScheduled = n)
    (noAdd : ∀ c ∈ cs, c.isAdd = false) (run : s.calls ops arch cs = .ok s')
    (few : n.toNat + (numSwitches s'.history - numSwitches s.history) < 2 ^ 32) :
    ∀ p ∈ s'.tasks, ∀ q ∈ s'.tasks, p.state = .runnable → q.state = .runnable →
      p.numTimesScheduled.toNat ≤ q.numTimesScheduled.toNat + 1 := by
  have current := equal s.currentTask List.mem_cons_self running
  have even : Even s' := (Even.ofEqual running equal).calls ops arch noAdd run (by rwa [current])
  intro p pMember q qMember pRuns qRuns
  exact even.within pMember qMember pRuns qRuns

/-- A task that was switched to `count` times and can be resumed in `sched`. -/
def exampleTask (id : Nat) (count : UInt32) : Task Unit where
  registers := ⟨(), .sched⟩
  state := .runnable
  numTimesScheduled := count
  allocations := KVector.empty
  id := id

/-- Three such tasks, the first of them running, and a free lock. -/
def exampleSched (count : UInt32) : Sched Unit Bool where
  editingTaskList := true
  currentTask := exampleTask 0 count
  allTasks := ⟨[exampleTask 1 count, exampleTask 2 count], 2, Nat.le_refl 2⟩
  numCreated := 3
  history := []

/-- A lock that is free when the flag is set. -/
def exampleLock : LockOps Bool where
  acquireLock free := if free then .ok false else .error .divergence
  tryAcquireLock free := (free, false)
  releaseLock _ := true

/-- Calls under which three tasks take turns and one of them ends. -/
def exampleCalls : List (Call Unit) :=
  [.sched (), .sched (), .endCurTask (), .cleanupFinishedTasks, .sched ()]

/-- The counts of three tasks that take turns. -/
theorem calls_even_turns :
    ∃ s', (exampleSched 5).calls exampleLock ⟨0, fun _ _ _ => ()⟩ exampleCalls = .ok s' ∧
      (s'.tasks.map fun task => (task.id, task.numTimesScheduled)) = [(1, 7), (2, 6)] ∧
      ∀ p ∈ s'.tasks, ∀ q ∈ s'.tasks, p.state = .runnable → q.state = .runnable →
        p.numTimesScheduled.toNat ≤ q.numTimesScheduled.toNat + 1 := by
  refine ⟨_, rfl, by decide, ?_⟩
  exact @calls_even _ _ exampleLock ⟨0, fun _ _ _ => ()⟩ (exampleSched 5) _ 5 exampleCalls rfl
    (by decide) (by decide) rfl (by decide)

/-- The first switch from the greatest count wraps it to zero. -/
theorem calls_not_even_wrapped :
    let s := exampleSched 0xFFFFFFFF
    (∀ task ∈ s.tasks, task.state = .runnable ∧ task.numTimesScheduled = 0xFFFFFFFF) ∧
      ∃ s', s.calls exampleLock ⟨0, fun _ _ _ => ()⟩ [.sched ()] = .ok s' ∧
        numSwitches s'.history - numSwitches s.history < 2 ^ 32 ∧
        ¬ ∀ p ∈ s'.tasks, ∀ q ∈ s'.tasks, p.state = .runnable → q.state = .runnable →
          p.numTimesScheduled.toNat ≤ q.numTimesScheduled.toNat + 1 :=
  ⟨by decide, _, rfl, by decide, by decide⟩

end FelineOS.Scheduler
