import FelineOS.Verif.Scheduler

/-!
# Tasks that wait for their contexts

The scheduler takes it for granted that a context which was put away comes back. This is the
purpose of a task switch without its machine: the tasks that wait, each with the context that it
gets back, and the history of who was created and who was switched to.
-/

namespace FelineOS.Scheduler

variable {ρ : Type}

/-- The running task and the contexts of those that wait. -/
structure Contexts (ρ : Type) where
  /-- The running task. -/
  running : Nat
  /-- The other tasks. -/
  waiting : List (Nat × Context ρ)
  /-- What happened so far, the latest first. -/
  history : List (Event ρ)

/-- One step of the tasks. -/
inductive Contexts.Step : Contexts ρ → Contexts ρ → Prop where
  /-- A new task waits with its initial context. -/
  | create {s : Contexts ρ} {id : Nat} (initial : Context ρ)
    (fresh : id ∉ s.running :: s.waiting.map Prod.fst) :
    Step s ⟨s.running, (id, initial) :: s.waiting, .created id initial :: s.history⟩
  /-- The running task puts its context away, and another one gets its own back. -/
  | switch {s : Contexts ρ} {front back : List (Nat × Context ρ)} {next : Nat}
    {loaded : Context ρ} (saved : Context ρ) (split : s.waiting = front ++ (next, loaded) :: back) :
    Step s ⟨next, (s.running, saved) :: (front ++ back),
      .switched s.running saved next loaded :: s.history⟩
  /-- A task that waits is removed. -/
  | remove {s : Contexts ρ} {front back : List (Nat × Context ρ)} {task : Nat × Context ρ}
    (split : s.waiting = front ++ task :: back) : Step s ⟨s.running, front ++ back, s.history⟩

/-- What the history says about the tasks that wait. -/
structure Contexts.Inv (s : Contexts ρ) : Prop where
  /-- No task is there twice. -/
  unique : (s.running :: s.waiting.map Prod.fst).Nodup
  /-- The contexts are the ones that were put away last. -/
  last : ∀ task ∈ s.waiting, lastContext task.1 s.history = some task.2
  /-- Every switch so far gave the right context back. -/
  kept : ContextsKept s.history

/-- Without a history there is nothing to keep. -/
theorem Contexts.inv_start (running : Nat) : (⟨running, [], []⟩ : Contexts ρ).Inv where
  unique := List.nodup_singleton _
  last _ member := absurd member List.not_mem_nil
  kept recent past _ _ _ _ split := by
    cases recent <;> cases split

/-- One task less. -/
theorem Contexts.Inv.remove {s : Contexts ρ} {front back : List (Nat × Context ρ)}
    {task : Nat × Context ρ} (inv : s.Inv) (split : s.waiting = front ++ task :: back) :
    (⟨s.running, front ++ back, s.history⟩ : Contexts ρ).Inv where
  unique := by
    have unique := inv.unique
    rw [split] at unique
    refine unique.sublist (List.Sublist.cons_cons _ ?_)
    exact ((List.Sublist.refl front).append (List.sublist_cons_self task back)).map Prod.fst
  last other member := by
    apply inv.last
    rw [split, List.mem_append, List.mem_cons]
    rcases List.mem_append.mp member with before | behind
    · exact Or.inl before
    · exact Or.inr (Or.inr behind)
  kept := inv.kept

/-- One step keeps the invariant. -/
theorem Contexts.Step.inv {s s' : Contexts ρ} (step : Step s s') (inv : s.Inv) : s'.Inv := by
  cases step with
  | @create id initial fresh =>
    rw [List.mem_cons, not_or] at fresh
    constructor
    case unique =>
      obtain ⟨other, nodup⟩ := List.nodup_cons.mp inv.unique
      simp only [List.map_cons, List.nodup_cons, List.mem_cons, not_or]
      exact ⟨⟨fun same => fresh.1 same.symm, other⟩, fresh.2, nodup⟩
    case last =>
      intro task member
      rcases List.mem_cons.mp member with rfl | older
      · simp [lastContext]
      · have others : id ≠ task.1 := by
          rintro rfl
          exact fresh.2 (List.mem_map_of_mem older)
        simp only [lastContext, if_neg others]
        exact inv.last task older
    case kept =>
      apply inv.kept.cons
      intro _ _ _ _ event
      cases event
  | @switch front back next loaded saved split =>
    have listed : (next, loaded) ∈ s.waiting := by
      rw [split]
      exact List.mem_append_right _ List.mem_cons_self
    have unique := inv.unique
    rw [split, List.map_append, List.map_cons] at unique
    constructor
    case unique =>
      -- the two tasks have changed places
      have places : (next :: s.running :: (front ++ back).map Prod.fst).Perm
          (s.running :: (front.map Prod.fst ++ next :: back.map Prod.fst)) := by
        rw [List.map_append]
        exact (List.Perm.swap ..).trans (List.perm_middle.symm.cons _)
      exact places.nodup_iff.mpr unique
    case last =>
      intro task member
      rcases List.mem_cons.mp member with rfl | older
      · simp [lastContext]
      · have before : task ∈ s.waiting := by
          rw [split, List.mem_append, List.mem_cons]
          exact (List.mem_append.mp older).imp_right Or.inr
        have others : s.running ≠ task.1 := by
          rintro same
          exact (List.nodup_cons.mp inv.unique).1 (same ▸ List.mem_map_of_mem before)
        simp only [lastContext, if_neg others]
        exact inv.last task before
    case kept =>
      apply inv.kept.cons
      intro _ _ _ _ event
      cases event
      exact inv.last _ listed
  | remove split => exact inv.remove split

/-- A run of the tasks. -/
inductive Contexts.Reachable (running : Nat) : Contexts ρ → Prop where
  /-- Only one task runs. -/
  | start : Reachable running ⟨running, [], []⟩
  /-- One more step. -/
  | step {s s' : Contexts ρ} (earlier : Reachable running s) (next : Step s s') :
    Reachable running s'

/-- The invariant of a run. -/
theorem Contexts.Reachable.inv {running : Nat} {s : Contexts ρ} (reachable : Reachable running s) :
    s.Inv := by
  induction reachable with
  | start => exact inv_start running
  | step _ next ih => exact next.inv ih

end FelineOS.Scheduler
