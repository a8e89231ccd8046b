import FelineOS.Kernel.TaskWorld
import FelineOS.Spec.TaskContexts

/-!
# No task loses its context

What the assembly code of a target has to do so that the machine is a machine of tasks that wait for
their contexts, and the runs of such a machine. The code that lays out a stack or switches tasks
writes to its own areas only, and leaves what it saves; a switch reads what was there.
-/

namespace FelineOS.Tasks

open Library Memory

variable {σ κ : Type} {target : Target σ κ} {w w' : World σ κ}

/-- What the assembly code of a target is for. -/
structure Target.Correct (target : Target σ κ) : Prop where
  /-- Only the registers and the stack matter for what is held. -/
  copied {m later : Memory} {area other : BitVec 32} {kept : κ}
    (registers : m.Copied area later other target.sizeofRegisters)
    (stack : later.Same m (target.stack kept).base (target.stack kept).length)
    (held : target.Held m area kept) : target.Held later other kept
  /-- A new task is held, and the memory outside of the areas is the same. -/
  creates {s laidOut filled : σ} {written : List Area} {area : BitVec 32} {initial : κ}
    (creates : target.Creates s written laidOut filled area initial) :
    (∀ base length, Outside written base length →
      (target.memory laidOut).Same (target.memory s) base length) ∧
    target.Held (target.memory filled) area initial
  /-- The task that was running is held, and the memory outside of the areas is the same. -/
  saves {s later : σ} {written : List Area} {area next : BitVec 32} {saved : κ}
    (switches : target.Switches s written later area saved next) :
    (∀ base length, Outside written base length →
      (target.memory later).Same (target.memory s) base length) ∧
    target.Held (target.memory later) area saved
  /-- The next task gets what was held of it. -/
  loads {s later : σ} {written : List Area} {area : BitVec 32} {saved : κ} {next : Waiting κ}
    (switches : target.Switches s written later area saved next.area)
    (apart : target.Apart next written)
    (held : target.Held (target.memory s) next.area next.kept) :
    target.reads later next.kept = next.kept

/-- The tasks without the machine. -/
def World.contexts (target : Target σ κ) (w : World σ κ) : Scheduler.Contexts κ where
  running := w.running
  waiting := w.waiting.map fun t => (t.id, target.context t.kept)
  history := w.history

/-- The machine has what the tasks that wait get back. -/
def World.Holds (target : Target σ κ) (w : World σ κ) : Prop :=
  ∀ t ∈ w.waiting, target.Held (target.memory w.machine) t.area t.kept

/-- A task that nobody writes to is left alone. -/
theorem left_of_outside {m later : Memory} {written : List Area} {t : Waiting κ}
    (outside : ∀ base length, Outside written base length → later.Same m base length)
    (apart : target.Apart t written) : target.Left m later t t where
  id := rfl
  kept := rfl
  area := (outside _ _ apart.1).copied
  stack := outside _ _ apart.2

/-- A task is held where its registers went. -/
theorem Target.Correct.held (correct : target.Correct) {m later : Memory} {old new : Waiting κ}
    (left : target.Left m later old new) (held : target.Held m old.area old.kept) :
    target.Held later new.area new.kept := by
  rw [left.kept]
  exact correct.copied left.area left.stack held

/-- Code that leaves the tasks alone changes nothing but where their registers are. -/
theorem Target.Correct.left_all (correct : target.Correct) {m later : Memory}
    {waiting moved : List (Waiting κ)} (left : List.Forall₂ (target.Left m later) waiting moved)
    (held : ∀ t ∈ waiting, target.Held m t.area t.kept) :
    (moved.map fun t => (t.id, target.context t.kept)) =
        (waiting.map fun t => (t.id, target.context t.kept)) ∧
      ∀ t ∈ moved, target.Held later t.area t.kept := by
  induction left with
  | nil => exact ⟨rfl, fun _ member => absurd member List.not_mem_nil⟩
  | @cons old new waiting moved first _ ih =>
    obtain ⟨same, rest⟩ := ih fun t member => held t (List.mem_cons_of_mem old member)
    constructor
    · rw [List.map_cons, List.map_cons, same, first.id, first.kept]
    · intro t member
      rcases List.mem_cons.mp member with rfl | later
      · exact correct.held first (held old List.mem_cons_self)
      · exact rest t later

/-- The numbers of the tasks. -/
theorem contexts_ids (target : Target σ κ) (w : World σ κ) :
    (w.contexts target).waiting.map Prod.fst = w.waiting.map Waiting.id := by
  simp [World.contexts]

/-- The place of a task among those that wait. -/
theorem contexts_split (target : Target σ κ) {front back : List (Waiting κ)} {task : Waiting κ}
    (split : w.waiting = front ++ task :: back) : (w.contexts target).waiting =
      (front.map fun t => (t.id, target.context t.kept)) ++
        (task.id, target.context task.kept) ::
          back.map fun t => (t.id, target.context t.kept) := by
  rw [World.contexts, split, List.map_append, List.map_cons]

/-- One step of the machine is one of the tasks or none, and the machine still has what they get
back. -/
theorem World.Step.contexts (correct : target.Correct) (step : World.Step target w w')
    (holds : w.Holds target) :
    (w'.contexts target = w.contexts target ∨
      Scheduler.Contexts.Step (w.contexts target) (w'.contexts target)) ∧ w'.Holds target := by
  cases step with
  | @work later moved left =>
    obtain ⟨same, held⟩ := correct.left_all left holds
    refine ⟨Or.inl ?_, held⟩
    unfold World.contexts
    rw [same]
  | @create id written laidOut filled area initial moved fresh creates others left =>
    obtain ⟨outside, new⟩ := correct.creates creates
    have before : ∀ t ∈ w.waiting, target.Held (target.memory laidOut) t.area t.kept :=
      fun t member => correct.held (left_of_outside outside (others t member)) (holds t member)
    obtain ⟨same, held⟩ := correct.left_all left before
    constructor
    · right
      have unknown :
          id ∉ (w.contexts target).running :: (w.contexts target).waiting.map Prod.fst := by
        rwa [contexts_ids]
      have created := Scheduler.Contexts.Step.create (target.context initial) unknown
      unfold World.contexts at created ⊢
      rw [List.map_cons, same]
      exact created
    · intro t member
      rcases List.mem_cons.mp member with rfl | older
      · exact new
      · exact held t older
  | @switch front back next written later area saved split switches others =>
    have listed : next ∈ w.waiting := by
      rw [split]
      exact List.mem_append_right _ List.mem_cons_self
    obtain ⟨outside, put⟩ := correct.saves switches
    have gets := correct.loads switches (others next listed) (holds next listed)
    constructor
    · right
      have switched :=
        Scheduler.Contexts.Step.switch (target.context saved) (contexts_split target split)
      unfold World.contexts at switched ⊢
      rw [gets, List.map_cons, List.map_append]
      exact switched
    · intro t member
      rcases List.mem_cons.mp member with rfl | older
      · exact put
      · have before : t ∈ w.waiting := by
          rw [split, List.mem_append, List.mem_cons]
          exact (List.mem_append.mp older).imp_right Or.inr
        exact correct.held (left_of_outside outside (others t before)) (holds t before)
  | @remove front back task split =>
    constructor
    · right
      have removed := Scheduler.Contexts.Step.remove (contexts_split target split)
      unfold World.contexts at removed ⊢
      rw [List.map_append]
      exact removed
    · intro t member
      apply holds
      rw [split, List.mem_append, List.mem_cons]
      exact (List.mem_append.mp member).imp_right Or.inr

/-- A run of the machine is a run of the tasks. -/
theorem World.Reachable.contexts (correct : target.Correct) {start : σ}
    (reachable : World.Reachable target start w) :
    Scheduler.Contexts.Reachable 0 (w.contexts target) ∧ w.Holds target := by
  induction reachable with
  | start => exact ⟨.start, fun _ member => absurd member List.not_mem_nil⟩
  | step _ next ih =>
    obtain ⟨reached, holds⟩ := ih
    obtain ⟨same | step, kept⟩ := next.contexts correct holds
    · rw [same]
      exact ⟨reached, kept⟩
    · exact ⟨reached.step step, kept⟩

/-- Every switch of a run gives the next task its context, and the machine has the contexts of all
tasks that wait. -/
theorem World.Reachable.kept (correct : target.Correct) {start : σ}
    (reachable : World.Reachable target start w) :
    Scheduler.ContextsKept w.history ∧ w.Holds target := by
  obtain ⟨reached, holds⟩ := reachable.contexts correct
  exact ⟨reached.inv.kept, holds⟩

end FelineOS.Tasks
