/-!
# Computations that fail for one reason only

A computation asks an oracle, which answers a question in a state or refuses it. It settles when it
comes to a good result, or fails in one given way: at a question that is refused, or with an excuse.
An oracle that answers more changes nothing of that, as long as it refuses the same question. A
sequence of computations settles when each of its parts does.
-/

namespace Library

variable {σ κ ω ε α β : Type}

/-- The second oracle gives all answers of the first. -/
def AnswersAll (oracle more : σ → κ → Option ω) : Prop :=
  ∀ state question answer, oracle state question = some answer →
    more state question = some answer

/-- An oracle gives its own answers. -/
theorem AnswersAll.refl (oracle : σ → κ → Option ω) : AnswersAll oracle oracle :=
  fun _ _ _ given => given

/-- The computation fails at a question that may be asked: it is refused, and whatever an oracle
answers besides, the computation fails with it as long as this question is refused. -/
def FailsAt (asked : σ → κ → Prop) (oracle : σ → κ → Option ω) (error : ε)
    (run : (σ → κ → Option ω) → Except ε α) : Prop :=
  ∃ state question, asked state question ∧ oracle state question = none ∧
    ∀ more, AnswersAll oracle more → more state question = none → run more = .error error

/-- A computation that has a good result, or fails with a given error, at a question or with an
excuse. -/
inductive Settles (asked : σ → κ → Prop) (oracle : σ → κ → Option ω) (error : ε) (excuse : Prop)
    (good : α → Prop) (run : (σ → κ → Option ω) → Except ε α) : Prop where
  /-- A question is refused. -/
  | refused (refused : FailsAt asked oracle error run)
  /-- It fails with an excuse. -/
  | excused (excused : excuse) (fails : ∀ more, AnswersAll oracle more → run more = .error error)
  /-- It has a good result. -/
  | ended (result : α) (ended : good result)
    (returns : ∀ more, AnswersAll oracle more → run more = .ok result)

namespace Settles

variable {asked : σ → κ → Prop} {oracle : σ → κ → Option ω} {error : ε} {excuse : Prop}
  {good : α → Prop} {better : β → Prop} {run : (σ → κ → Option ω) → Except ε α}

/-- A good result that is there. -/
theorem done {result : α} (ended : good result) :
    Settles asked oracle error excuse good fun _ => .ok result :=
  .ended result ended fun _ _ => rfl

/-- What settles in a better way settles. -/
theorem imp {fine : α → Prop} (settles : Settles asked oracle error excuse fine run)
    (implies : ∀ result, fine result → good result) :
    Settles asked oracle error excuse good run := by
  cases settles with
  | refused refused => exact .refused refused
  | excused excused fails => exact .excused excused fails
  | ended result ended returns => exact .ended result (implies _ ended) returns

/-- More questions may be asked. -/
theorem widen {wider : σ → κ → Prop} (settles : Settles asked oracle error excuse good run)
    (implies : ∀ state question, asked state question → wider state question) :
    Settles wider oracle error excuse good run := by
  cases settles with
  | refused refused =>
    obtain ⟨state, question, asks, rest⟩ := refused
    exact .refused ⟨state, question, implies _ _ asks, rest⟩
  | excused excused fails => exact .excused excused fails
  | ended result ended returns => exact .ended result ended returns

/-- A computation settles as one does that comes to the same with every oracle that answers more. -/
theorem congr {other : (σ → κ → Option ω) → Except ε α}
    (settles : Settles asked oracle error excuse good run)
    (same : ∀ more, AnswersAll oracle more → other more = run more) :
    Settles asked oracle error excuse good other := by
  cases settles with
  | refused refused =>
    obtain ⟨state, question, asks, none, fails⟩ := refused
    exact .refused ⟨state, question, asks, none, fun more answers refuses =>
      (same more answers).trans (fails more answers refuses)⟩
  | excused excused fails =>
    exact .excused excused fun more answers => (same more answers).trans (fails more answers)
  | ended result ended returns =>
    exact .ended result ended fun more answers => (same more answers).trans (returns more answers)

/-- A sequence settles when both parts do. -/
theorem bind {next : (σ → κ → Option ω) → α → Except ε β}
    (first : Settles asked oracle error excuse good run)
    (later : ∀ result, good result →
      Settles asked oracle error excuse better fun oracle => next oracle result) :
    Settles asked oracle error excuse better fun oracle => run oracle >>= next oracle := by
  cases first with
  | refused refused =>
    obtain ⟨state, question, asks, none, fails⟩ := refused
    refine .refused ⟨state, question, asks, none, fun more answers refuses => ?_⟩
    dsimp only
    rw [fails more answers refuses]
    rfl
  | excused excused fails =>
    refine .excused excused fun more answers => ?_
    rw [fails more answers]
    rfl
  | ended result ended returns =>
    apply (later _ ended).congr
    intro more answers
    rw [returns more answers]
    rfl

/-- The two ways to settle. -/
theorem cases_of (settles : Settles asked oracle error excuse good run) :
    (run oracle = .error error ∧ (FailsAt asked oracle error run ∨
        excuse ∧ ∀ more, AnswersAll oracle more → run more = .error error)) ∨
      ∃ result, run oracle = .ok result ∧ good result := by
  have itself := AnswersAll.refl oracle
  cases settles with
  | refused refused =>
    obtain ⟨state, question, asks, none, fails⟩ := refused
    exact .inl ⟨fails _ itself none, .inl ⟨state, question, asks, none, fails⟩⟩
  | excused excused fails => exact .inl ⟨fails _ itself, .inr ⟨excused, fails⟩⟩
  | ended result ended returns => exact .inr ⟨result, returns _ itself, ended⟩

end Settles

end Library
