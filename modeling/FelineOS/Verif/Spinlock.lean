import FelineOS.Kernel.Spinlock
import Mathlib.Data.Fintype.Basic
import Mathlib.Logic.Relation

/-!
# The polarity of the spinlock

The loop of `acquire_lock` and the result of `try_acquire_lock` take a flag that was set for
success. A client therefore gets the lock by finding it taken: alone it does so with its
second `test_and_set`, against a holder with its first. Mutual exclusion is left to the
clients (`exclusive_of_uncontended`), and `try_acquire_lock` does the opposite of what it
says, whatever the flag is.
-/

namespace FelineOS.Spinlock

variable {ι : Type} [DecidableEq ι] {arch : Interrupts} {w w' : World ι} {c : ι}

/-- The client has got the lock and not cleared the flag yet. -/
def Pc.owns : Pc → Bool
  | .save _ | .trySave _ | .inside | .release | .clear _ => true
  | _ => false

/-- The client is at the `test_and_set` of `acquire_lock`. -/
def Pc.spins : Pc → Bool
  | .spin _ => true
  | _ => false

/-- The client is at the `test_and_set` of `try_acquire_lock`. -/
def Pc.tries : Pc → Bool
  | .tryTest _ => true
  | _ => false

/-- At most one client has the lock. -/
def World.Exclusive (w : World ι) : Prop :=
  ∀ c d, (w.pc c).owns = true → (w.pc d).owns = true → c = d

/-- The event is no `test_and_set` of `acquire_lock` against a client that has the lock, and
none of `try_acquire_lock`. -/
def Uncontended (w : World ι) : Event ι → Prop
  | .advance c => (w.pc c).tries = false ∧
      ((w.pc c).spins = true → ∀ d, d ≠ c → (w.pc d).owns = false)
  | .acquireLock _ => True
  | .tryAcquireLock _ => True
  | .releaseLock _ => True

instance [Fintype ι] (w : World ι) (e : Event ι) : Decidable (Uncontended w e) :=
  match e with
  | .advance c => inferInstanceAs (Decidable ((w.pc c).tries = false ∧
      ((w.pc c).spins = true → ∀ d, d ≠ c → (w.pc d).owns = false)))
  | .acquireLock _ => inferInstanceAs (Decidable True)
  | .tryAcquireLock _ => inferInstanceAs (Decidable True)
  | .releaseLock _ => inferInstanceAs (Decidable True)

/-- A client gets the lock in one of the two `test_and_set` steps only. -/
theorem owns_advance {pc : Pc} (lock : Lock) (status : UInt32)
    (owns : (pc.advance arch lock status).1.owns = true) :
    pc.owns = true ∨ pc.spins = true ∨ pc.tries = true := by
  cases pc <;> first | exact Or.inl owns | exact Or.inl rfl | exact Or.inr (Or.inl rfl) |
    exact Or.inr (Or.inr rfl)

/-- Moving a client to a place where it has the lock only if it had it, or if no other client
has it. -/
theorem World.Exclusive.update {pc : Pc} (exclusive : w.Exclusive)
    (gained : pc.owns = true → (w.pc c).owns = true ∨ ∀ d, d ≠ c → (w.pc d).owns = false) :
    ∀ d e, (Function.update w.pc c pc d).owns = true →
      (Function.update w.pc c pc e).owns = true → d = e := by
  have onlyMoved : pc.owns = true → ∀ d, d ≠ c → ¬ (w.pc d).owns = true := by
    intro owns d away held
    rcases gained owns with before | alone
    · exact away (exclusive d c held before)
    · rw [alone d away] at held
      contradiction
  intro d e dOwns eOwns
  by_cases atD : d = c
  · by_cases atE : e = c
    · rw [atD, atE]
    · subst atD
      rw [Function.update_self] at dOwns
      rw [Function.update_of_ne atE] at eOwns
      exact absurd eOwns (onlyMoved dOwns e atE)
  · rw [Function.update_of_ne atD] at dOwns
    by_cases atE : e = c
    · subst atE
      rw [Function.update_self] at eOwns
      exact absurd dOwns (onlyMoved eOwns d atD)
    · rw [Function.update_of_ne atE] at eOwns
      exact exclusive d e dOwns eOwns

/-- An event that is not contended keeps the lock with one client. -/
theorem World.Exclusive.fire {e : Event ι} (exclusive : w.Exclusive) (calm : Uncontended w e)
    (fired : w.fire arch e = some w') : w'.Exclusive := by
  cases e with
  | acquireLock c =>
    simp only [World.fire] at fired
    split at fired
    · cases fired
      exact exclusive.update fun owns => nomatch owns
    · cases fired
  | tryAcquireLock c =>
    simp only [World.fire] at fired
    split at fired
    · cases fired
      exact exclusive.update fun owns => nomatch owns
    · cases fired
  | releaseLock c =>
    simp only [World.fire] at fired
    split at fired
    · rename_i here
      cases fired
      refine exclusive.update fun _ => Or.inl ?_
      rw [here]
      rfl
    · cases fired
  | advance c =>
    simp only [World.fire] at fired
    cases fired
    refine exclusive.update fun owns => ?_
    obtain ⟨noTry, alone⟩ := calm
    rcases owns_advance _ _ owns with held | spins | tries
    · exact Or.inl held
    · exact Or.inr (alone spins)
    · rw [noTry] at tries
      contradiction

/-- One event that is not contended. -/
def CalmStep (arch : Interrupts) (w w' : World ι) : Prop :=
  ∃ e, Uncontended w e ∧ w.fire arch e = some w'

/-- The step of a `try_acquire_lock` that decides its result. -/
structure Decides (arch : Interrupts) (w w' : World ι) (c : ι) (result : Bool) : Prop where
  /-- The client is at the `test_and_set`. -/
  here : ∃ flags, w.pc c = .tryTest flags
  /-- It does the step. -/
  fired : w.fire arch (.advance c) = some w'
  /-- The result decides what follows. -/
  result_eq : result = (w'.pc c).owns

/-- The `test_and_set` of `try_acquire_lock`. -/
theorem advance_tryTest (lock : Lock) (status flags : UInt32) :
    (Pc.tryTest flags).advance arch lock status =
      (if lock.flag = true then .trySave flags else .tryRestore flags,
        { lock with flag := true }, status) := rfl

/-- The result is the flag as it was, and the flag is set afterwards. -/
theorem Decides.spec {result : Bool} (decides : Decides arch w w' c result) :
    result = w.lock.flag ∧ w'.lock.flag = true := by
  obtain ⟨⟨flags, here⟩, fired, same⟩ := decides
  simp only [World.fire, here, advance_tryTest] at fired
  cases fired
  refine ⟨?_, rfl⟩
  simp only [Function.update_self] at same
  rw [same]
  cases w.lock.flag <;> rfl

/-- In every run from a free lock in which no client tests the flag while another has the lock,
and `try_acquire_lock` is not used, at most one client has the lock. Every `try_acquire_lock`
breaks both halves of its contract: it returns true exactly when the flag was set, and a false
result has changed the flag. -/
theorem exclusive_of_uncontended (start : ∀ c, w.pc c = .outside)
    (run : Relation.ReflTransGen (CalmStep arch) w w') :
    w'.Exclusive ∧
      ∀ (v v' : World ι) (c : ι) (result : Bool), Decides arch v v' c result →
        ¬ (result = true ↔ v.lock.flag = false) ∧
          (result = false → v'.lock.flag ≠ v.lock.flag) := by
  constructor
  · induction run with
    | refl =>
      intro c d owns
      rw [start c] at owns
      contradiction
    | tail _ step ih =>
      obtain ⟨e, calm, fired⟩ := step
      exact ih.fire calm fired
  · intro v v' c result decides
    obtain ⟨same, taken⟩ := decides.spec
    rw [same, taken]
    cases v.lock.flag <;> simp

/-- Two clients, the first alone with the lock. -/
theorem exclusive_of_uncontended_first :
    ∃ w', Relation.ReflTransGen (CalmStep .i386)
        (⟨⟨false, 0⟩, fun _ => .outside, fun _ => 0x202⟩ : World Bool) w' ∧
      w'.Exclusive ∧ w'.pc false = .inside := by
  let w₀ : World Bool := ⟨⟨false, 0⟩, fun _ => .outside, fun _ => 0x202⟩
  let w₁ : World Bool := w₀.goto false .acquire
  let w₂ : World Bool := (w₁.fire .i386 (.advance false)).getD w₁
  let w₃ : World Bool := (w₂.fire .i386 (.advance false)).getD w₂
  let w₄ : World Bool := (w₃.fire .i386 (.advance false)).getD w₃
  let w₅ : World Bool := (w₄.fire .i386 (.advance false)).getD w₄
  have call : CalmStep .i386 w₀ w₁ := ⟨.acquireLock false, by decide, rfl⟩
  have disable : CalmStep .i386 w₁ w₂ := ⟨.advance false, by decide, rfl⟩
  have sets : CalmStep .i386 w₂ w₃ := ⟨.advance false, by decide, rfl⟩
  have finds : CalmStep .i386 w₃ w₄ := ⟨.advance false, by decide, rfl⟩
  have saves : CalmStep .i386 w₄ w₅ := ⟨.advance false, by decide, rfl⟩
  have run : Relation.ReflTransGen (CalmStep .i386) w₀ w₅ :=
    ((((Relation.ReflTransGen.single call).tail disable).tail sets).tail finds).tail saves
  exact ⟨w₅, run, (exclusive_of_uncontended (fun _ => rfl) run).1, by decide⟩

/-- Two clients that both call `acquire_lock`, one after the other, are both inside; and a
`try_acquire_lock` of a free lock fails and leaves it taken. -/
theorem not_exclusive :
    (World.fireAll .i386 (⟨⟨false, 0⟩, fun _ => .outside, fun _ => 0x202⟩ : World Bool)
        [.acquireLock false, .advance false, .advance false, .advance false, .advance false,
          .acquireLock true, .advance true, .advance true, .advance true]).map
        (fun w => (w.pc false, w.pc true)) = some (.inside, .inside) ∧
      (World.fireAll .i386 (⟨⟨false, 0⟩, fun _ => .outside, fun _ => 0x202⟩ : World Bool)
        [.tryAcquireLock false, .advance false, .advance false, .advance false]).map
        (fun w => (w.pc false, w.lock.flag)) = some (.outside, true) := by
  decide

end FelineOS.Spinlock
