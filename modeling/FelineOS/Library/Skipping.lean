import Mathlib.Logic.Relation

/-!
# Searching past obstacles

A search stands at a place. The first obstacle of a list that blocks the place either makes the
search give up or sends it behind the obstacle; at a place that no obstacle blocks it comes to rest.
Places are numbers and every obstacle blocks only places up to a last one, so the search passes each
obstacle at most once.
-/

namespace Library

/-- A weaker test that one more element of a list passes counts more. -/
theorem countP_lt_of_mem {α : Type} {p q : α → Bool} {l : List α} {a : α} (member : a ∈ l)
    (weaker : ∀ x ∈ l, p x = true → q x = true) (fails : ¬ p a = true) (passes : q a = true) :
    l.countP p < l.countP q := by
  obtain ⟨xs, ys, rfl⟩ := List.append_of_mem member
  have front : xs.countP p ≤ xs.countP q :=
    List.countP_mono_left fun x listed => weaker x (by simp [listed])
  have back : ys.countP p ≤ ys.countP q :=
    List.countP_mono_left fun x listed => weaker x (by simp [listed])
  simp only [List.countP_append, List.countP_cons_of_neg fails, List.countP_cons_of_pos passes]
  omega

/-- The obstacles of a search. -/
structure Obstacles (ω : Type) where
  /-- They are tried in this order. -/
  all : List ω
  /-- The obstacle blocks the place. -/
  blocks : Nat → ω → Bool
  /-- The search ends at the obstacle. -/
  final : ω → Bool
  /-- The place behind the obstacle. -/
  behind : ω → Nat

namespace Obstacles

variable {ω : Type} (obstacles : Obstacles ω) {p q start fuel : Nat} {o : ω}

/-- The obstacle that the search meets at a place. -/
def meets (p : Nat) : Option ω := obstacles.all.find? (obstacles.blocks p)

/-- The search, with an allowance of places to try: it comes to rest at a place or gives up. -/
def seek : Nat → Nat → Option (Option Nat)
  | 0, _ => none
  | fuel + 1, p =>
    match obstacles.meets p with
    | none => some (some p)
    | some o => if obstacles.final o then some none else seek fuel (obstacles.behind o)

/-- The search goes on behind the obstacle that it meets. -/
def Skips (p q : Nat) : Prop :=
  ∃ o, obstacles.meets p = some o ∧ obstacles.final o = false ∧ q = obstacles.behind o

/-- The place is tried by a search. -/
def Tried (start : Nat) : Nat → Prop := Relation.ReflTransGen obstacles.Skips start

/-- The search gives up at an obstacle it meets at some place. -/
def GivesUp (start : Nat) (o : ω) : Prop :=
  ∃ p, obstacles.Tried start p ∧ obstacles.meets p = some o ∧ obstacles.final o = true

/-- The search comes to rest at a place. -/
def Rests (start p : Nat) : Prop := obstacles.Tried start p ∧ obstacles.meets p = none

variable {obstacles}

/-- No obstacle blocks the place where the search rests. -/
theorem meets_eq_none : obstacles.meets p = none ↔ ∀ o ∈ obstacles.all, obstacles.blocks p o = false := by
  unfold meets
  rw [List.find?_eq_none]
  simp

/-- The obstacle that is met blocks the place. -/
theorem of_meets (met : obstacles.meets p = some o) : o ∈ obstacles.all ∧ obstacles.blocks p o = true :=
  ⟨List.mem_of_find?_eq_some met, List.find?_some met⟩

/-- How a search can end. -/
theorem seek_spec {r : Option Nat} (found : obstacles.seek fuel start = some r) :
    (∃ p, r = some p ∧ obstacles.Rests start p) ∨ r = none ∧ ∃ o, obstacles.GivesUp start o := by
  induction fuel generalizing start with
  | zero => cases found
  | succ fuel ih =>
    unfold seek at found
    cases met : obstacles.meets start with
    | none =>
      rw [met] at found
      cases found
      exact .inl ⟨start, rfl, .refl, met⟩
    | some o =>
      rw [met] at found
      cases final : obstacles.final o with
      | true =>
        simp only [final, if_true] at found
        cases found
        exact .inr ⟨rfl, o, start, .refl, met, final⟩
      | false =>
        simp only [final, Bool.false_eq_true, if_false] at found
        have skip : obstacles.Skips start (obstacles.behind o) := ⟨o, met, final, rfl⟩
        rcases ih found with ⟨p, rfl, tried, rests⟩ | ⟨rfl, b, p, tried, stops⟩
        · exact .inl ⟨p, rfl, tried.head skip, rests⟩
        · exact .inr ⟨rfl, b, p, tried.head skip, stops⟩

/-- The next place is determined. -/
theorem skips_unique : Relator.RightUnique obstacles.Skips := by
  rintro p q r ⟨o, met, -, rfl⟩ ⟨b, other, -, rfl⟩
  rw [met] at other
  cases other
  rfl

/-- Nothing is tried after a place from which the search does not go on. -/
theorem Tried.eq_of_stuck (tried : obstacles.Tried p q) (stuck : ∀ r, ¬ obstacles.Skips p r) :
    q = p := by
  rcases Relation.ReflTransGen.cases_head tried with same | ⟨r, skip, -⟩
  · exact same.symm
  · exact absurd skip (stuck r)

/-- The search does not go on from the place where it rests. -/
theorem Rests.stuck (rests : obstacles.Rests start p) (r : Nat) : ¬ obstacles.Skips p r := by
  rintro ⟨o, met, -⟩
  rw [rests.2] at met
  cases met

/-- A search ends at one place at most. -/
theorem Tried.unique (one : obstacles.Tried start p) (two : obstacles.Tried start q)
    (stuckP : ∀ r, ¬ obstacles.Skips p r) (stuckQ : ∀ r, ¬ obstacles.Skips q r) : p = q := by
  rcases Relation.ReflTransGen.total_of_right_unique skips_unique one two with onward | back
  · exact (Tried.eq_of_stuck onward stuckP).symm
  · exact Tried.eq_of_stuck back stuckQ

/-- The search rests at one place at most. -/
theorem Rests.unique (one : obstacles.Rests start p) (two : obstacles.Rests start q) : p = q :=
  Tried.unique one.1 two.1 one.stuck two.stuck

/-- A search that rests does not give up. -/
theorem Rests.not_givesUp (rests : obstacles.Rests start p) : ¬ obstacles.GivesUp start o := by
  rintro ⟨q, tried, met, final⟩
  have stuck : ∀ r, ¬ obstacles.Skips q r := by
    rintro r ⟨b, other, passes, -⟩
    rw [met] at other
    cases other
    rw [final] at passes
    cases passes
  obtain rfl := Tried.unique rests.1 tried rests.stuck stuck
  rw [rests.2] at met
  cases met

section Ordered

variable (last : ω → Nat) (reach : ∀ p o, obstacles.blocks p o = true → p ≤ last o)
  (beyond : ∀ o ∈ obstacles.all, last o < obstacles.behind o)

include reach beyond

/-- Places are tried in ascending order. -/
theorem Tried.le (tried : obstacles.Tried p q) : p ≤ q := by
  induction tried with
  | refl => exact Nat.le_refl _
  | tail _ skip ih =>
    obtain ⟨o, met, -, rfl⟩ := skip
    obtain ⟨listed, blocked⟩ := of_meets met
    exact Nat.le_trans ih (Nat.le_trans (reach _ o blocked) (Nat.le_of_lt (beyond o listed)))

/-- One more place than there are obstacles is enough. -/
theorem seek_ends (enough : obstacles.all.length < fuel) :
    ∃ r, obstacles.seek fuel start = some r := by
  have ends : ∀ fuel start, obstacles.all.countP (fun o => decide (start ≤ last o)) < fuel →
      ∃ r, obstacles.seek fuel start = some r := by
    intro fuel
    induction fuel with
    | zero => exact fun _ none => absurd none (Nat.not_lt_zero _)
    | succ fuel ih =>
      intro start left
      unfold seek
      cases met : obstacles.meets start with
      | none => exact ⟨_, rfl⟩
      | some o =>
        cases final : obstacles.final o with
        | true => exact ⟨none, by simp only [final, if_true]⟩
        | false =>
          simp only [final, Bool.false_eq_true, if_false]
          apply ih
          -- The obstacle that is passed no longer counts.
          obtain ⟨listed, blocked⟩ := of_meets met
          have before := reach start o blocked
          have behind := beyond o listed
          have fewer := countP_lt_of_mem (p := fun b => decide (obstacles.behind o ≤ last b))
            (q := fun b => decide (start ≤ last b)) listed
            (fun b _ later => by simp only [decide_eq_true_eq] at later ⊢; omega)
            (by simp only [decide_eq_true_eq]; omega) (by simpa using before)
          omega
  exact ends fuel start (Nat.lt_of_le_of_lt List.countP_le_length enough)

end Ordered

/-- Where no place that an obstacle keeps from is free before the place behind it, the search tries
no place above a free one. -/
theorem Tried.le_free {free : Nat} (tried : obstacles.Tried start p) (below : start ≤ free)
    (rests : obstacles.meets free = none)
    (closest : ∀ p o, obstacles.blocks p o = true → p ≤ free → obstacles.blocks free o = false →
      obstacles.behind o ≤ free) : p ≤ free := by
  induction tried with
  | refl => exact below
  | tail _ skip ih =>
    obtain ⟨o, met, -, rfl⟩ := skip
    obtain ⟨listed, blocked⟩ := of_meets met
    exact closest _ o blocked ih (meets_eq_none.mp rests o listed)

end Obstacles

end Library
