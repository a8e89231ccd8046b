import FelineOS.Spec.Icxxabi

/-!
# Destructors that run too often or never

The test of `__cxa_finalize` for a null function is the wrong way round: with a function it runs
the whole table and keeps it, and with a null function it looks for null entries. So a program
gets what it asks for exactly when nothing is due.
-/

namespace FelineOS.Icxxabi

variable {r after : Registry} {live ran : List AtexitFuncEntry} {f : UInt32}
  {funcs : List AtexitFuncEntry}

/-! ## The table -/

/-- The entries are in the table. -/
theorem Registry.Holds.load (holds : r.Holds live) {i : Nat} (inside : i < live.length) :
    load r.funcs i = .ok live[i] := by
  have place : r.funcs[i]? = live[i]? := by
    rw [← List.getElem?_take_of_lt inside, holds.entries]
  unfold Icxxabi.load
  rw [place, List.getElem?_eq_getElem inside]

/-- They are not more than the table has places. -/
theorem Registry.Holds.length_le (holds : r.Holds live) : live.length ≤ atexitMaxFuncs := by
  have taken := congrArg List.length holds.entries
  rw [List.length_take, holds.size] at taken
  omega

/-- The table of a new program is empty. -/
theorem init_holds : Registry.init.Holds [] := ⟨List.length_replicate, rfl, rfl⟩

/-- A registration holds the new entry behind the others. -/
theorem cxaAtexit_spec (holds : r.Holds live) (entry : AtexitFuncEntry) :
    ∃ after code, cxaAtexit entry r = .ok (after, code) ∧ after.Holds (registered entry live) := by
  have size := holds.size
  have count := holds.count
  unfold cxaAtexit registered
  by_cases room : live.length < atexitMaxFuncs
  · have stored : store r.funcs r.count entry = .ok (r.funcs.set r.count entry) := by
      apply if_pos
      rw [size, count]
      exact room
    rw [if_neg (by omega), if_pos room, stored]
    refine ⟨⟨r.funcs.set r.count entry, r.count + 1⟩, 0, rfl, ?_, ?_, ?_⟩
    · rw [List.length_set, size]
    · rw [List.length_append, count]
      rfl
    · show (r.funcs.set r.count entry).take (live ++ [entry]).length = live ++ [entry]
      rw [List.length_append, List.length_singleton, count, List.take_add_one,
        List.take_set_of_le (Nat.le_refl _), holds.entries,
        List.getElem?_set_self (by omega)]
      rfl
  · rw [if_pos (by omega), if_neg room]
    exact ⟨r, -1, rfl, holds⟩

/-- So a registration is a step that runs nothing. -/
theorem exec_atexit (holds : r.Holds live) (entry : AtexitFuncEntry) :
    ∃ after, exec r (.atexit entry) = .ok (after, []) ∧ after.Holds (registered entry live) := by
  obtain ⟨after, code, stored, holding⟩ := cxaAtexit_spec holds entry
  refine ⟨after, ?_, holding⟩
  rw [exec, stored]
  rfl

/-! ## The loops -/

/-- The loop for a function runs all entries that have one, the last first. -/
theorem runBelow_eq (holds : r.Holds live) {i : Nat} (inside : i ≤ live.length) :
    runBelow r.funcs i =
      .ok ((live.take i).filter fun entry => entry.destructorFunc ≠ 0).reverse := by
  induction i with
  | zero => rfl
  | succ i ih =>
    have next : live.take (i + 1) = live.take i ++ [live[i]] := by
      rw [List.take_add_one, List.getElem?_eq_getElem (Nat.lt_of_succ_le inside)]
      rfl
    rw [runBelow, holds.load (Nat.lt_of_succ_le inside), ok_bind, next, List.filter_append,
      List.reverse_append, ih (Nat.le_of_succ_le inside)]
    by_cases null : live[i].destructorFunc = 0
    · rw [if_neg (not_not_intro null), List.filter_cons_of_neg (by simp [null])]
      rfl
    · rw [if_pos null, call, if_neg null, List.filter_cons_of_pos (by simp [null])]
      rfl

/-- The loop for a null function runs nothing, or calls a null function. -/
theorem removeBelow_ran {i : Nat} (returns : removeBelow 0 i r = .ok (after, ran)) : ran = [] := by
  induction i with
  | zero =>
    cases returns
    rfl
  | succ i ih =>
    rw [removeBelow] at returns
    obtain ⟨entry, -, rest⟩ := of_bind_ok returns
    by_cases null : entry.destructorFunc = 0
    · rw [if_pos null, call, if_pos null] at rest
      cases rest
    · rw [if_neg null] at rest
      exact ih rest

/-! ## Finalization -/

/-- With a function everything that has one is run, and nothing is removed. -/
theorem cxaFinalize_function (holds : r.Holds live) (function : f ≠ 0) : cxaFinalize f r =
    .ok (r, (live.filter fun entry => entry.destructorFunc ≠ 0).reverse) := by
  unfold cxaFinalize
  rw [if_pos function, runBelow_eq holds (Nat.le_of_eq holds.count), holds.count,
    List.take_length]
  rfl

/-- A null function runs nothing. -/
theorem cxaFinalize_null (returns : cxaFinalize 0 r = .ok (after, ran)) : ran = [] := by
  unfold cxaFinalize at returns
  rw [if_neg (not_not_intro rfl)] at returns
  exact removeBelow_ran returns

/-- Nothing is due when no entry has a function. -/
theorem due_of_null (function : f ≠ 0) (null : ∀ entry ∈ live, entry.destructorFunc = 0) :
    due f live = [] ∧ spared f live = live := by
  unfold due spared
  rw [if_neg function, if_neg function, List.filter_eq_nil_iff, List.filter_eq_self]
  have other (entry : AtexitFuncEntry) (member : entry ∈ live) : entry.destructorFunc ≠ f := by
    rw [null entry member]
    exact function.symm
  exact ⟨fun entry member => by simpa using other entry member,
    fun entry member => by simpa using other entry member⟩

/-- A finalization that comes to no destructor changes nothing, as it should. -/
theorem finalize_idle (holds : r.Holds live)
    (idle : ∀ entry ∈ live, f ≠ 0 ∧ entry.destructorFunc = 0) :
    cxaFinalize f r = .ok (r, (due f live).reverse) ∧ spared f live = live ∧ due f live = [] := by
  by_cases function : f = 0
  · have none : live = [] := List.eq_nil_iff_forall_not_mem.mpr fun entry member =>
      (idle entry member).1 function
    subst none function
    have empty : r.count = 0 := holds.count
    unfold cxaFinalize
    rw [empty]
    exact ⟨rfl, rfl, rfl⟩
  · have null (entry : AtexitFuncEntry) (member : entry ∈ live) : entry.destructorFunc = 0 :=
      (idle entry member).2
    obtain ⟨nothing, kept⟩ := due_of_null function null
    rw [cxaFinalize_function holds function, nothing]
    refine ⟨?_, kept, rfl⟩
    rw [List.filter_eq_nil_iff.mpr fun entry member => by simp [null entry member]]

/-- A finalization that does what it is for comes to no destructor. -/
theorem idle_of_finalize (holds : r.Holds live)
    (returns : cxaFinalize f r = .ok (after, (due f live).reverse))
    (kept : after.Holds (spared f live)) : ∀ entry ∈ live, f ≠ 0 ∧ entry.destructorFunc = 0 := by
  by_cases function : f = 0
  · subst function
    have nothing : live = [] := List.reverse_eq_nil_iff.mp (cxaFinalize_null returns)
    rw [nothing]
    exact fun entry member => absurd member List.not_mem_nil
  · rw [cxaFinalize_function holds function] at returns
    obtain ⟨rfl, same⟩ := Prod.mk.inj (Except.ok.inj returns)
    -- the table is as long as before, so no entry has this function
    have long : (spared f live).length = live.length := kept.count.symm.trans holds.count
    unfold spared at long
    rw [if_neg function, List.length_filter_eq_length_iff] at long
    have nothing : due f live = [] := by
      unfold due
      rw [if_neg function, List.filter_eq_nil_iff]
      intro entry member
      simpa using long entry member
    rw [nothing, List.reverse_nil, List.reverse_eq_nil_iff, List.filter_eq_nil_iff] at same
    intro entry member
    exact ⟨function, by simpa using same entry member⟩

/-! ## Runs -/

/-- The entries of a run that does what it is for are in the table. -/
theorem Follows.holds {calls : List Call} (follows : Follows r live calls) : r.Holds live := by
  cases calls with
  | nil => exact follows
  | cons call calls => exact follows.1

/-- From entries in the table, a run does what it is for when nothing is ever due, and only
then. -/
theorem follows_iff_idle (holds : r.Holds live) (calls : List Call) :
    Follows r live calls ↔ Idle live calls := by
  induction calls generalizing r live with
  | nil => exact iff_of_true holds trivial
  | cons call calls ih =>
    cases call with
    | atexit entry =>
      obtain ⟨after, step, holding⟩ := exec_atexit holds entry
      show _ ↔ Idle (registered entry live) calls
      rw [← ih holding]
      constructor
      · rintro ⟨-, other, same, rest⟩
        rw [step] at same
        obtain ⟨rfl, -⟩ := Prod.mk.inj (Except.ok.inj same)
        exact rest
      · intro rest
        exact ⟨holds, after, step, rest⟩
    | finalize f =>
      constructor
      · rintro ⟨-, after, returns, rest⟩
        have idle := idle_of_finalize holds returns rest.holds
        obtain ⟨-, kept, -⟩ := finalize_idle holds idle
        have later := (ih rest.holds).mp rest
        rw [show (Call.finalize f).leaves live = live from kept] at later
        exact ⟨idle, later⟩
      · rintro ⟨idle, later⟩
        obtain ⟨returns, kept, -⟩ := finalize_idle holds idle
        refine ⟨holds, r, returns, ?_⟩
        rw [show (Call.finalize f).leaves live = live from kept]
        exact (ih holds).mpr later

/-- A run in which nothing is due runs nothing. -/
theorem run_idle (holds : r.Holds live) {calls : List Call} (idle : Idle live calls)
    (returns : run r calls = .ok (after, ran)) : ran = [] := by
  induction calls generalizing r live ran with
  | nil =>
    cases returns
    rfl
  | cons call calls ih =>
    rw [run] at returns
    obtain ⟨⟨next, now⟩, step, rest⟩ := of_bind_ok returns
    obtain ⟨⟨last, later⟩, remaining, joined⟩ := of_bind_ok rest
    obtain ⟨rfl, rfl⟩ := Prod.mk.inj (Except.ok.inj joined)
    cases call with
    | atexit entry =>
      obtain ⟨stored, same, holding⟩ := exec_atexit holds entry
      rw [same] at step
      obtain ⟨rfl, rfl⟩ := Prod.mk.inj (Except.ok.inj step)
      exact ih holding idle remaining
    | finalize f =>
      obtain ⟨same, -, nothing⟩ := finalize_idle holds idle.1
      rw [exec, same, nothing] at step
      obtain ⟨rfl, rfl⟩ := Prod.mk.inj (Except.ok.inj step)
      exact ih holds idle.2 remaining

/-- A program gets its destructors run as it should exactly when no finalization comes to one. -/
theorem finalizes_iff (calls : List Call) : Finalizes calls ↔ Idle [] calls := by
  constructor
  · intro finalizes
    exact (follows_iff_idle init_holds calls).mp finalizes.follows
  · intro idle
    refine ⟨(follows_iff_idle init_holds calls).mpr idle, ?_⟩
    intro after ran returns entry
    rw [run_idle init_holds idle returns, List.count_nil]
    exact Nat.zero_le _

/-- A destructor that the end of a program forgets. -/
theorem finalizes_forgets :
    ¬ Finalizes [.atexit ⟨0x1000, 0x2000, 0⟩, .finalize 0] := by
  intro finalizes
  have idle := (follows_iff_idle init_holds _).mp finalizes.follows
  have wrong := idle.1 ⟨0x1000, 0x2000, 0⟩ (by decide)
  exact wrong.1 rfl

end FelineOS.Icxxabi
