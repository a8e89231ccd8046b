import FelineOS.Verif.DeviceTree
import Mathlib.Logic.Relation

/-!
# The end of the walk over any memory

`stepSize` is the number of bytes that `increment_fdt_struct` adds to the cursor, as a word. The
cursor moves forward exactly when that is not zero and the sum stays below the end of the address
space (`Forward`). A length close to the largest word breaks both. As long as every entry that the
walk comes to is stepped over forward, the cursor never comes back and the walk ends: what is left
of the address space bounds the passes.
-/

namespace FelineOS.DeviceTree

open Library.FlatTree

variable {mem : Memory} {entry : Nat} {blob : Blob} {σ : Type}

/-! ## One step -/

/-- The number of bytes that an entry is stepped over by, where the name of a node has an end. -/
def stepSize (mem : Memory) (entry : Nat) : Option Nat :=
  match nodeType mem entry with
  | .beginNode =>
    (strlen mem wordLimit (nodeName entry)).toOption.map fun len =>
      wrap (4 + padLen (wrap (len + 1)))
  | .prop => some (wrap (12 + padLen (propLen mem entry)))
  | .endNode => some 4
  | .nop => some 4
  | .stop => none
  | .invalid => none

/-- An entry is stepped over by some bytes, and not past the end of the address space. -/
def Forward (mem : Memory) (entry : Nat) : Prop :=
  ∃ n, stepSize mem entry = some n ∧ 0 < n ∧ entry + n < wordLimit

/-- A sum with a word. -/
theorem wrap_add_wrap (a b : Nat) : wrap (a + wrap b) = wrap (a + b) := Nat.add_mod_mod _ _ _

/-- The step adds its number of bytes. -/
theorem increment_ok_iff (next : Nat) : incrementFdtStruct mem entry = .ok next ↔
    ∃ n, stepSize mem entry = some n ∧ next = wrap (entry + n) := by
  unfold incrementFdtStruct stepSize
  cases nodeType mem entry with
  | beginNode =>
    cases strlen mem wordLimit (nodeName entry) with
    | error fault => simp [Except.toOption]
    | ok len =>
      simp [Except.toOption, pure, Except.pure, wrap_add_wrap, Nat.add_assoc, eq_comm]
  | prop => simp [pure, Except.pure, wrap_add_wrap, Nat.add_assoc, eq_comm]
  | endNode => simp [pure, Except.pure, eq_comm]
  | nop => simp [pure, Except.pure, eq_comm]
  | stop => simp [throw, throwThe, MonadExceptOf.throw]
  | invalid => simp [throw, throwThe, MonadExceptOf.throw]

/-- A sum with a word is greater exactly when the word is not zero and the sum does not wrap. -/
theorem lt_wrap_add_iff {a n : Nat} (start : a < wordLimit) (word : n < wordLimit) :
    a < wrap (a + n) ↔ 0 < n ∧ a + n < wordLimit := by
  by_cases fits : a + n < wordLimit
  · rw [wrap_of_lt fits]
    omega
  · have around : wrap (a + n) = a + n - wordLimit := by
      unfold wrap
      rw [Nat.mod_eq_sub_mod (by omega), Nat.mod_eq_of_lt (by omega)]
    omega

/-- A step is a word. -/
theorem stepSize_lt {n : Nat} (size : stepSize mem entry = some n) : n < wordLimit := by
  unfold stepSize at size
  split at size
  · obtain ⟨len, -, rfl⟩ := Option.map_eq_some_iff.mp size
    exact wrap_lt _
  · cases size
    exact wrap_lt _
  · cases size
    decide
  · cases size
    decide
  · cases size
  · cases size

/-- The cursor moves strictly forward exactly where the entry is a forward one. -/
theorem increment_forward_iff (word : entry < wordLimit) :
    (∃ next, incrementFdtStruct mem entry = .ok next ∧ entry < next) ↔ Forward mem entry := by
  constructor
  · rintro ⟨next, moved, forward⟩
    obtain ⟨n, size, rfl⟩ := (increment_ok_iff next).mp moved
    exact ⟨n, size, (lt_wrap_add_iff word (stepSize_lt size)).mp forward⟩
  · rintro ⟨n, size, positive, below⟩
    exact ⟨wrap (entry + n), (increment_ok_iff _).mpr ⟨n, size, rfl⟩,
      (lt_wrap_add_iff word (stepSize_lt size)).mpr ⟨positive, below⟩⟩

/-! ## The walk -/

/-- The types that `increment_fdt_struct` steps over. -/
def NodeType.Steps : NodeType → Prop
  | .beginNode | .endNode | .prop | .nop => True
  | .stop | .invalid => False

/-- The cursor after a step. -/
def Step (mem : Memory) (entry next : Nat) : Prop := incrementFdtStruct mem entry = .ok next

/-- Every entry that the cursor comes to and that has a type to step over is a forward one. -/
def AllForward (mem : Memory) (start : Nat) : Prop :=
  ∀ entry, Relation.ReflTransGen (Step mem) start entry → (nodeType mem entry).Steps →
    Forward mem entry

/-- Only the four types are stepped over. -/
theorem Step.steps {next : Nat} (step : Step mem entry next) : (nodeType mem entry).Steps := by
  unfold Step incrementFdtStruct at step
  cases type : nodeType mem entry with
  | beginNode => trivial
  | endNode => trivial
  | prop => trivial
  | nop => trivial
  | stop =>
    rw [type] at step
    cases step
  | invalid =>
    rw [type] at step
    cases step

section Reached

variable {start : Nat} (word : start < wordLimit)

include word

/-- The cursor stays a word. -/
theorem reached_word (reached : Relation.ReflTransGen (Step mem) start entry) :
    entry < wordLimit := by
  cases reached with
  | refl => exact word
  | tail _ step =>
    obtain ⟨n, -, rfl⟩ := (increment_ok_iff _).mp step
    exact wrap_lt _

variable (all : AllForward mem start)

include all

/-- A step from an entry that the cursor comes to moves it forward. -/
theorem AllForward.step_lt {next : Nat} (reached : Relation.ReflTransGen (Step mem) start entry)
    (step : Step mem entry next) : entry < next := by
  have here := reached_word word reached
  obtain ⟨next', moved, forward⟩ :=
    (increment_forward_iff here).mpr (all entry reached step.steps)
  cases Except.ok.inj (moved.symm.trans step)
  exact forward

/-- A step from an entry with a type to step over exists. -/
theorem AllForward.exists_step (reached : Relation.ReflTransGen (Step mem) start entry)
    (steps : (nodeType mem entry).Steps) :
    ∃ next, Step mem entry next ∧ entry < next ∧ next < wordLimit ∧
      Relation.ReflTransGen (Step mem) start next := by
  obtain ⟨next, moved, forward⟩ :=
    (increment_forward_iff (reached_word word reached)).mpr (all entry reached steps)
  have onward := reached.tail moved
  exact ⟨next, moved, forward, reached_word word onward, onward⟩

/-- The cursor does not come back to an entry. -/
theorem AllForward.not_revisited {next : Nat}
    (reached : Relation.ReflTransGen (Step mem) start entry)
    (later : Relation.TransGen (Step mem) entry next) : entry < next := by
  induction later with
  | single step => exact all.step_lt word reached step
  | tail before step ih =>
    have onward := reached.trans before.to_reflTransGen
    exact Nat.lt_trans ih (all.step_lt word onward step)

end Reached

section Walk

variable {leading : List UInt8} {callback : Nat → CellSize → σ → Except Fault σ}

/-- A computation that ends, and leaves the cursor at an entry that it came to. -/
def EndsFrom (mem : Memory) (start entry : Nat) (outcome : Except Fault (Nat × σ)) : Prop :=
  outcome ≠ .error .divergence ∧
    ∀ next state, outcome = .ok (next, state) →
      entry ≤ next ∧ Relation.ReflTransGen (Step mem) start next

/-- A level that returns. -/
theorem EndsFrom.ok {start next : Nat} {state : σ} (later : entry ≤ next)
    (reached : Relation.ReflTransGen (Step mem) start next) :
    EndsFrom mem start entry (.ok (next, state)) := by
  refine ⟨by simp, fun next' state' returned => ?_⟩
  cases returned
  exact ⟨later, reached⟩

/-- A level that stops for another reason. -/
theorem EndsFrom.error {start : Nat} {fault : Fault} (ends : fault ≠ .divergence) :
    EndsFrom mem start entry (.error fault : Except Fault (Nat × σ)) := by
  refine ⟨fun stuck => ends (Except.error.inj stuck), fun next' state' returned => ?_⟩
  cases returned

/-- A sequence ends when its first part does and the second part ends from where that leaves off. -/
theorem EndsFrom.bind {α : Type} {start : Nat} {first : Except Fault α}
    {second : α → Except Fault (Nat × σ)} (firstEnds : first ≠ .error .divergence)
    (secondEnds : ∀ value, first = .ok value → EndsFrom mem start entry (second value)) :
    EndsFrom mem start entry (first >>= second) := by
  cases first with
  | error fault => exact EndsFrom.error fun stuck => firstEnds (congrArg _ stuck)
  | ok value => exact secondEnds value rfl

/-- A later start is a start. -/
theorem EndsFrom.mono {start earlier : Nat} {outcome : Except Fault (Nat × σ)}
    (ends : EndsFrom mem start entry outcome) (before : earlier ≤ entry) :
    EndsFrom mem start earlier outcome :=
  ⟨ends.1, fun next state returned =>
    ⟨Nat.le_trans before (ends.2 next state returned).1, (ends.2 next state returned).2⟩⟩

/-- A level of the walk ends. Each pass uses up one of the entries that are left. -/
theorem AllForward.forEachFrom_ends {start : Nat} (word : start < wordLimit)
    (all : AllForward blob.mem start)
    (returns : ∀ entry cells state, callback entry cells state ≠ .error .divergence)
    {fuel : Nat} (usecallback : Bool) (curr next : CellSize) {node : Nat}
    (reached : Relation.ReflTransGen (Step blob.mem) start node) (state : σ)
    (enough : wordLimit < fuel + node) :
    EndsFrom blob.mem start node
      (blob.forEachFrom leading callback fuel usecallback curr next node state) := by
  induction fuel generalizing usecallback curr next node state with
  | zero =>
    have below := reached_word word reached
    omega
  | succ fuel ih =>
    rw [Blob.forEachFrom]
    cases type : nodeType blob.mem node with
    | beginNode =>
      obtain ⟨node₁, step, forward, -, onward⟩ :=
        all.exists_step word reached (type ▸ trivial : (nodeType blob.mem node).Steps)
      simp only [show incrementFdtStruct blob.mem node = .ok node₁ from step, ok_bind]
      have inner := ih (decide (strncmp blob.mem leading (nodeName node) = 0)) next .initial onward
        state (by omega)
      refine EndsFrom.bind inner.1 fun after returned => ?_
      obtain ⟨later, further⟩ := inner.2 after.1 after.2 returned
      exact (ih usecallback curr next further after.2 (by omega)).mono (by omega)
    | prop =>
      obtain ⟨node₁, step, forward, -, onward⟩ :=
        all.exists_step word reached (type ▸ trivial : (nodeType blob.mem node).Steps)
      have onwards (after : σ) := (ih usecallback curr (blob.readCells node next) onward after
        (by omega)).mono (Nat.le_of_lt forward)
      simp only [show incrementFdtStruct blob.mem node = .ok node₁ from step, ok_bind]
      cases usecallback with
      | false => exact onwards state
      | true => exact EndsFrom.bind (returns node curr state) fun after _ => onwards after
    | nop =>
      obtain ⟨node₁, step, forward, -, onward⟩ :=
        all.exists_step word reached (type ▸ trivial : (nodeType blob.mem node).Steps)
      simp only [show incrementFdtStruct blob.mem node = .ok node₁ from step, ok_bind]
      exact (ih usecallback curr next onward state (by omega)).mono (by omega)
    | endNode =>
      obtain ⟨node₁, step, forward, -, onward⟩ :=
        all.exists_step word reached (type ▸ trivial : (nodeType blob.mem node).Steps)
      simp only [show incrementFdtStruct blob.mem node = .ok node₁ from step, ok_bind]
      exact EndsFrom.ok (Nat.le_of_lt forward) onward
    | stop => exact EndsFrom.ok (Nat.le_refl _) reached
    | invalid => exact EndsFrom.error (by decide)

/-- In every memory the cursor moves strictly forward from exactly the forward entries; and where
every entry that it comes to is one, it never comes back to an entry, and the walk ends by
returning or by an abort. -/
theorem walk_ends_iff_forward (word : blob.structs < wordLimit) :
    (∀ entry < wordLimit, (∃ next, incrementFdtStruct blob.mem entry = .ok next ∧ entry < next) ↔
      Forward blob.mem entry) ∧
    (AllForward blob.mem blob.structs →
      (∀ entry next, Relation.ReflTransGen (Step blob.mem) blob.structs entry →
        Relation.TransGen (Step blob.mem) entry next → entry < next) ∧
      ∀ (leading : List UInt8) (callback : Nat → CellSize → σ → Except Fault σ) (state : σ),
        (∀ entry cells state, callback entry cells state ≠ .error .divergence) →
        ∀ fuel > wordLimit,
          blob.forEachPropInNode leading callback fuel state ≠ .error .divergence) := by
  refine ⟨fun entry inside => increment_forward_iff inside, fun all => ⟨?_, ?_⟩⟩
  · intro entry next reached later
    exact all.not_revisited word reached later
  · intro leading callback state returns fuel enough stuck
    have ends : EndsFrom blob.mem blob.structs blob.structs
        (blob.forEachFrom leading callback fuel false .initial .initial blob.structs state) :=
      all.forEachFrom_ends word returns false .initial .initial .refl state (by omega)
    unfold Blob.forEachPropInNode at stuck
    cases outcome : blob.forEachFrom leading callback fuel false .initial .initial blob.structs
        state with
    | error fault =>
      rw [outcome] at stuck
      exact ends.1 (outcome.trans (Except.error.inj stuck ▸ rfl))
    | ok result =>
      rw [outcome] at stuck
      cases stuck

end Walk

/-- A cursor that stops at the end of a path comes to the entries of the path only. -/
theorem reached_of_path {mem : Memory} {first entry : Nat} {path : List Nat} {fault : Fault}
    (steps : List.IsChain (Step mem) (first :: path))
    (stops : incrementFdtStruct mem (path.getLastD first) = .error fault)
    (reached : Relation.ReflTransGen (Step mem) first entry) : entry ∈ first :: path := by
  induction path generalizing first with
  | nil =>
    rcases reached.cases_head with rfl | ⟨next, step, -⟩
    · exact List.mem_cons_self
    · cases step.symm.trans stops
  | cons second path ih =>
    rw [List.getLastD_cons] at stops
    obtain ⟨here, later⟩ := List.isChain_cons_cons.mp steps
    rcases reached.cases_head with rfl | ⟨next, step, more⟩
    · exact List.mem_cons_self
    · obtain rfl : next = second := Except.ok.inj (step.symm.trans here)
      exact List.mem_cons_of_mem _ (ih later stops more)

/-- A path that ends with the document is stepped over forward when the other entries are. -/
theorem allForward_of_path {mem : Memory} {first : Nat} {path : List Nat} {fault : Fault}
    (steps : List.IsChain (Step mem) (first :: path))
    (stops : incrementFdtStruct mem (path.getLastD first) = .error fault)
    (forward : ∀ entry ∈ first :: path, Forward mem entry ∨ nodeType mem entry = .stop) :
    AllForward mem first := by
  intro entry reached moves
  rcases forward entry (reached_of_path steps stops reached) with there | stop
  · exact there
  · rw [stop] at moves
    cases moves

/-- A node with a property, and the end of the document. -/
def nodeBytes : List UInt8 :=
  bytesBE 4 1 ++ ascii "memory" ++ [0, 0] ++
    (bytesBE 4 3 ++ bytesBE 4 4 ++ bytesBE 4 0 ++ bytesBE 4 0x80000000) ++ bytesBE 4 2 ++
    bytesBE 4 9

/-- They are in memory. -/
def nodeBlob : Blob where
  mem addr := nodeBytes.getD (addr - 4096) 0
  structs := 4096
  strings := 8192

/-- The cursor comes to the node, to its property, to its end and to the end of the document, and the
walk ends. -/
theorem walk_ends_node : AllForward nodeBlob.mem 4096 ∧
    ∀ fuel > wordLimit, nodeBlob.forEachPropInNode (ascii "memory")
      (fun entry _ seen => .ok (entry :: seen)) fuel [] ≠ .error .divergence := by
  have begins : Step nodeBlob.mem 4096 4108 := show incrementFdtStruct _ _ = _ by decide +kernel
  have property : Step nodeBlob.mem 4108 4124 := show incrementFdtStruct _ _ = _ by decide +kernel
  have ends : Step nodeBlob.mem 4124 4128 := show incrementFdtStruct _ _ = _ by decide +kernel
  have stops : incrementFdtStruct nodeBlob.mem 4128 = .error .abort := by decide +kernel
  have node : Forward nodeBlob.mem 4096 := ⟨12, by decide +kernel, by decide, by decide⟩
  have prop : Forward nodeBlob.mem 4108 := ⟨16, by decide +kernel, by decide, by decide⟩
  have nodeEnd : Forward nodeBlob.mem 4124 := ⟨4, by decide +kernel, by decide, by decide⟩
  have stop : nodeType nodeBlob.mem 4128 = .stop := by decide +kernel
  have steps : List.IsChain (Step nodeBlob.mem) (4096 :: [4108, 4124, 4128]) :=
    .cons_cons begins (.cons_cons property (.cons_cons ends (.singleton _)))
  have all : AllForward nodeBlob.mem 4096 :=
    allForward_of_path steps stops (by simp [node, prop, nodeEnd, stop])
  have word : nodeBlob.structs < wordLimit := by decide
  exact ⟨all, ((walk_ends_iff_forward word).2 all).2 _ _ [] (fun _ _ _ => by simp)⟩

/-- The length of the property that is stepped over by nothing. -/
def endlessBytes : List UInt8 := bytesBE 4 3 ++ bytesBE 4 0xFFFFFFF4

/-- Such a property in memory. -/
def endless : Blob where
  mem addr := endlessBytes.getD (addr - 4096) 0
  structs := 4096
  strings := 0

/-- The cursor stays at the property, and the walk never ends. -/
theorem walk_endless : nodeType endless.mem 4096 = .prop ∧
    incrementFdtStruct endless.mem 4096 = .ok 4096 ∧
    ∀ fuel, endless.forEachPropInNode (ascii "memory") (fun _ _ (state : Unit) => .ok state) fuel () =
      .error .divergence := by
  have type : nodeType endless.mem 4096 = .prop := by decide +kernel
  have stays : incrementFdtStruct endless.mem 4096 = .ok 4096 := by decide +kernel
  refine ⟨type, stays, fun fuel => ?_⟩
  have stuck : ∀ (fuel : Nat) (curr next : CellSize),
      endless.forEachFrom (ascii "memory") (fun _ _ (state : Unit) => .ok state) fuel false curr next
        4096 () = .error .divergence := by
    intro fuel
    induction fuel with
    | zero => exact fun _ _ => rfl
    | succ fuel ih =>
      intro curr next
      simp only [Blob.forEachFrom, type, stays]
      exact ih curr _
  unfold Blob.forEachPropInNode
  rw [show endless.structs = 4096 from rfl, stuck]
  rfl

end FelineOS.DeviceTree
