import FelineOS.Spec.PrintfRuns
import FelineOS.Verif.PrintfConversion

/-!
# The runs of `vprintf`

A run is a chain of passes, which ends in one that finds the NUL, one after which `vprintf` returns
`-1`, or one that faults. A pass over a conversion is what its parser finds, the large `switch` and
the output.
-/

namespace FelineOS.Printf

open Relation

variable {format : CString} {signedChar : Bool}

/-! ## The parts of a pass -/

/-- As many characters are read as are asked for. -/
theorem readText_length {pos amount : Nat} {text : List UInt8}
    (read : readText format pos amount = .ok text) : text.length = amount := by
  induction amount generalizing pos text with
  | zero =>
    obtain rfl : [] = text := Except.ok.inj read
    rfl
  | succ amount ih =>
    rw [readText] at read
    cases here : charAt format pos with
    | error fault =>
      rw [here] at read
      cases read
    | ok c =>
      cases later : readText format (pos + 1) amount with
      | error fault =>
        rw [here, ok_bind, later] at read
        cases read
      | ok rest =>
        rw [here, ok_bind, later] at read
        obtain rfl : c :: rest = text := Except.ok.inj read
        rw [List.length_cons, ih later]

/-- The parser finds a conversion specifier in front of the NUL, or the NUL. -/
theorem parse_inside {pos : Nat} (s : State) (inside : pos < format.chars.length) :
    ∃ p, parse format pos s = .ok p ∧ charAt format (p.pos + 1) = .ok p.letter ∧
      pos ≤ p.pos ∧ p.pos + 1 ≤ format.chars.length := by
  have enough (pos : Nat) : format.chars.length < format.chars.length + 1 + pos := by omega
  obtain ⟨flagsEnd, flags, gotFlags, afterFlags, flagsInside⟩ :=
    getFlags_spec ⟨false, false⟩ inside (enough pos)
  obtain ⟨widthEnd, minWidth, gotWidth, afterWidth, widthInside⟩ :=
    getWidth_spec s.minWidth flagsInside (enough flagsEnd)
  obtain ⟨lengthEnd, length, gotLength, afterLength, lengthInside⟩ :=
    getLength_spec s.length widthInside
  have last : lengthEnd + 1 ≤ format.chars.length := lengthInside
  obtain ⟨c, read, -⟩ := charAt_inside last
  refine ⟨⟨lengthEnd, flags, minWidth, length, c⟩, ?_, read, by dsimp only; omega, last⟩
  unfold parse
  simp only [gotFlags, ok_bind, gotWidth, gotLength, read]
  rfl

/-- A pass over a conversion goes by what the parser finds. -/
theorem passConversion_parse (signedChar : Bool) (format : CString) (pos : Nat) (s : State) :
    passConversion signedChar format pos s = (do
      let p ← parse format pos s
      match specifier p.letter with
      | none => do
        let percent ← rewind format (p.pos + 1)
        return .next (percent + 1)
          { p.settle s with emitted := s.emitted ++ [0x25], written := s.written + 1 }
      | some spec => do
        let s' ← convert signedChar p.flags spec (p.settle s)
        let (s', fits) ← finish ((intMax : Int) - s.written) s'
        return if fits then .next (p.pos + 2) s' else .failed s') := by
  unfold passConversion parse
  simp only [bind_assoc, pure_bind]
  rfl

/-- A pass over a conversion with another specifier emits its `%`. -/
theorem passConversion_unsupported (signedChar : Bool) {pos : Nat} {s : State} {p : Parsed}
    (inside : pos < format.chars.length) (percent : charAt format pos = .ok 0x25)
    (parsed : parse format pos s = .ok p) (unknown : specifier p.letter = none) :
    ∃ behind, passConversion signedChar format pos s = .ok (.next behind
      { p.settle s with emitted := s.emitted ++ [0x25], written := s.written + 1 }) := by
  obtain ⟨q, same, -, least, last⟩ := parse_inside s inside
  obtain rfl : q = p := Except.ok.inj (same.symm.trans parsed)
  obtain ⟨back, rewound, -⟩ := rewind_spec percent (Nat.le_succ_of_le least) last
  refine ⟨back + 1, ?_⟩
  rw [passConversion_parse, parsed, ok_bind]
  simp only [unknown, rewound, ok_bind]
  rfl

/-- A pass over a conversion with a specifier of the `switch`. -/
theorem passConversion_supported {pos : Nat} {s : State} {p : Parsed} {spec : Specifier}
    (parsed : parse format pos s = .ok p) (known : specifier p.letter = some spec) :
    passConversion signedChar format pos s = (do
      let s' ← convert signedChar p.flags spec (p.settle s)
      let (s', fits) ← finish ((intMax : Int) - s.written) s'
      return if fits then .next (p.pos + 2) s' else .failed s') := by
  rw [passConversion_parse, parsed, ok_bind]
  simp only [known]

/-- A pass over text goes on behind it, unless there is no room. -/
theorem passText_cases {pos : Nat} (s : State) (inside : pos < format.chars.length) :
    passText format pos s = .ok (.failed s) ∨ ∃ behind text,
      passText format pos s = .ok (.next behind
        { s with emitted := s.emitted ++ text, written := s.written + text.length }) := by
  have first : pos + 1 ≤ format.chars.length := inside
  have enough : format.chars.length < format.chars.length + 1 + (pos + 1) := by omega
  obtain ⟨count, counted, -, most⟩ := countText_spec first enough
  obtain ⟨text, read⟩ := readText_spec most
  have long : text.length = count := readText_length read
  unfold passText
  rw [counted, ok_bind]
  split
  · exact .inl rfl
  · rw [read, ok_bind, ← long]
    exact .inr ⟨pos + text.length, text, rfl⟩

/-! ## Passes -/

/-- A pass over text or a `%` that stands for itself, or over a conversion. -/
inductive PassKind (signedChar : Bool) (format : CString) (pos : Nat) (s : State) : Prop
  /-- There is no room for a text. -/
  | full (alone : ∀ p spec, ¬ConversionAt format pos s p spec)
    (passed : pass signedChar format pos s = .ok (.failed s))
  /-- Characters are emitted. -/
  | text (alone : ∀ p spec, ¬ConversionAt format pos s p spec) (behind : Nat) (text : List UInt8)
    (after : State) (passed : pass signedChar format pos s = .ok (.next behind after))
    (emitted : after.emitted = s.emitted ++ text) (written : after.written = s.written + text.length)
  /-- There is a conversion. -/
  | conversion (p : Parsed) (spec : Specifier) (here : ConversionAt format pos s p spec)
    (passed : pass signedChar format pos s = (do
      let s' ← convert signedChar p.flags spec (p.settle s)
      let (s', fits) ← finish ((intMax : Int) - s.written) s'
      return if fits then .next (p.pos + 2) s' else .failed s'))

/-- Every pass is of one kind. -/
theorem pass_kind (signedChar : Bool) {pos : Nat} (s : State) (inside : pos < format.chars.length) :
    PassKind signedChar format pos s := by
  have following : pos + 1 ≤ format.chars.length := inside
  obtain ⟨c, read, -⟩ := charAt_inside (Nat.le_of_lt inside)
  obtain ⟨d, second, -⟩ := charAt_inside following
  by_cases text : c ≠ 0x25
  · have alone (p : Parsed) (spec : Specifier) : ¬ConversionAt format pos s p spec := fun here =>
      text (Except.ok.inj (read.symm.trans here.percent))
    have passed : pass signedChar format pos s = passText format pos s := by
      unfold pass
      rw [read, ok_bind, if_pos text]
    rcases passText_cases s inside with full | ⟨behind, shown, emitted⟩
    · exact .full alone (passed.trans full)
    · exact .text alone behind shown _ (passed.trans emitted) rfl rfl
  · have percent : c = 0x25 := not_not.mp text
    by_cases doubled : d = 0x25
    · have alone (p : Parsed) (spec : Specifier) : ¬ConversionAt format pos s p spec := fun here =>
        here.single (doubled ▸ second)
      have passed : pass signedChar format pos s = passText format (pos + 1) s := by
        unfold pass
        rw [read, ok_bind, if_neg text, second, ok_bind, if_pos doubled]
      have more : pos + 1 < format.chars.length := charAt_visible second (doubled ▸ by decide)
      rcases passText_cases s more with full | ⟨behind, shown, emitted⟩
      · exact .full alone (passed.trans full)
      · exact .text alone behind shown _ (passed.trans emitted) rfl rfl
    · have passed : pass signedChar format pos s = passConversion signedChar format pos s := by
        unfold pass
        rw [read, ok_bind, if_neg text, second, ok_bind, if_neg doubled]
      obtain ⟨p, parsed, -⟩ := parse_inside s inside
      have single : charAt format (pos + 1) ≠ .ok 0x25 := fun same =>
        doubled (Except.ok.inj (second.symm.trans same))
      cases known : specifier p.letter with
      | none =>
        have alone (q : Parsed) (spec : Specifier) : ¬ConversionAt format pos s q spec := by
          intro here
          obtain rfl : q = p := Except.ok.inj (here.parsed.symm.trans parsed)
          rw [here.known] at known
          cases known
        obtain ⟨behind, emitted⟩ :=
          passConversion_unsupported signedChar inside (percent ▸ read) parsed known
        exact .text alone behind [0x25] _ (passed.trans emitted) rfl rfl
      | some spec =>
        exact .conversion p spec ⟨percent ▸ read, single, parsed, known⟩
          (passed.trans (passConversion_supported parsed known))

/-- A place has one conversion. -/
theorem ConversionAt.unique {pos : Nat} {s : State} {p q : Parsed} {one other : Specifier}
    (here : ConversionAt format pos s p one) (there : ConversionAt format pos s q other) :
    p = q ∧ one = other := by
  obtain rfl : p = q := Except.ok.inj (here.parsed.symm.trans there.parsed)
  exact ⟨rfl, Option.some.inj (here.known.symm.trans there.known)⟩

/-! ## Runs -/

/-- A pass goes on with one other pass at most. -/
theorem PassStep.unique : Relator.RightUnique (PassStep signedChar format) := by
  rintro before ⟨pos, s⟩ ⟨other, t⟩ ⟨-, one⟩ ⟨-, two⟩
  obtain ⟨rfl, rfl⟩ := Pass.next.inj (Except.ok.inj (one.symm.trans two))
  rfl

/-- Something holds at all passes of a run when it holds at the first one and at all behind it. -/
theorem reached_head_iff {before after : Nat × State}
    (step : PassStep signedChar format before after) (holds : Nat × State → Prop) :
    (∀ later, ReflTransGen (PassStep signedChar format) before later → holds later) ↔
      holds before ∧
        ∀ later, ReflTransGen (PassStep signedChar format) after later → holds later := by
  constructor
  · intro all
    exact ⟨all before .refl, fun later reach => all later (.head step reach)⟩
  · rintro ⟨first, rest⟩ later reach
    rcases ReflTransGen.cases_head reach with rfl | ⟨next, other, further⟩
    · exact first
    · obtain rfl : after = next := PassStep.unique step other
      exact rest later further

/-- The buffer is ready at every pass, and every pass starts in the format. -/
theorem reached_ready {before after : Nat × State} (ready : Ready before.2.intStrBuf)
    (inside : before.1 ≤ format.chars.length)
    (reach : ReflTransGen (PassStep signedChar format) before after) :
    Ready after.2.intStrBuf ∧ after.1 ≤ format.chars.length := by
  induction reach with
  | refl => exact ⟨ready, inside⟩
  | tail _ step ih =>
    obtain ⟨within, passed⟩ := step
    have steps := pass_passes signedChar ih.1 within
    rw [passed] at steps
    cases steps with
    | next _ _ _ inside ready _ => exact ⟨ready, inside⟩

/-- How a run ends in a pass. -/
inductive LastPass (signedChar : Bool) (format : CString) (pos : Nat) (s : State) :
    Except Fault (Int × State) → Prop
  /-- There is the NUL. -/
  | returned (last : pos = format.chars.length) : LastPass signedChar format pos s (.ok (s.written, s))
  /-- `vprintf` returns `-1`. -/
  | failed (inside : pos < format.chars.length) (after : State)
    (passed : pass signedChar format pos s = .ok (.failed after)) :
    LastPass signedChar format pos s (.ok (-1, after))
  /-- The pass faults. -/
  | fault (inside : pos < format.chars.length) (fault : Fault)
    (passed : pass signedChar format pos s = .error fault) :
    LastPass signedChar format pos s (.error fault)

/-- The run from a pass on ends in a pass that it comes to. -/
theorem passes_last (signedChar : Bool) {fuel pos : Nat} {s : State} (ready : Ready s.intStrBuf)
    (inside : pos ≤ format.chars.length) (enough : format.chars.length < fuel + pos) :
    ∃ behind after, ReflTransGen (PassStep signedChar format) (pos, s) (behind, after) ∧
      LastPass signedChar format behind after (passes signedChar format fuel pos s) := by
  induction fuel generalizing pos s with
  | zero => omega
  | succ fuel ih =>
    obtain ⟨c, read, before, nul⟩ := charAt_inside inside
    rw [passes, read, ok_bind]
    by_cases last : c = 0
    · have here : pos = format.chars.length := by
        by_contra other
        exact nul (by omega) last
      rw [if_pos last]
      exact ⟨pos, s, .refl, .returned here⟩
    · have within := before last
      rw [if_neg last]
      have steps := pass_passes signedChar ready within
      cases passed : pass signedChar format pos s with
      | error fault => exact ⟨pos, s, .refl, .fault within fault passed⟩
      | ok outcome =>
        rw [passed] at steps
        cases outcome with
        | failed after => exact ⟨pos, s, .refl, .failed within after passed⟩
        | next behind after =>
          cases steps with
          | next _ _ advances inside ready _ =>
            obtain ⟨last, final, reach, ends⟩ := ih ready inside (by omega)
            exact ⟨last, final, .head ⟨within, passed⟩ reach, ends⟩

/-- The run of `vprintf` ends in a pass that it comes to. -/
theorem vprintf_last (signedChar : Bool) (format : CString) (parameters : List Arg) :
    ∃ pos s outcome, Reached signedChar format parameters pos s ∧
      LastPass signedChar format pos s outcome ∧
      vprintf signedChar format parameters = outcome.map fun (result, s) => (result, s.emitted) := by
  obtain ⟨pos, s, reach, last⟩ := passes_last signedChar (start_ready parameters)
    (Nat.zero_le _) (show format.chars.length < format.chars.length + 1 + 0 by omega)
  refine ⟨pos, s, _, reach, last, ?_⟩
  unfold vprintf
  cases passes signedChar format (format.chars.length + 1) 0 (start parameters) with
  | error fault => rfl
  | ok outcome => rfl

/-- The buffer is ready at every pass that `vprintf` comes to. -/
theorem Reached.ready {parameters : List Arg} {pos : Nat} {s : State}
    (reached : Reached signedChar format parameters pos s) :
    Ready s.intStrBuf ∧ pos ≤ format.chars.length :=
  reached_ready (start_ready parameters) (Nat.zero_le _) reached

end FelineOS.Printf
