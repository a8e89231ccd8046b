import FelineOS.Verif.PrintfRuns

/-!
# The result of `vprintf`

Text and conversions are counted as they are emitted, and so is the `%` of a conversion that is not
supported; only the blanks in front of a conversion are not. So the result of a run counts what it
emitted exactly when no conversion of the run is padded.
-/

namespace FelineOS.Printf

open Relation

variable {format : CString} {signedChar : Bool}

/-! ## The width of a conversion -/

/-- A conversion leaves the output and the explicit width, and sets the width. -/
structure Measured (width : Nat) (s s' : State) : Prop where
  /-- The output. -/
  emitted : s'.emitted = s.emitted
  /-- The count. -/
  written : s'.written = s.written
  /-- The explicit width. -/
  minWidth : s'.minWidth = s.minWidth
  /-- The width of the text. -/
  width : s'.width = width

/-- A number is sixteen digits wide. -/
theorem putNumber_some {style : Style} (valid : style.Valid) {front : List UInt8} {num : Nat}
    {s s' : State} {rest : List Arg} (ready : Ready s.intStrBuf) (short : front.length ≤ 2)
    (put : putNumber signedChar style front (some num) { s with parameters := rest } = .ok s') :
    Measured 16 s s' := by
  have same : Ready { s with parameters := rest }.intStrBuf := ready
  obtain ⟨behind, known⟩ := putNumber_text signedChar valid num same short
  rw [known] at put
  obtain rfl := Except.ok.inj put
  exact ⟨rfl, rfl, rfl, rfl⟩

/-- A number without an argument is as wide as what is left in the buffer. -/
theorem putNumber_none {style : Style} {front : List UInt8} {s s' : State} {rest : List Arg}
    (ready : Ready s.intStrBuf) (short : front.length ≤ 2)
    (put : putNumber signedChar style front none { s with parameters := rest } = .ok s') :
    Measured (textAt s.intStrBuf front.length).length s s' := by
  have size := ready.1
  have written : write s.intStrBuf 0 front = .ok (front ++ s.intStrBuf.drop front.length) := by
    unfold write
    rw [if_pos (by omega), List.take_zero, List.nil_append, Nat.zero_add]
  have stillReady : Ready (front ++ s.intStrBuf.drop front.length) := by
    obtain ⟨after, same, ready⟩ := write_ready ready 0 front (by omega) (by omega)
    rw [written] at same
    exact Except.ok.inj same ▸ ready
  have left : textAt (front ++ s.intStrBuf.drop front.length) front.length =
      textAt s.intStrBuf front.length := by
    unfold textAt
    rw [List.drop_left]
  have width := strlen_ready stillReady (Nat.le_trans short (by decide))
  rw [left] at width
  unfold putNumber at put
  rw [written, ok_bind] at put
  simp only [pure_bind, width, ok_bind] at put
  obtain rfl := Except.ok.inj put
  exact ⟨rfl, rfl, rfl, rfl⟩

/-- An integer is as wide as its digits. -/
theorem width_integer {flags : Flags} {spec : Specifier} {s : State} (number : spec.isNumber)
    (integer : s.length ≠ .longDouble) : spec.width flags s = 16 := by
  unfold Specifier.width
  cases spec with
  | character | string => cases number
  | pointer => rfl
  | signed | octal | unsigned | hex | upperHex | binary => exact if_neg integer

/-- A `long double` is as wide as what is left in the buffer behind its front. -/
theorem width_longDouble {flags : Flags} {spec : Specifier} {s : State} (number : spec.isNumber)
    (other : spec ≠ .pointer) (longest : s.length = .longDouble) :
    spec.width flags s = (textAt s.intStrBuf
      (if flags.altForm then (unsignedStyle s.length spec).1 else []).length).length := by
  unfold Specifier.width
  cases spec with
  | character | string => cases number
  | pointer => exact absurd rfl other
  | signed | octal | unsigned | hex | upperHex | binary => exact if_pos longest

/-- A conversion comes to its width. -/
theorem convert_measured {flags : Flags} {spec : Specifier} {s s' : State}
    (ready : Ready s.intStrBuf) (converted : convert signedChar flags spec s = .ok s') :
    Measured (spec.width flags s) s s' := by
  cases convert_cases signedChar flags spec s with
  | mismatch missing =>
    rw [missing] at converted
    cases converted
  | character bits rest given same =>
    rw [same] at converted
    obtain ⟨buf, -, done⟩ := of_bind_ok converted
    obtain rfl := Except.ok.inj done
    exact ⟨rfl, rfl, rfl, rfl⟩
  | string text rest given same =>
    rw [same] at converted
    obtain ⟨buf, -, done⟩ := of_bind_ok converted
    obtain rfl := Except.ok.inj done
    exact ⟨rfl, rfl, rfl, rfl⟩
  | pointer bits rest given same =>
    rw [same] at converted
    exact putNumber_some ⟨by decide, by decide⟩ ready (pointer_front flags.altForm).1 converted
  | number style front number rest printed same =>
    rw [same] at converted
    have isNumber := printed.isNumber
    cases number with
    | some num =>
      have integer : s.length ≠ .longDouble := fun longest => absurd (printed.kind.mpr longest) nofun
      rw [width_integer isNumber integer]
      exact putNumber_some printed.valid ready printed.standing.1 converted
    | none =>
      rw [width_longDouble isNumber printed.noPointer (printed.kind.mp rfl), ← printed.left rfl]
      exact putNumber_none ready printed.standing.1 converted

/-! ## Passes -/

/-- The output counts the text, and not the blanks. -/
theorem finish_counts {maxrem : Int} {s s' : State} (ready : Ready s.intStrBuf)
    (finished : finish maxrem s = .ok (s', true)) :
    s'.emitted.length + s.written = s.emitted.length + s'.written + (s.minWidth - s.width) := by
  have amount := strlen_ready ready (Nat.zero_le 255)
  have padding : (if s.width < s.minWidth then s.minWidth - s.width else 0) =
      s.minWidth - s.width := by
    split <;> omega
  unfold finish at finished
  simp only [amount, ok_bind, padding] at finished
  split at finished
  · cases finished
  · obtain ⟨rfl, -⟩ := Prod.mk.inj (Except.ok.inj finished)
    simp only [List.length_append, List.length_replicate]
    omega

/-- A pass counts what it emits, except for the blanks of a conversion that is padded. -/
theorem pass_counts {pos behind : Nat} {s after : State} (ready : Ready s.intStrBuf)
    (inside : pos < format.chars.length)
    (passed : pass signedChar format pos s = .ok (.next behind after)) :
    ∃ blanks, after.emitted.length + s.written = s.emitted.length + after.written + blanks ∧
      (blanks = 0 ↔ ¬Pads format pos s) := by
  cases pass_kind signedChar s inside with
  | full _ full =>
    rw [full] at passed
    cases passed
  | text alone last text final emits emitted written =>
    rw [emits] at passed
    obtain ⟨rfl, rfl⟩ := Pass.next.inj (Except.ok.inj passed)
    refine ⟨0, ?_, fun _ => ?_, fun _ => rfl⟩
    · rw [emitted, written, List.length_append]
      omega
    · rintro ⟨p, spec, here, -⟩
      exact alone p spec here
  | conversion p spec here whole =>
    have settled : Ready (p.settle s).intStrBuf := ready
    rw [whole] at passed
    cases converted : convert signedChar p.flags spec (p.settle s) with
    | error fault =>
      rw [converted] at passed
      cases passed
    | ok middle =>
      have measured := convert_measured settled converted
      have stillReady := convert_ready settled converted
      obtain ⟨final, fits, finished, -⟩ :=
        finish_ready ((intMax : Int) - s.written) stillReady
      rw [converted, ok_bind, finished, ok_bind] at passed
      cases fits with
      | false => exact Pass.noConfusion (Except.ok.inj passed)
      | true =>
        obtain ⟨-, rfl⟩ := Pass.next.inj (Except.ok.inj passed)
        have counts := finish_counts stillReady finished
        rw [measured.emitted, measured.written, measured.minWidth, measured.width] at counts
        refine ⟨p.minWidth - spec.width p.flags (p.settle s), counts, ?_⟩
        rw [Nat.sub_eq_zero_iff_le]
        constructor
        · rintro wide ⟨q, other, there, padded⟩
          obtain ⟨rfl, rfl⟩ := here.unique there
          exact Nat.not_le_of_lt padded wide
        · intro plain
          by_contra narrow
          exact plain ⟨p, spec, here, Nat.lt_of_not_le narrow⟩

/-! ## Runs -/

/-- A run counts what it emits, except for the blanks of the conversions that are padded. -/
theorem run_counts {before last : Nat × State}
    (reach : ReflTransGen (PassStep signedChar format) before last)
    (ends : last.1 = format.chars.length) (ready : Ready before.2.intStrBuf) :
    ∃ blanks, last.2.emitted.length + before.2.written =
        before.2.emitted.length + last.2.written + blanks ∧
      (blanks = 0 ↔ ∀ later, ReflTransGen (PassStep signedChar format) before later →
        ¬Pads format later.1 later.2) := by
  induction reach using ReflTransGen.head_induction_on with
  | refl =>
    refine ⟨0, by omega, fun _ later reach => ?_, fun _ => rfl⟩
    rcases ReflTransGen.cases_head reach with rfl | ⟨next, ⟨inside, -⟩, -⟩
    · rintro ⟨p, spec, here, -⟩
      have inside := charAt_visible here.percent (by decide)
      omega
    · omega
  | @head before middle step _ ih =>
    obtain ⟨inside, passed⟩ := step
    have next : PassStep signedChar format before middle := ⟨inside, passed⟩
    have stillReady := (reached_ready ready (Nat.le_of_lt inside) (.single next)).1
    obtain ⟨first, counted, padded⟩ := pass_counts ready inside passed
    obtain ⟨others, rest, later⟩ := ih stillReady
    refine ⟨first + others, by omega, ?_⟩
    rw [reached_head_iff next fun later => ¬Pads format later.1 later.2, ← padded, ← later]
    omega

/-- A result of `vprintf` that is not negative counts the characters emitted exactly when no
conversion that the run comes to is padded. -/
theorem vprintf_counts_iff (signedChar : Bool) {format : CString} {parameters : List Arg}
    {result : Int} {emitted : List UInt8}
    (returned : vprintf signedChar format parameters = .ok (result, emitted))
    (natural : 0 ≤ result) :
    result = emitted.length ↔
      ∀ pos s, Reached signedChar format parameters pos s → ¬Pads format pos s := by
  obtain ⟨pos, s, outcome, reached, last, ending⟩ := vprintf_last signedChar format parameters
  rw [returned] at ending
  cases last with
  | failed inside after passed =>
    obtain ⟨rfl, -⟩ := Prod.mk.inj (Except.ok.inj ending)
    omega
  | fault inside fault passed => cases ending
  | returned ends =>
    obtain ⟨rfl, rfl⟩ := Prod.mk.inj (Except.ok.inj ending)
    obtain ⟨blanks, counts, padded⟩ := run_counts reached ends (start_ready parameters)
    have counted : s.emitted.length = s.written + blanks := by
      have none : (start parameters).emitted.length = 0 := rfl
      have zero : (start parameters).written = 0 := rfl
      dsimp only at counts
      omega
    rw [counted]
    constructor
    · intro same pos s reached
      exact padded.mp (by omega) (pos, s) reached
    · intro plain
      have none : blanks = 0 := padded.mpr fun later reach => plain later.1 later.2 reach
      rw [none]
      rfl

/-- There is no NUL in `%d`. -/
theorem bare_noNul : (0 : UInt8) ∉ [0x25, 0x64] := by decide

/-- It is smaller than `PTRDIFF_MAX`. -/
theorem bare_object : ([0x25, 0x64] : List UInt8).length < 0x7FFFFFFF := by decide

/-- `%d` as a format. -/
def bareFormat : CString := ⟨[0x25, 0x64], bare_noNul, bare_object⟩

/-- `%18d` as a format. -/
def paddedFormat : CString := ⟨[0x25, 0x31, 0x38, 0x64], by decide, by decide⟩

/-- A number without a width is counted. -/
theorem vprintf_counts_bare :
    vprintf true bareFormat [.word 5] = .ok (16, List.replicate 15 0x30 ++ [0x35]) ∧
      ¬∃ pos s, Reached true bareFormat [.word 5] pos s ∧ Pads bareFormat pos s := by
  have returned : vprintf true bareFormat [.word 5] =
      .ok (16, List.replicate 15 0x30 ++ [0x35]) := by
    decide +kernel
  refine ⟨returned, ?_⟩
  rintro ⟨pos, s, reached, pads⟩
  exact (vprintf_counts_iff true returned (by decide)).mp rfl pos s reached pads

/-- The two blanks in front of sixteen digits are not counted. -/
theorem vprintf_counts_padded : ∃ emitted,
    vprintf true paddedFormat [.word 5] = .ok (16, emitted) ∧ emitted.length = 18 :=
  ⟨0x20 :: 0x20 :: (List.replicate 15 0x30 ++ [0x35]), by decide +kernel, rfl⟩

end FelineOS.Printf
