import FelineOS.Verif.PrintfRuns

/-!
# The conversion buffer of `vprintf`

Everything that is written into the buffer has a bound, except for the argument of `%s`. So a run
stays in the buffer exactly when no string that it comes to is longer than the buffer, and then
each of them comes out whole.
-/

namespace FelineOS.Printf

variable {format : CString} {signedChar : Bool}

/-! ## Strings in the buffer -/

/-- A string that fits is copied to the front of the buffer. -/
theorem convert_string_short (signedChar : Bool) (flags : Flags) {s : State} {text : CString}
    {later : List Arg} (ready : Ready s.intStrBuf) (given : s.parameters = .string text :: later)
    (short : text.chars.length ≤ 255) : convert signedChar flags .string s =
      .ok { s with parameters := later,
                   intStrBuf := text.chars ++ 0 :: s.intStrBuf.drop (text.chars.length + 1) } := by
  have taken : nextString s.parameters = .ok (text, later) := by
    rw [given]
    rfl
  have size := ready.1
  have room : 0 + (text.chars ++ [0]).length ≤ s.intStrBuf.length := by
    rw [size, List.length_append, List.length_singleton]
    omega
  have put : write s.intStrBuf 0 (text.chars ++ [0]) =
      .ok (text.chars ++ 0 :: s.intStrBuf.drop (text.chars.length + 1)) := by
    unfold write
    rw [if_pos room]
    simp
  rw [convert, taken, ok_bind]
  simp only [put, ok_bind]
  rfl

/-- A longer one runs out of it. -/
theorem convert_string_long (signedChar : Bool) (flags : Flags) {s : State} {text : CString}
    {later : List Arg} (ready : Ready s.intStrBuf) (given : s.parameters = .string text :: later)
    (long : 255 < text.chars.length) :
    convert signedChar flags .string s = .error .bufferWrite := by
  have taken : nextString s.parameters = .ok (text, later) := by
    rw [given]
    rfl
  have size := ready.1
  have beyond : ¬0 + (text.chars ++ [0]).length ≤ s.intStrBuf.length := by
    rw [size, List.length_append, List.length_singleton]
    omega
  rw [convert, taken, ok_bind]
  simp only [write, if_neg beyond]
  rfl

/-- Nothing but a string runs out of the buffer. -/
theorem convert_bufferWrite {flags : Flags} {spec : Specifier} {s : State}
    (ready : Ready s.intStrBuf) (fault : convert signedChar flags spec s = .error .bufferWrite) :
    spec = .string ∧ ∃ text later, s.parameters = .string text :: later ∧
      255 < text.chars.length := by
  -- a conversion of a number stays in the buffer
  have number (style : Style) {front : List UInt8} (number : Option Nat) (rest : List Arg)
      (short : front.length ≤ 2) :
      putNumber signedChar style front number { s with parameters := rest } ≠
        .error .bufferWrite := by
    have same : Ready { s with parameters := rest }.intStrBuf := ready
    obtain ⟨after, put, -⟩ := putNumber_ready signedChar style number same short
    rw [put]
    intro same
    cases same
  cases convert_cases signedChar flags spec s with
  | mismatch same =>
    rw [same] at fault
    cases fault
  | character bits rest given same =>
    obtain ⟨after, written, -⟩ := write_ready ready 0 [bits.toUInt8] (by simp) (by simp)
    rw [same, written] at fault
    cases fault
  | string text rest given same =>
    rcases write_string ready text with ⟨-, long⟩ | ⟨after, written, -⟩
    · exact ⟨rfl, text, rest, given, long⟩
    · rw [same, written] at fault
      cases fault
  | pointer bits rest given same =>
    rw [same] at fault
    exact absurd fault (number _ _ rest (pointer_front flags.altForm).1)
  | number style front found rest printed same =>
    rw [same] at fault
    exact absurd fault (number style found rest printed.standing.1)

/-! ## Passes -/

/-- A pass runs out of the buffer only over a string that is too long. -/
theorem pass_bufferWrite {pos : Nat} {s : State} (ready : Ready s.intStrBuf)
    (inside : pos < format.chars.length)
    (fault : pass signedChar format pos s = .error .bufferWrite) :
    ∃ text, StringAt format pos s text ∧ 255 < text.chars.length := by
  cases pass_kind signedChar s inside with
  | full _ passed =>
    rw [passed] at fault
    cases fault
  | text _ _ _ _ passed =>
    rw [passed] at fault
    cases fault
  | conversion p spec here passed =>
    have settled : Ready (p.settle s).intStrBuf := ready
    rw [passed] at fault
    cases converted : convert signedChar p.flags spec (p.settle s) with
    | error found =>
      rw [converted] at fault
      obtain rfl : found = .bufferWrite := Except.error.inj fault
      obtain ⟨rfl, text, later, given, long⟩ := convert_bufferWrite settled converted
      exact ⟨text, ⟨p, later, here, given⟩, long⟩
    | ok after =>
      obtain ⟨final, fits, finished, -⟩ :=
        finish_ready ((intMax : Int) - s.written) (convert_ready settled converted)
      rw [converted, ok_bind, finished, ok_bind] at fault
      cases fault

/-- A pass over a string that is too long runs out of the buffer. -/
theorem pass_long {pos : Nat} {s : State} {text : CString} (ready : Ready s.intStrBuf)
    (inside : pos < format.chars.length) (found : StringAt format pos s text)
    (long : 255 < text.chars.length) :
    pass signedChar format pos s = .error .bufferWrite := by
  obtain ⟨p, later, here, given⟩ := found
  cases pass_kind signedChar s inside with
  | full alone => exact absurd here (alone _ _)
  | text alone => exact absurd here (alone _ _)
  | conversion q spec there passed =>
    obtain ⟨rfl, rfl⟩ := here.unique there
    have settled : Ready (p.settle s).intStrBuf := ready
    rw [passed, convert_string_long signedChar p.flags settled given long]
    rfl

/-- A pass over a string that fits copies it. -/
theorem pass_short {pos : Nat} {s : State} {text : CString} (ready : Ready s.intStrBuf)
    (inside : pos < format.chars.length) (found : StringAt format pos s text)
    (short : text.chars.length ≤ 255) : CopiesString signedChar format pos s text := by
  obtain ⟨p, later, here, given⟩ := found
  cases pass_kind signedChar s inside with
  | full alone => exact absurd here (alone _ _)
  | text alone => exact absurd here (alone _ _)
  | conversion q spec there passed =>
    obtain ⟨rfl, rfl⟩ := here.unique there
    have settled : Ready (p.settle s).intStrBuf := ready
    have converted := convert_string_short signedChar p.flags settled given short
    have shown : textAt (text.chars ++ 0 :: (p.settle s).intStrBuf.drop (text.chars.length + 1)) 0 =
        text.chars := textAt_front text.noNul
    have amount := strlen_ready (convert_ready settled converted) (Nat.zero_le 255)
    rw [shown] at amount
    rw [CopiesString, passed, converted]
    simp only [ok_bind, finish, amount, shown]
    by_cases full : ((intMax : Int) - s.written) % (wordLimit : Int) < (text.chars.length : Int)
    · simp only [if_pos full]
      exact .inr ⟨full, _, rfl⟩
    · simp only [if_neg full]
      refine .inl ⟨if s.width < p.minWidth then p.minWidth - s.width else 0, _, _, rfl, ?_⟩
      rw [List.append_assoc]
      rfl

/-! ## Runs -/

/-- A run of `vprintf` stays in the conversion buffer, and every string that it comes to is emitted
as it is, exactly when none of these strings is longer than 255 characters. -/
theorem vprintf_contained_iff (signedChar : Bool) (format : CString) (parameters : List Arg) :
    (vprintf signedChar format parameters ≠ .error .bufferWrite ∧
      ∀ pos s text, Reached signedChar format parameters pos s → StringAt format pos s text →
        CopiesString signedChar format pos s text) ↔
      ∀ pos s text, Reached signedChar format parameters pos s → StringAt format pos s text →
        text.chars.length ≤ 255 := by
  have within {pos : Nat} {s : State} {text : CString} (found : StringAt format pos s text) :
      pos < format.chars.length := by
    obtain ⟨p, later, here, -⟩ := found
    exact charAt_visible here.percent (by decide)
  constructor
  · rintro ⟨-, copies⟩ pos s text reached found
    by_contra long
    have fault : pass signedChar format pos s = .error .bufferWrite :=
      pass_long reached.ready.1 (within found) found (Nat.lt_of_not_le long)
    rcases copies pos s text reached found with ⟨_, _, _, passed, -⟩ | ⟨-, _, passed⟩
    · rw [fault] at passed
      cases passed
    · rw [fault] at passed
      cases passed
  · intro short
    constructor
    · obtain ⟨pos, s, outcome, reached, last, result⟩ := vprintf_last signedChar format parameters
      rw [result]
      cases last with
      | returned => exact fun same => nomatch same
      | failed => exact fun same => nomatch same
      | fault inside fault passed =>
        intro same
        obtain rfl : fault = .bufferWrite := Except.error.inj same
        obtain ⟨text, found, long⟩ := pass_bufferWrite reached.ready.1 inside passed
        exact absurd (short pos s text reached found) (Nat.not_le_of_lt long)
    · intro pos s text reached found
      exact pass_short reached.ready.1 (within found) found (short pos s text reached found)

/-- `%s`. -/
def stringFormat : CString := ⟨[0x25, 0x73], by decide, by decide⟩

/-- A string that fills the buffer and leaves no place for its NUL. -/
def fullText : CString where
  chars := List.replicate 256 0x61
  noNul := fun listed => absurd (List.eq_of_mem_replicate listed) (by decide)
  object := by
    rw [List.length_replicate]
    decide

/-- A string of 256 characters is copied out of the buffer. -/
theorem vprintf_runs_out :
    vprintf true stringFormat [.string fullText] = .error .bufferWrite := by
  decide +kernel

end FelineOS.Printf
