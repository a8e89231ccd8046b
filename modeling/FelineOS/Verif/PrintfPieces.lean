import FelineOS.Verif.PrintfConversion

/-!
# Pieces of a format in the code

The passes through the loop of `vprintf` print the pieces that its format is spelled with. A pass
over text takes all the characters up to the next `%`, whichever pieces they belong to.
-/

namespace FelineOS.Printf

variable {format : CString} {signedChar : Bool}

/-! ## Text -/

/-- What follows a text: the end of the format, or a `%`. -/
def Stops (rest : List UInt8) : Prop := ∀ c later, rest = c :: later → c = 0x25

/-- The characters of a text are counted. -/
theorem countText_text (text : List UInt8) {front rest : List UInt8} {pos fuel amount : Nat}
    (visible : ∀ c ∈ text, c ≠ 0 ∧ c ≠ 0x25) (spelled : format.chars = front ++ (text ++ rest))
    (place : pos + amount = front.length) (stops : Stops rest) (enough : text.length < fuel) :
    countText format pos fuel amount = .ok (amount + text.length) := by
  induction text generalizing front fuel amount with
  | nil =>
    obtain ⟨fuel, rfl⟩ : ∃ more, fuel = more + 1 := ⟨fuel - 1, by simp at enough; omega⟩
    rw [List.nil_append] at spelled
    have stop : ∃ c, charAt format (pos + amount) = .ok c ∧ ¬(c ≠ 0 ∧ c ≠ 0x25) := by
      cases rest with
      | nil =>
        refine ⟨0, ?_, fun both => both.1 rfl⟩
        unfold charAt
        rw [spelled, List.append_nil, place, List.getElem?_eq_none (Nat.le_refl _)]
        exact if_pos rfl
      | cons c later =>
        exact ⟨c, charAt_append spelled place, fun both => both.2 (stops c later rfl)⟩
    obtain ⟨c, read, none⟩ := stop
    rw [countText, read, ok_bind, if_neg none]
    rfl
  | cons c text ih =>
    obtain ⟨fuel, rfl⟩ : ∃ more, fuel = more + 1 := ⟨fuel - 1, by simp at enough; omega⟩
    have later : format.chars = (front ++ [c]) ++ (text ++ rest) := by
      rw [spelled]
      simp
    rw [countText, charAt_append spelled place, ok_bind, if_pos (visible c (List.mem_cons_self ..)),
      ih (fun d listed => visible d (List.mem_cons_of_mem _ listed)) later
        (by rw [List.length_append, List.length_singleton]; omega) (by simpa using enough),
      List.length_cons, Nat.add_right_comm, Nat.add_assoc]

/-- The characters of a text are read. -/
theorem readText_text (text : List UInt8) {front rest : List UInt8}
    (spelled : format.chars = front ++ (text ++ rest)) :
    readText format front.length text.length = .ok text := by
  induction text generalizing front with
  | nil => rfl
  | cons c text ih =>
    have later : format.chars = (front ++ [c]) ++ (text ++ rest) := by
      rw [spelled]
      simp
    have more := ih later
    rw [List.length_append, List.length_singleton] at more
    rw [List.length_cons, readText, charAt_append spelled rfl, ok_bind, more, ok_bind]
    rfl

/-- A pass over text takes a character and the ones behind it up to the next `%`. -/
theorem passText_text (c : UInt8) (text : List UInt8) {front rest : List UInt8} {s : State}
    (visible : ∀ d ∈ text, d ≠ 0 ∧ d ≠ 0x25)
    (spelled : format.chars = front ++ (c :: text ++ rest)) (stops : Stops rest)
    (room : s.written + (c :: text).length ≤ intMax) :
    passText format front.length s = .ok (.next (front.length + (c :: text).length)
      { s with emitted := s.emitted ++ c :: text, written := s.written + (c :: text).length }) := by
  have later : format.chars = (front ++ [c]) ++ (text ++ rest) := by
    rw [spelled]
    simp
  have long : format.chars.length = front.length + ((c :: text).length + rest.length) := by
    rw [spelled, List.length_append, List.length_append]
  have counted : countText format front.length (format.chars.length + 1) 1 =
      .ok ((c :: text).length) := by
    rw [countText_text text visible later (by rw [List.length_append]; rfl) stops
      (by rw [long, List.length_cons]; omega), List.length_cons, Nat.add_comm]
  have fits : ¬(intMax : Int) - s.written < ((c :: text).length : Nat) := by omega
  unfold passText
  rw [counted, ok_bind, if_neg fits, readText_text (c :: text) spelled, ok_bind]
  rfl

/-! ## Passes through the loop -/

/-- With enough fuel the result does not depend on it. -/
theorem passes_fuel {one other pos : Nat} {s : State} (ready : Ready s.intStrBuf)
    (inside : pos ≤ format.chars.length) (enough : format.chars.length < one + pos)
    (enoughOther : format.chars.length < other + pos) :
    passes signedChar format one pos s = passes signedChar format other pos s := by
  induction one generalizing other pos s with
  | zero => omega
  | succ one ih =>
    obtain ⟨other, rfl⟩ : ∃ more, other = more + 1 := ⟨other - 1, by omega⟩
    obtain ⟨c, read, before, -⟩ := charAt_inside inside
    rw [passes, passes, read, ok_bind, ok_bind]
    by_cases nul : c = 0
    · rw [if_pos nul, if_pos nul]
    · rw [if_neg nul, if_neg nul]
      have step := pass_passes signedChar ready (before nul)
      revert step
      generalize pass signedChar format pos s = outcome
      intro step
      cases step with
      | mismatch => rfl
      | long found => rfl
      | failed after => rfl
      | next behind after advances within ready rest =>
        exact ih ready within (by omega) (by omega)

/-- What `vprintf` comes to from a place in the format on. -/
def finishes (signedChar : Bool) (format : CString) (pos : Nat) (s : State) :
    Except Fault (Int × State) :=
  passes signedChar format (format.chars.length + 1) pos s

/-- At the NUL `vprintf` returns what it has counted. -/
theorem finishes_end {pos : Nat} {s : State} (last : pos = format.chars.length) :
    finishes signedChar format pos s = .ok (s.written, s) := by
  have read : charAt format pos = .ok 0 := by
    unfold charAt
    rw [last, List.getElem?_eq_none (Nat.le_refl _)]
    exact if_pos rfl
  unfold finishes
  rw [passes, read, ok_bind, if_pos rfl]
  rfl

/-- In front of the NUL `vprintf` goes on as a pass does. -/
theorem finishes_pass {pos : Nat} {s : State} (inside : pos < format.chars.length) :
    finishes signedChar format pos s = (do
      match ← pass signedChar format pos s with
      | .next pos s => passes signedChar format format.chars.length pos s
      | .failed s => return (-1, s)) := by
  obtain ⟨c, read, -, visible⟩ := charAt_inside (Nat.le_of_lt inside)
  unfold finishes
  rw [passes, read, ok_bind]
  exact if_neg (visible inside)

/-- After a pass `vprintf` goes on where the pass ended. -/
theorem finishes_next {pos behind : Nat} {s after : State} (ready : Ready s.intStrBuf)
    (inside : pos < format.chars.length)
    (passed : pass signedChar format pos s = .ok (.next behind after)) :
    finishes signedChar format pos s = finishes signedChar format behind after := by
  have step := pass_passes signedChar ready inside
  rw [passed] at step
  cases step with
  | next behind after advances within ready rest =>
    rw [finishes_pass inside, passed]
    exact passes_fuel ready within (by omega) (by omega)

/-- A fault in a pass is one of `vprintf`. -/
theorem finishes_error {pos : Nat} {s : State} {fault : Fault} (inside : pos < format.chars.length)
    (failed : pass signedChar format pos s = .error fault) :
    finishes signedChar format pos s = .error fault := by
  rw [finishes_pass inside, failed]
  rfl

/-! ## Whole formats -/

/-- The characters that pieces start with. -/
def lead : List Piece → List UInt8
  | .plain c _ _ :: pieces => c :: lead pieces
  | _ => []

/-- The pieces behind these characters. -/
def behindLead : List Piece → List Piece
  | .plain _ _ _ :: pieces => behindLead pieces
  | pieces => pieces

/-- The characters and the pieces behind them spell the same. -/
theorem spelling_lead (pieces : List Piece) :
    spelling pieces = lead pieces ++ spelling (behindLead pieces) := by
  induction pieces with
  | nil => rfl
  | cons piece pieces ih =>
    cases piece with
    | plain c visible literal => exact congrArg (c :: ·) ih
    | percent => rfl
    | conversion c => rfl

/-- None of the characters ends the text. -/
theorem lead_visible (pieces : List Piece) : ∀ c ∈ lead pieces, c ≠ 0 ∧ c ≠ 0x25 := by
  induction pieces with
  | nil => exact fun _ listed => absurd listed List.not_mem_nil
  | cons piece pieces ih =>
    cases piece with
    | plain c visible literal =>
      intro d listed
      rcases List.mem_cons.mp listed with rfl | later
      · exact ⟨visible, literal⟩
      · exact ih d later
    | percent => exact fun _ listed => absurd listed List.not_mem_nil
    | conversion c => exact fun _ listed => absurd listed List.not_mem_nil

/-- The pieces behind them end the text. -/
theorem behindLead_stops (pieces : List Piece) {rest : List UInt8} (stops : Stops rest) :
    Stops (spelling (behindLead pieces) ++ rest) := by
  induction pieces with
  | nil => exact stops
  | cons piece pieces ih =>
    cases piece with
    | plain c visible literal => exact ih
    | percent => exact fun c later same => (List.cons.inj same).1.symm
    | conversion c => exact fun d later same => (List.cons.inj same).1.symm

/-- There are no more pieces behind the characters than with them. -/
theorem behindLead_length (pieces : List Piece) : (behindLead pieces).length ≤ pieces.length := by
  induction pieces with
  | nil => exact Nat.le_refl _
  | cons piece pieces ih =>
    cases piece with
    | plain c visible literal => exact Nat.le_succ_of_le ih
    | percent => exact Nat.le_refl _
    | conversion c => exact Nat.le_refl _

/-- Texts in front of what pieces print join. -/
theorem Printed.behind_behind (p : Printed) (first second : List UInt8) :
    (p.behind 0 second).behind 0 first = p.behind 0 (first ++ second) := by
  unfold Printed.behind
  simp [Nat.add_assoc]

/-- The characters are printed in front of what the pieces behind them print. -/
theorem printed_lead (pieces : List Piece) {carried : Carried} {parameters : List Arg} {p : Printed}
    (prints : printed signedChar pieces carried parameters = .ok p) :
    ∃ later, printed signedChar (behindLead pieces) carried parameters = .ok later ∧
      p = later.behind 0 (lead pieces) := by
  induction pieces generalizing p with
  | nil => exact ⟨p, prints, by simp [Printed.behind, lead]⟩
  | cons piece pieces ih =>
    cases piece with
    | plain c visible literal =>
      rw [printed] at prints
      obtain ⟨q, printsRest, same⟩ := of_bind_ok prints
      obtain ⟨later, printsLater, rfl⟩ := ih printsRest
      refine ⟨later, printsLater, ?_⟩
      rw [← Except.ok.inj same, Printed.behind_behind]
      rfl
    | percent => exact ⟨p, prints, by simp [Printed.behind, lead]⟩
    | conversion c => exact ⟨p, prints, by simp [Printed.behind, lead]⟩

/-- Pieces have been printed. -/
structure Shown (p : Printed) (s s' : State) : Prop where
  /-- What is left to the pieces behind. -/
  fits : Fits p.carried s'
  /-- The arguments that are left. -/
  parameters : s'.parameters = p.rest
  /-- The characters that are counted. -/
  written : s'.written = s.written + p.counted
  /-- The characters. -/
  emitted : s'.emitted = s.emitted ++ p.emitted

/-- More pieces have been printed behind a text. -/
theorem Shown.behind {p : Printed} {padding : Nat} {text : List UInt8} {s middle s' : State}
    (shown : Shown p middle s') (written : middle.written = s.written + text.length)
    (emitted : middle.emitted = s.emitted ++ (List.replicate padding 0x20 ++ text)) :
    Shown (p.behind padding text) s s' where
  fits := shown.fits
  parameters := shown.parameters
  written := by rw [shown.written, written, Nat.add_assoc]; rfl
  emitted := by rw [shown.emitted, emitted, List.append_assoc]; rfl

/-- A pass over text. -/
theorem finishes_text (c : UInt8) (text : List UInt8) {front rest : List UInt8} {carried : Carried}
    {s : State} {pos : Nat} (visible : ∀ d ∈ text, d ≠ 0 ∧ d ≠ 0x25)
    (spelled : format.chars = front ++ (c :: text ++ rest)) (stops : Stops rest)
    (fits : Fits carried s) (room : s.written + (c :: text).length ≤ intMax)
    (inside : pos < format.chars.length)
    (here : pass signedChar format pos s = passText format front.length s) :
    ∃ s', finishes signedChar format pos s =
        finishes signedChar format (front.length + (c :: text).length) s' ∧
      Fits carried s' ∧ s'.parameters = s.parameters ∧
      s'.written = s.written + (c :: text).length ∧ s'.emitted = s.emitted ++ c :: text := by
  let after : State := { s with
    emitted := s.emitted ++ c :: text, written := s.written + (c :: text).length }
  have passed : pass signedChar format pos s =
      .ok (.next (front.length + (c :: text).length) after) := by
    rw [here]
    exact passText_text c text visible spelled stops room
  exact ⟨after, finishes_next fits.ready inside passed,
    ⟨fits.minWidth, fits.width, fits.length, fits.behind, fits.ready, fits.integer⟩, rfl, rfl, rfl⟩

/-- The passes over pieces print what the pieces do, wherever the pieces stand in the format. -/
def Prints (signedChar : Bool) (format : CString) (rest : List UInt8) (pieces : List Piece)
    (carried : Carried) : Prop :=
  ∀ (front : List UInt8) (s : State) (p : Printed),
    format.chars = front ++ (spelling pieces ++ rest) → Fits carried s →
    printed signedChar pieces carried s.parameters = .ok p → s.written + p.counted ≤ intMax →
    ∃ s', finishes signedChar format front.length s =
      finishes signedChar format (front ++ spelling pieces).length s' ∧ Shown p s s'

section Passes

variable {rest : List UInt8} {pieces : List Piece} {carried : Carried}

/-- There is nothing to print. -/
theorem prints_nil : Prints signedChar format rest [] carried := by
  intro front s p spelled fits prints room
  obtain rfl := Except.ok.inj prints
  refine ⟨s, ?_, fits, rfl, rfl, (List.append_nil _).symm⟩
  rw [spelling, List.flatMap_nil, List.append_nil]

/-- A pass over text that starts with `c`, and the passes over the pieces behind the text. -/
theorem finishes_lead (stops : Stops rest)
    (behindText : Prints signedChar format rest (behindLead pieces) carried) {c : UInt8}
    {front : List UInt8} {pos : Nat} {s : State} {q : Printed} (fits : Fits carried s)
    (spelled : format.chars = front ++ c :: (spelling pieces ++ rest))
    (prints : printed signedChar pieces carried s.parameters = .ok q)
    (room : s.written + (1 + q.counted) ≤ intMax) (inside : pos < format.chars.length)
    (here : pass signedChar format pos s = passText format front.length s) :
    ∃ s', finishes signedChar format pos s =
      finishes signedChar format (front ++ c :: spelling pieces).length s' ∧
      Shown (q.behind 0 [c]) s s' := by
  obtain ⟨later, printsLater, rfl⟩ := printed_lead pieces prints
  have counted : s.written + (1 + ((lead pieces).length + later.counted)) ≤ intMax := room
  have text : format.chars =
      front ++ (c :: lead pieces ++ (spelling (behindLead pieces) ++ rest)) := by
    rw [spelled, spelling_lead pieces, List.append_assoc]
    rfl
  have roomText : s.written + (c :: lead pieces).length ≤ intMax := by
    rw [List.length_cons]
    omega
  obtain ⟨middle, finished, fitsRest, parameters, written, emitted⟩ :=
    finishes_text c (lead pieces) (lead_visible pieces) text (behindLead_stops pieces stops) fits
      roomText inside here
  have behind : format.chars =
      (front ++ c :: lead pieces) ++ (spelling (behindLead pieces) ++ rest) := by
    rw [text, List.append_assoc]
  have roomRest : middle.written + later.counted ≤ intMax := by
    rw [written, List.length_cons]
    omega
  rw [← parameters] at printsLater
  obtain ⟨s', more, shown⟩ := behindText _ _ _ behind fitsRest printsLater roomRest
  refine ⟨s', ?_, ?_⟩
  · rw [finished, ← List.length_append, more, spelling_lead pieces, List.append_assoc]
    rfl
  · rw [Printed.behind_behind]
    exact shown.behind written emitted

/-- A character that stands for itself starts a text. -/
theorem prints_plain (stops : Stops rest)
    (behindText : Prints signedChar format rest (behindLead pieces) carried) (c : UInt8)
    (visible : c ≠ 0) (literal : c ≠ 0x25) :
    Prints signedChar format rest (.plain c visible literal :: pieces) carried := by
  intro front s p spelled fits prints room
  rw [printed] at prints
  obtain ⟨q, printsRest, same⟩ := of_bind_ok prints
  obtain rfl := Except.ok.inj same
  have here : format.chars = front ++ c :: (spelling pieces ++ rest) := spelled
  have inside : front.length < format.chars.length := by
    rw [here, List.length_append, List.length_cons]
    omega
  apply finishes_lead stops behindText fits here printsRest room inside
  unfold pass
  rw [charAt_append here rfl, ok_bind, if_pos literal]

/-- The second `%` of `%%` starts a text. -/
theorem prints_percent (stops : Stops rest)
    (behindText : Prints signedChar format rest (behindLead pieces) carried) :
    Prints signedChar format rest (.percent :: pieces) carried := by
  intro front s p spelled fits prints room
  rw [printed] at prints
  obtain ⟨q, printsRest, same⟩ := of_bind_ok prints
  obtain rfl := Except.ok.inj same
  have first : format.chars = front ++ 0x25 :: (0x25 :: (spelling pieces ++ rest)) := spelled
  have second : format.chars = (front ++ [0x25]) ++ 0x25 :: (spelling pieces ++ rest) := by
    rw [first, List.append_assoc]
    rfl
  have inside : front.length < format.chars.length := by
    rw [first, List.length_append, List.length_cons]
    omega
  have next : front.length + 1 = (front ++ [0x25]).length := by
    rw [List.length_append, List.length_singleton]
  have here : pass signedChar format front.length s =
      passText format (front ++ [0x25]).length s := by
    unfold pass
    rw [charAt_append first rfl, ok_bind, if_neg (not_not.mpr rfl), next,
      charAt_append second rfl, ok_bind, if_pos rfl]
  obtain ⟨s', finished, shown⟩ :=
    finishes_lead stops behindText fits second printsRest room inside here
  refine ⟨s', ?_, shown⟩
  rw [finished, List.append_assoc]
  rfl

/-- A conversion leaves something to the pieces behind it. -/
theorem prints_conversion (c : Conversion)
    (behind : ∀ text, Prints signedChar format rest pieces (c.after carried text)) :
    Prints signedChar format rest (.conversion c :: pieces) carried := by
  intro front s p spelled fits prints room
  rw [printed] at prints
  obtain ⟨⟨text, later⟩, taken, prints⟩ := of_bind_ok prints
  obtain ⟨q, printsRest, same⟩ := of_bind_ok prints
  obtain rfl := Except.ok.inj same
  have here : format.chars = front ++ (c.chars ++ (spelling pieces ++ rest)) := by
    rw [spelled, spelling, List.flatMap_cons, List.append_assoc]
    rfl
  have further : format.chars = (front ++ c.chars) ++ (spelling pieces ++ rest) := by
    rw [here, List.append_assoc]
  have inside : front.length < format.chars.length := by
    rw [here, List.length_append, List.length_append, Conversion.chars, List.length_cons]
    omega
  have counted : s.written + (text.length + q.counted) ≤ intMax := room
  obtain ⟨middle, passed, fitsRest, parameters, written, emitted⟩ :=
    pass_conversion signedChar c here fits taken (by omega)
  rw [← parameters] at printsRest
  obtain ⟨s', finished, shown⟩ := behind text _ _ _ further fitsRest printsRest (by omega)
  refine ⟨s', ?_, shown.behind written emitted⟩
  rw [finishes_next fits.ready inside passed, ← List.length_append, finished, List.append_assoc]
  rfl

/-- The passes over pieces print what the pieces do: a pass over text takes several of them. -/
theorem prints_pieces (stops : Stops rest) (n : Nat) (few : pieces.length ≤ n) :
    Prints signedChar format rest pieces carried := by
  induction n generalizing pieces carried with
  | zero =>
    obtain rfl : pieces = [] := List.length_eq_zero_iff.mp (Nat.le_zero.mp few)
    exact prints_nil
  | succ n ih =>
    cases pieces with
    | nil => exact prints_nil
    | cons piece pieces =>
      have fewer : pieces.length ≤ n := Nat.le_of_succ_le_succ few
      have behindText : Prints signedChar format rest (behindLead pieces) carried :=
        ih (Nat.le_trans (behindLead_length pieces) fewer)
      cases piece with
      | plain c visible literal => exact prints_plain stops behindText c visible literal
      | percent => exact prints_percent stops behindText
      | conversion c => exact prints_conversion c fun text => ih fewer

/-- The same from a place in the format. -/
theorem finishes_printed (pieces : List Piece) {front rest : List UInt8} {carried : Carried}
    {s : State} {p : Printed} (spelled : format.chars = front ++ (spelling pieces ++ rest))
    (stops : Stops rest) (fits : Fits carried s)
    (prints : printed signedChar pieces carried s.parameters = .ok p)
    (room : s.written + p.counted ≤ intMax) :
    ∃ s', finishes signedChar format front.length s =
      finishes signedChar format (front ++ spelling pieces).length s' ∧ Shown p s s' :=
  prints_pieces stops _ (Nat.le_refl _) _ _ _ spelled fits prints room

end Passes

end FelineOS.Printf
