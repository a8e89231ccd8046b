import FelineOS.Verif.PrintfPieces

/-!
# One format behind another

What a format prints behind another one is what it prints alone, as long as none of its
conversions depends on what the other one left: the digits of its explicit widths, the length
modifier and the text in the buffer. A single conversion that does depend on it prints something
else.
-/

namespace FelineOS.Printf

variable {signedChar : Bool}

/-! ## Arguments behind others -/

/-- A 32-bit argument is the first one. -/
theorem nextWord_ok {parameters rest : List Arg} {bits : UInt32}
    (taken : nextWord parameters = .ok (bits, rest)) : parameters = .word bits :: rest := by
  rcases nextWord_cases parameters with missing | ⟨found, later, whole, given⟩
  · rw [missing] at taken
    cases taken
  · rw [given] at taken
    obtain ⟨rfl, rfl⟩ := Prod.mk.inj (Except.ok.inj taken)
    exact whole

/-- A 64-bit argument is the first one. -/
theorem nextDword_ok {parameters rest : List Arg} {bits : UInt64}
    (taken : nextDword parameters = .ok (bits, rest)) : parameters = .dword bits :: rest := by
  rcases nextDword_cases parameters with missing | ⟨found, later, whole, given⟩
  · rw [missing] at taken
    cases taken
  · rw [given] at taken
    obtain ⟨rfl, rfl⟩ := Prod.mk.inj (Except.ok.inj taken)
    exact whole

/-- A string argument is the first one. -/
theorem nextString_ok {parameters rest : List Arg} {text : CString}
    (taken : nextString parameters = .ok (text, rest)) : parameters = .string text :: rest := by
  rcases nextString_cases parameters with missing | ⟨found, later, whole, given⟩
  · rw [missing] at taken
    cases taken
  · rw [given] at taken
    obtain ⟨rfl, rfl⟩ := Prod.mk.inj (Except.ok.inj taken)
    exact whole

/-- A function of the arguments takes the first one and does not look at the others. -/
def TakesFirst {β : Type} (take : List Arg → Except Fault (β × List Arg)) : Prop :=
  ∀ parameters result rest, take parameters = .ok (result, rest) →
    ∃ arg, parameters = arg :: rest ∧ ∀ others, take (arg :: others) = .ok (result, others)

/-- A case of a `switch` over the length modifier takes the first argument. -/
theorem wordCase_first {β : Type} (result : UInt32 → β) : TakesFirst (wordCase result) := by
  intro parameters value rest taken
  obtain ⟨⟨bits, later⟩, given, same⟩ := of_bind_ok taken
  obtain ⟨rfl, rfl⟩ := Prod.mk.inj (Except.ok.inj same)
  exact ⟨.word bits, nextWord_ok given, fun others => rfl⟩

/-- A case with a 64-bit argument takes the first one as well. -/
theorem dwordCase_first {β : Type} (result : UInt64 → β) : TakesFirst (dwordCase result) := by
  intro parameters value rest taken
  obtain ⟨⟨bits, later⟩, given, same⟩ := of_bind_ok taken
  obtain ⟨rfl, rfl⟩ := Prod.mk.inj (Except.ok.inj same)
  exact ⟨.dword bits, nextDword_ok given, fun others => rfl⟩

/-- An integer is the first argument. -/
theorem signedNumber_first {length : Length} (integer : length ≠ .longDouble) (alwaysSigned : Bool) :
    TakesFirst (signedNumber length alwaysSigned) := by
  cases length with
  | longDouble => exact absurd rfl integer
  | char | short | int | long | size | ptrdiff =>
    intro parameters result rest taken
    rw [signedNumber] at taken
    obtain ⟨arg, whole, always⟩ := wordCase_first _ _ _ _ taken
    refine ⟨arg, whole, fun others => ?_⟩
    rw [signedNumber]
    exact always others
  | longLong | intmax =>
    intro parameters result rest taken
    rw [signedNumber] at taken
    obtain ⟨arg, whole, always⟩ := dwordCase_first _ _ _ _ taken
    refine ⟨arg, whole, fun others => ?_⟩
    rw [signedNumber]
    exact always others

/-- An unsigned integer is the first argument. -/
theorem unsignedNumber_first {length : Length} (integer : length ≠ .longDouble) :
    TakesFirst (unsignedNumber length) := by
  cases length with
  | longDouble => exact absurd rfl integer
  | char | short | int | long | size | ptrdiff =>
    intro parameters result rest taken
    rw [unsignedNumber] at taken
    obtain ⟨arg, whole, always⟩ := wordCase_first _ _ _ _ taken
    refine ⟨arg, whole, fun others => ?_⟩
    rw [unsignedNumber]
    exact always others
  | longLong | intmax =>
    intro parameters result rest taken
    rw [unsignedNumber] at taken
    obtain ⟨arg, whole, always⟩ := dwordCase_first _ _ _ _ taken
    refine ⟨arg, whole, fun others => ?_⟩
    rw [unsignedNumber]
    exact always others

/-- A conversion takes one argument. -/
theorem Conversion.text_first (c : Conversion) {carried : Carried}
    (integer : carried.length ≠ .longDouble) : TakesFirst (c.text signedChar carried) := by
  have inForce : c.length carried ≠ .longDouble := c.modifier.integer integer
  intro parameters text rest taken
  unfold Conversion.text Conversion.number at *
  cases spec : c.spec with
  | character =>
    simp only [spec] at taken ⊢
    obtain ⟨⟨bits, later⟩, given, same⟩ := of_bind_ok taken
    obtain ⟨rfl, rfl⟩ := Prod.mk.inj (Except.ok.inj same)
    exact ⟨.word bits, nextWord_ok given, fun others => rfl⟩
  | string =>
    simp only [spec] at taken ⊢
    obtain ⟨⟨string, later⟩, given, same⟩ := of_bind_ok taken
    by_cases long : 255 < string.chars.length
    · simp only [if_pos long] at same
      cases same
    · simp only [if_neg long] at same
      obtain ⟨rfl, rfl⟩ := Prod.mk.inj (Except.ok.inj same)
      refine ⟨.string string, nextString_ok given, fun others => ?_⟩
      simp only [nextString, ok_bind, if_neg long]
      rfl
  | signed =>
    simp only [spec] at taken ⊢
    obtain ⟨⟨number, later⟩, given, same⟩ := of_bind_ok taken
    obtain ⟨arg, whole, always⟩ := signedNumber_first inForce _ _ _ _ given
    cases number with
    | none => cases same
    | some number =>
      obtain ⟨rfl, rfl⟩ := Prod.mk.inj (Except.ok.inj same)
      refine ⟨arg, whole, fun others => ?_⟩
      rw [always others]
      rfl
  | pointer =>
    simp only [spec] at taken ⊢
    obtain ⟨⟨bits, later⟩, given, same⟩ := of_bind_ok taken
    obtain ⟨rfl, rfl⟩ := Prod.mk.inj (Except.ok.inj same)
    exact ⟨.word bits, nextWord_ok given, fun others => rfl⟩
  | unsigned | octal | hex | upperHex | binary =>
    simp only [spec] at taken ⊢
    obtain ⟨⟨number, later⟩, given, same⟩ := of_bind_ok taken
    obtain ⟨arg, whole, always⟩ := unsignedNumber_first inForce _ _ _ given
    cases number with
    | none => cases same
    | some number =>
      obtain ⟨rfl, rfl⟩ := Prod.mk.inj (Except.ok.inj same)
      refine ⟨arg, whole, fun others => ?_⟩
      rw [always others]
      rfl

/-! ## Formats behind others -/

/-- Arguments that are not taken do not matter. -/
theorem printed_more (pieces : List Piece) {carried : Carried} {parameters : List Arg} {p : Printed}
    (integer : carried.length ≠ .longDouble)
    (prints : printed signedChar pieces carried parameters = .ok p) (others : List Arg) :
    printed signedChar pieces carried (parameters ++ others) =
      .ok { p with rest := p.rest ++ others } := by
  induction pieces generalizing carried parameters p with
  | nil =>
    obtain rfl := Except.ok.inj prints
    rfl
  | cons piece pieces ih =>
    cases piece with
    | plain | percent =>
      rw [printed] at prints
      obtain ⟨q, printsRest, same⟩ := of_bind_ok prints
      obtain rfl := Except.ok.inj same
      rw [printed, ih integer printsRest]
      rfl
    | conversion c =>
      rw [printed] at prints
      obtain ⟨⟨text, later⟩, taken, prints⟩ := of_bind_ok prints
      obtain ⟨q, printsRest, same⟩ := of_bind_ok prints
      obtain rfl := Except.ok.inj same
      obtain ⟨arg, rfl, always⟩ := c.text_first integer _ _ _ taken
      rw [printed, List.cons_append, always, ok_bind]
      dsimp only
      rw [ih (c.modifier.integer integer) printsRest]
      rfl

/-- Pieces behind others print behind them. -/
theorem printed_append (pieces others : List Piece) {carried : Carried} {parameters : List Arg}
    {p q : Printed} (prints : printed signedChar pieces carried parameters = .ok p)
    (printsOthers : printed signedChar others p.carried p.rest = .ok q) :
    printed signedChar (pieces ++ others) carried parameters =
      .ok { q with emitted := p.emitted ++ q.emitted, counted := p.counted + q.counted } := by
  induction pieces generalizing carried parameters p with
  | nil =>
    obtain rfl := Except.ok.inj prints
    simpa using printsOthers
  | cons piece pieces ih =>
    cases piece with
    | plain | percent =>
      rw [printed] at prints
      obtain ⟨r, printsRest, same⟩ := of_bind_ok prints
      obtain rfl := Except.ok.inj same
      rw [List.cons_append, printed, ih printsRest printsOthers, ok_bind]
      simp only [Printed.behind, List.append_assoc, Nat.add_assoc]
      rfl
    | conversion c =>
      rw [printed] at prints
      obtain ⟨⟨text, later⟩, taken, prints⟩ := of_bind_ok prints
      obtain ⟨r, printsRest, same⟩ := of_bind_ok prints
      obtain rfl := Except.ok.inj same
      rw [List.cons_append, printed, taken, ok_bind]
      dsimp only
      rw [ih printsRest printsOthers, ok_bind]
      simp only [Printed.behind, List.append_assoc, Nat.add_assoc]
      rfl

/-- A conversion that agrees has the same text. -/
theorem Conversion.Agrees.text {c : Conversion} {one other : Carried} {parameters : List Arg}
    (agrees : c.Agrees signedChar one other parameters) :
    c.text signedChar one parameters = c.text signedChar other parameters := by
  obtain ⟨-, same⟩ := agrees
  unfold Conversion.text
  cases spec : c.spec with
  | character =>
    rw [spec] at same
    rcases same with behind | ⟨arg, rest, taken, nul⟩
    · simp only [behind]
    · simp only [taken, ok_bind, if_pos nul]
  | string => rfl
  | signed | octal | unsigned | hex | upperHex | binary | pointer =>
    rw [spec] at same
    exact same

/-- Conversions that are not affected print what they print alone. -/
theorem Unaffected.printed {pieces : List Piece} {one other : Carried} {parameters : List Arg}
    {q : Printed} (unaffected : Unaffected signedChar pieces one other parameters)
    (prints : printed signedChar pieces other parameters = .ok q) :
    ∃ p, Printf.printed signedChar pieces one parameters = .ok p ∧ p.emitted = q.emitted ∧
      p.counted = q.counted := by
  induction pieces generalizing one other parameters q with
  | nil =>
    obtain rfl := Except.ok.inj prints
    exact ⟨_, rfl, rfl, rfl⟩
  | cons piece pieces ih =>
    cases piece with
    | plain | percent =>
      rw [Printf.printed] at prints
      obtain ⟨r, printsRest, same⟩ := of_bind_ok prints
      obtain rfl := Except.ok.inj same
      obtain ⟨p, printsOne, emitted, counted⟩ := ih unaffected printsRest
      rw [Printf.printed, printsOne]
      exact ⟨_, rfl, congrArg (_ ++ ·) emitted, congrArg (_ + ·) counted⟩
    | conversion c =>
      rw [Printf.printed] at prints
      obtain ⟨⟨text, later⟩, taken, prints⟩ := of_bind_ok prints
      obtain ⟨r, printsRest, same⟩ := of_bind_ok prints
      obtain rfl := Except.ok.inj same
      obtain ⟨agrees, unaffectedRest⟩ := unaffected
      obtain ⟨p, printsOne, emitted, counted⟩ := ih (unaffectedRest text later taken) printsRest
      rw [Printf.printed, agrees.text, taken, ok_bind]
      dsimp only
      rw [printsOne, agrees.1]
      exact ⟨_, rfl, congrArg (_ ++ ·) emitted, congrArg (_ + ·) counted⟩

/-! ## Exactly when -/

/-- The same characters behind blanks: as many blanks, and the same text. -/
theorem blanks_cancel {m n : Nat} {one other : List UInt8} {c d : UInt8}
    (dark : c ≠ 0x20) (darkOther : d ≠ 0x20)
    (same : List.replicate m 0x20 ++ c :: one = List.replicate n 0x20 ++ d :: other) :
    m = n ∧ c :: one = d :: other := by
  induction m generalizing n with
  | zero =>
    cases n with
    | zero => exact ⟨rfl, same⟩
    | succ n => exact absurd (List.cons.inj same).1 dark
  | succ m ih =>
    cases n with
    | zero => exact absurd (List.cons.inj same).1.symm darkOther
    | succ n =>
      obtain ⟨blanks, text⟩ := ih (List.cons.inj same).2
      exact ⟨congrArg Nat.succ blanks, text⟩

/-- A number starts with a character that can be seen. -/
theorem Conversion.number_dark (c : Conversion) (number : c.spec.isNumber) {length : Length}
    (integer : length ≠ .longDouble) {parameters rest : List Arg} {text : List UInt8}
    (taken : c.number signedChar length parameters = .ok (text, rest)) :
    ∃ d later, text = d :: later ∧ d ≠ 0x20 := by
  let s : State := { start parameters with length }
  have ready : Ready s.intStrBuf := start_ready parameters
  have numbered := convert_number signedChar c number ready (.inr integer)
  have same : c.number signedChar s.length s.parameters = .ok (text, rest) := taken
  rw [same] at numbered
  obtain ⟨dark, some_, -⟩ := numbered
  obtain ⟨d, later, rfl⟩ := List.exists_cons_of_ne_nil some_
  exact ⟨d, later, rfl, (dark d (List.mem_cons_self ..)).2⟩

/-- A character that is printed is not a blank. -/
def NoBlank (c : Conversion) (parameters : List Arg) : Prop :=
  c.spec = .character → ∀ arg rest, nextWord parameters = .ok (arg, rest) → arg.toUInt8 ≠ 0x20

/-- As many blanks make as long a padding. -/
theorem replicate_cancel {m n : Nat} {text : List UInt8}
    (same : List.replicate m 0x20 ++ text = List.replicate n 0x20 ++ text) : m = n := by
  have long := congrArg List.length same
  simp only [List.length_append, List.length_replicate] at long
  omega

/-- A conversion that prints the same agrees. -/
theorem Conversion.agrees_of_same (c : Conversion) {one other : Carried} {parameters : List Arg}
    {text textOther : List UInt8} {rest restOther : List Arg}
    (integer : one.length ≠ .longDouble) (integerOther : other.length ≠ .longDouble)
    (noBlank : NoBlank c parameters)
    (taken : c.text signedChar one parameters = .ok (text, rest))
    (takenOther : c.text signedChar other parameters = .ok (textOther, restOther))
    (same : List.replicate (c.padding one) 0x20 ++ text =
      List.replicate (c.padding other) 0x20 ++ textOther) :
    c.Agrees signedChar one other parameters := by
  cases spec : c.spec with
  | character =>
    unfold Conversion.text at taken takenOther
    rw [spec] at taken takenOther
    obtain ⟨⟨arg, later⟩, given, result⟩ := of_bind_ok taken
    rw [given] at takenOther
    obtain ⟨rfl, -⟩ := Prod.mk.inj (Except.ok.inj result)
    obtain ⟨rfl, -⟩ := Prod.mk.inj (Except.ok.inj takenOther)
    unfold Conversion.Agrees
    rw [spec]
    by_cases nul : arg.toUInt8 = 0
    · rw [if_pos nul, if_pos nul] at same
      exact ⟨replicate_cancel same, .inr ⟨arg, later, given, nul⟩⟩
    · have dark := noBlank spec arg later given
      rw [if_neg nul, if_neg nul] at same
      obtain ⟨padding, texts⟩ := blanks_cancel dark dark same
      exact ⟨padding, .inl (List.cons.inj texts).2⟩
  | string =>
    have agree : c.text signedChar one parameters = c.text signedChar other parameters := by
      unfold Conversion.text
      rw [spec]
    rw [agree, takenOther] at taken
    obtain ⟨rfl, -⟩ := Prod.mk.inj (Except.ok.inj taken)
    unfold Conversion.Agrees
    rw [spec]
    exact ⟨replicate_cancel same, trivial⟩
  | signed | octal | unsigned | hex | upperHex | binary | pointer =>
    have number : c.spec.isNumber := by
      rw [spec]
      rfl
    obtain ⟨arg, whole, -⟩ := c.text_first integer _ _ _ taken
    obtain ⟨argOther, wholeOther, -⟩ := c.text_first integerOther _ _ _ takenOther
    have rests : rest = restOther := (List.cons.inj (whole.symm.trans wholeOther)).2
    rw [c.text_number number] at taken takenOther
    obtain ⟨d, later, rfl, dark⟩ := c.number_dark number (c.modifier.integer integer) taken
    obtain ⟨e, more, rfl, darkOther⟩ :=
      c.number_dark number (c.modifier.integer integerOther) takenOther
    obtain ⟨padding, texts⟩ := blanks_cancel dark darkOther same
    unfold Conversion.Agrees
    rw [spec]
    refine ⟨padding, ?_⟩
    change c.number signedChar (c.length one) parameters = _
    rw [taken, takenOther, texts, rests]

/-- The characters that `vprintf` emits. -/
def emits (signedChar : Bool) (format : CString) (parameters : List Arg) :
    Except Fault (List UInt8) :=
  (vprintf signedChar format parameters).map Prod.snd

/-- Nothing is left to the first conversion. -/
theorem start_fits (parameters : List Arg) : Fits .start (start parameters) where
  minWidth := rfl
  width := rfl
  length := rfl
  behind := by
    unfold start
    rfl
  ready := start_ready parameters
  integer := Length.noConfusion

/-- `vprintf` prints what the pieces of its format print, and counts it. -/
theorem vprintf_printed {format : CString} {pieces : List Piece} {parameters : List Arg}
    {p : Printed} (spelled : format.chars = spelling pieces)
    (prints : printed signedChar pieces .start parameters = .ok p) (room : p.counted ≤ intMax) :
    vprintf signedChar format parameters = .ok (p.counted, p.emitted) := by
  have whole : format.chars = [] ++ (spelling pieces ++ []) := by
    rw [spelled, List.append_nil, List.nil_append]
  have stops : Stops [] := fun _ _ same => absurd same.symm (List.cons_ne_nil _ _)
  have counted : (start parameters).written + p.counted ≤ intMax := by
    rw [show (start parameters).written = 0 from rfl, Nat.zero_add]
    exact room
  obtain ⟨s', finished, shown⟩ :=
    finishes_printed pieces whole stops (start_fits parameters) prints counted
  rw [List.nil_append, finishes_end (congrArg List.length spelled.symm)] at finished
  have ran : passes signedChar format (format.chars.length + 1) 0 (start parameters) =
      .ok (s'.written, s') := finished
  unfold vprintf
  rw [ran, ok_bind]
  have written : s'.written = p.counted := shown.written.trans (Nat.zero_add _)
  have emitted : s'.emitted = p.emitted := shown.emitted
  rw [← written, ← emitted]
  rfl

/-- A format behind another one emits behind it what it emits alone. -/
def Composes (signedChar : Bool) (first second both : CString) (a b : List Arg) : Prop :=
  ∃ one two, emits signedChar first a = .ok one ∧ emits signedChar second b = .ok two ∧
    emits signedChar both (a ++ b) = .ok (one ++ two)

/-- At the end of a format a conversion that comes back has printed its text behind its blanks. -/
theorem finishes_conversion {format : CString} (c : Conversion) {front : List UInt8}
    {carried : Carried} {s : State} {result : Int × State}
    (here : format.chars = front ++ c.chars) (fits : Fits carried s)
    (room : s.written + 255 ≤ intMax)
    (finished : finishes signedChar format front.length s = .ok result) :
    ∃ text rest, c.text signedChar carried s.parameters = .ok (text, rest) ∧
      result.2.emitted = s.emitted ++ (List.replicate (c.padding carried) 0x20 ++ text) := by
  have spelled : format.chars = front ++ (c.chars ++ []) := by
    rw [here, List.append_nil]
  have inside : front.length < format.chars.length := by
    rw [here, List.length_append, Conversion.chars, List.length_cons]
    omega
  have last : front.length + c.chars.length = format.chars.length := by
    rw [here, List.length_append]
  cases outcome : c.text signedChar carried s.parameters with
  | error fault =>
    rw [finishes_error inside (pass_error signedChar c spelled fits outcome)] at finished
    cases finished
  | ok shown =>
    obtain ⟨text, rest⟩ := shown
    obtain ⟨after, -, shows⟩ := convert_ok signedChar c fits outcome
    have short : text.length ≤ 255 := by
      rw [← shows.text]
      exact takeWhile_length_le shows.fits.ready.2
    obtain ⟨final, passed, -, -, -, printed⟩ :=
      pass_conversion signedChar c spelled fits outcome (by omega)
    rw [finishes_next fits.ready inside passed, finishes_end last] at finished
    obtain rfl := Except.ok.inj finished
    exact ⟨text, rest, rfl, printed⟩

/-- What a format emits, from the place behind pieces on. -/
theorem emits_behind {f : List Piece} {format : CString} {rest : List UInt8}
    {parameters : List Arg} {p : Printed} (spelled : format.chars = spelling f ++ rest)
    (stops : Stops rest) (prints : printed signedChar f .start parameters = .ok p)
    (room : p.counted ≤ intMax) :
    ∃ s, Shown p (start parameters) s ∧ emits signedChar format parameters =
      (finishes signedChar format (spelling f).length s).map fun result => result.2.emitted := by
  have counted : (start parameters).written + p.counted ≤ intMax := by
    have none : (start parameters).written = 0 := rfl
    omega
  have fromStart : format.chars = [] ++ (spelling f ++ rest) := spelled
  obtain ⟨s, finished, shown⟩ :=
    finishes_printed f fromStart stops (start_fits parameters) prints counted
  refine ⟨s, shown, ?_⟩
  rw [List.nil_append, List.length_nil] at finished
  rw [← finished]
  unfold emits vprintf finishes
  cases passes signedChar format (format.chars.length + 1) 0 (start parameters) with
  | error fault => rfl
  | ok result => rfl

/-- A conversion behind other pieces that emits what it emits alone agrees. -/
theorem agrees_of_composes {f : List Piece} {c : Conversion} {first second both : CString}
    {a b : List Arg} {p q : Printed} (spelledFirst : first.chars = spelling f)
    (spelledSecond : second.chars = spelling [.conversion c])
    (spelledBoth : both.chars = spelling (f ++ [.conversion c]))
    (prints : printed signedChar f .start a = .ok p) (taken : p.rest = [])
    (printsOther : printed signedChar [.conversion c] .start b = .ok q)
    (roomOther : q.counted ≤ intMax) (room : p.counted + 255 ≤ intMax) (noBlank : NoBlank c b)
    (composes : Composes signedChar first second both a b) :
    c.Agrees signedChar p.carried .start b := by
  obtain ⟨one, two, emitsFirst, emitsSecond, emitsBoth⟩ := composes
  -- what the two formats emit alone
  obtain rfl : p.emitted = one := by
    have same := vprintf_printed spelledFirst prints (by omega)
    rw [emits, same] at emitsFirst
    exact Except.ok.inj emitsFirst
  obtain rfl : q.emitted = two := by
    have same := vprintf_printed spelledSecond printsOther roomOther
    rw [emits, same] at emitsSecond
    exact Except.ok.inj emitsSecond
  rw [printed] at printsOther
  obtain ⟨⟨textOther, restOther⟩, takenOther, printsOther⟩ := of_bind_ok printsOther
  obtain rfl := Except.ok.inj printsOther
  -- what the conversion emits behind the first format
  have more := printed_more f (Length.noConfusion) prints b
  rw [taken, List.nil_append] at more
  have here : both.chars = spelling f ++ c.chars := by
    rw [spelledBoth, spelling, List.flatMap_append, List.flatMap_singleton]
    rfl
  have stops : Stops c.chars := fun d later same => (List.cons.inj same).1.symm
  have counted : p.counted ≤ intMax := Nat.le_trans (Nat.le_add_right _ _) room
  obtain ⟨s, shown, whole⟩ := emits_behind here stops more counted
  have fits : Fits p.carried s := shown.fits
  have parameters : s.parameters = b := shown.parameters
  have written : s.written = p.counted := shown.written.trans (Nat.zero_add _)
  have emitted : s.emitted = p.emitted := shown.emitted
  rw [whole] at emitsBoth
  cases finished : finishes signedChar both (spelling f).length s with
  | error fault =>
    rw [finished] at emitsBoth
    cases emitsBoth
  | ok result =>
    rw [finished] at emitsBoth
    obtain ⟨text, rest, outcome, printed⟩ :=
      finishes_conversion c here fits (by omega) finished
    have same : result.2.emitted = p.emitted ++
        (List.replicate (c.padding .start) 0x20 ++ textOther ++ []) := Except.ok.inj emitsBoth
    rw [printed, emitted, List.append_nil] at same
    rw [parameters] at outcome
    exact c.agrees_of_same fits.integer Length.noConfusion noBlank outcome takenOther
      (List.append_cancel_left same)

/-- A format behind another one emits what it emits alone if none of its conversions depends on
what the other one leaves to it, and a single conversion only then. -/
theorem vprintf_append_iff {f g : List Piece} {first second both : CString} {a b : List Arg}
    {p q : Printed} (spelledFirst : first.chars = spelling f)
    (spelledSecond : second.chars = spelling g) (spelledBoth : both.chars = spelling (f ++ g))
    (prints : printed signedChar f .start a = .ok p) (taken : p.rest = [])
    (printsOther : printed signedChar g .start b = .ok q)
    (room : p.counted + q.counted ≤ intMax) :
    (Unaffected signedChar g p.carried .start b → Composes signedChar first second both a b) ∧
    ∀ c, g = [.conversion c] → NoBlank c b → p.counted + 255 ≤ intMax →
      (Composes signedChar first second both a b ↔ Unaffected signedChar g p.carried .start b) := by
  have composes (unaffected : Unaffected signedChar g p.carried .start b) :
      Composes signedChar first second both a b := by
    obtain ⟨r, printsBehind, emitted, counted⟩ := unaffected.printed printsOther
    have more := printed_more f (Length.noConfusion) prints b
    rw [taken, List.nil_append] at more
    have joined := printed_append f g more printsBehind
    refine ⟨p.emitted, q.emitted, ?_, ?_, ?_⟩
    · rw [emits, vprintf_printed spelledFirst prints (by omega)]
      rfl
    · rw [emits, vprintf_printed spelledSecond printsOther (by omega)]
      rfl
    · have fits : p.counted + r.counted ≤ intMax := by omega
      rw [emits, vprintf_printed spelledBoth joined fits, ← emitted]
      rfl
  refine ⟨composes, ?_⟩
  rintro c rfl noBlank enough
  refine ⟨fun same => ⟨?_, fun _ _ _ => trivial⟩, composes⟩
  exact agrees_of_composes spelledFirst spelledSecond spelledBoth prints taken printsOther
    (by omega) enough noBlank same

/-! ## Formats with one conversion -/

/-- `%d`. -/
def decimal : Conversion :=
  ⟨[], [], .none, 0x64, .signed, List.forall_mem_nil _, specifier_decimal⟩

/-- `%x`. -/
def hexadecimal : Conversion := ⟨[], [], .none, 0x78, .hex, List.forall_mem_nil _, rfl⟩

/-- `%c`. -/
def character : Conversion := ⟨[], [], .none, 0x63, .character, List.forall_mem_nil _, rfl⟩

/-- `%d`, as a string. -/
def decimalFormat : CString := ⟨[0x25, 0x64], by decide, by decide⟩

/-- `%x`, as a string. -/
def hexFormat : CString := ⟨[0x25, 0x78], by decide, by decide⟩

/-- `%c`, as a string. -/
def characterFormat : CString := ⟨[0x25, 0x63], by decide, by decide⟩

/-- What `%d` prints for a five. -/
def printedFive : Printed :=
  ⟨List.replicate 15 0x30 ++ [0x35], 16, ⟨0, 16, .int, List.replicate 14 0x30 ++ [0x35]⟩, []⟩

/-- What `%x` prints for a ten. -/
def printedTen : Printed :=
  ⟨List.replicate 15 0x30 ++ [0x61], 16, ⟨0, 16, .int, List.replicate 14 0x30 ++ [0x61]⟩, []⟩

/-- A number behind a number prints what it prints alone. -/
theorem vprintf_append_numbers : Composes true decimalFormat hexFormat
    ⟨[0x25, 0x64, 0x25, 0x78], by decide, by decide⟩ [.word 5] [.word 10] := by
  have prints : printed true [.conversion decimal] .start [.word 5] = .ok printedFive := by
    decide +kernel
  have printsOther : printed true [.conversion hexadecimal] .start [.word 10] = .ok printedTen := by
    decide +kernel
  have spelledFirst : decimalFormat.chars = spelling [.conversion decimal] := rfl
  have spelledSecond : hexFormat.chars = spelling [.conversion hexadecimal] := rfl
  have spelledBoth : (⟨[0x25, 0x64, 0x25, 0x78], by decide, by decide⟩ : CString).chars =
      spelling ([.conversion decimal] ++ [.conversion hexadecimal]) := rfl
  have exactly := vprintf_append_iff spelledFirst spelledSecond spelledBoth prints rfl printsOther
    (by decide)
  exact exactly.1 ⟨⟨rfl, rfl⟩, fun _ _ _ => trivial⟩

/-- A character behind a number brings the digits of the number with it. -/
theorem vprintf_append_stale :
    decimalFormat.chars = spelling [.conversion decimal] ∧
    characterFormat.chars = spelling [.conversion character] ∧
    ¬Composes true decimalFormat characterFormat
      ⟨[0x25, 0x64, 0x25, 0x63], by decide, by decide⟩ [.word 5] [.word 65] := by
  refine ⟨rfl, rfl, ?_⟩
  rintro ⟨one, two, emitsFirst, emitsSecond, emitsBoth⟩
  have first : emits true decimalFormat [.word 5] = .ok (List.replicate 15 0x30 ++ [0x35]) := by
    decide +kernel
  have second : emits true characterFormat [.word 65] = .ok [0x41] := by decide +kernel
  have both : emits true ⟨[0x25, 0x64, 0x25, 0x63], by decide, by decide⟩ [.word 5, .word 65] =
      .ok (List.replicate 15 0x30 ++ [0x35] ++ 0x41 :: (List.replicate 14 0x30 ++ [0x35])) := by
    decide +kernel
  obtain rfl := Except.ok.inj (first.symm.trans emitsFirst)
  obtain rfl := Except.ok.inj (second.symm.trans emitsSecond)
  have same := Except.ok.inj (both.symm.trans emitsBoth)
  exact absurd same (by decide)

end FelineOS.Printf
