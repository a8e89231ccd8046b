import FelineOS.Spec.Printf
import Mathlib.Logic.Relation

/-!
# Runs of `vprintf`

A run goes from pass to pass, and every pass over a conversion finds the place, the flags, the
width, the length modifier and the letter by itself. What a pass is going to do is said here before
it does it: whether it copies a string, and whether it puts blanks in front of its text.
-/

namespace FelineOS.Printf

/-! ## Conversions in a run -/

/-- What the parser finds behind a `%`. -/
structure Parsed where
  /-- The place in front of the conversion specifier. -/
  pos : Nat
  /-- The flags. -/
  flags : Flags
  /-- The explicit width, behind those before it. -/
  minWidth : Nat
  /-- The length modifier in force. -/
  length : Length
  /-- The conversion specifier. -/
  letter : UInt8
  deriving DecidableEq, Repr

/-- The parser, from the `%` at a place up to the conversion specifier. -/
def parse (format : CString) (pos : Nat) (s : State) : Except Fault Parsed := do
  let (pos, flags) ← getFlags format (format.chars.length + 1) pos ⟨false, false⟩
  let (pos, minWidth) ← getWidth format (format.chars.length + 1) pos s.minWidth
  let (pos, length) ← getLength format pos s.length
  let letter ← charAt format (pos + 1)
  return ⟨pos, flags, minWidth, length, letter⟩

/-- The variables at the large `switch`. -/
def Parsed.settle (p : Parsed) (s : State) : State :=
  { s with minWidth := p.minWidth, length := p.length }

/-- A pass from a place on is one over a conversion with one of the specifiers in the `switch`. -/
structure ConversionAt (format : CString) (pos : Nat) (s : State) (p : Parsed) (spec : Specifier) :
    Prop where
  /-- It starts with a `%`. -/
  percent : charAt format pos = .ok 0x25
  /-- Another one does not follow. -/
  single : charAt format (pos + 1) ≠ .ok 0x25
  /-- This is what the parser finds. -/
  parsed : parse format pos s = .ok p
  /-- The specifier is one of those in the `switch`. -/
  known : specifier p.letter = some spec

/-- A pass from a place on copies a string. -/
def StringAt (format : CString) (pos : Nat) (s : State) (text : CString) : Prop :=
  ∃ p later, ConversionAt format pos s p .string ∧ s.parameters = .string text :: later

/-- The width that a conversion compares its explicit width with, from the variables at the `switch`:
of a character or a string that of the last number, and of a `long double`, which has no digits,
that of what is left in the buffer. -/
def Specifier.width (spec : Specifier) (flags : Flags) (s : State) : Nat :=
  match spec with
  | .character => s.width
  | .string => s.width
  | .pointer => 16
  | spec =>
    if s.length = .longDouble then
      let front := if flags.altForm then (unsignedStyle s.length spec).1 else []
      (textAt s.intStrBuf front.length).length
    else 16

/-- A pass from a place on puts blanks in front of its text. -/
def Pads (format : CString) (pos : Nat) (s : State) : Prop :=
  ∃ p spec, ConversionAt format pos s p spec ∧ spec.width p.flags (p.settle s) < p.minWidth

/-! ## Passes of a run -/

/-- A pass goes on with another one. -/
def PassStep (signedChar : Bool) (format : CString) (before after : Nat × State) : Prop :=
  before.1 < format.chars.length ∧
    pass signedChar format before.1 before.2 = .ok (.next after.1 after.2)

/-- The loop comes to a place with these variables. -/
def Reached (signedChar : Bool) (format : CString) (parameters : List Arg) (pos : Nat)
    (s : State) : Prop :=
  Relation.ReflTransGen (PassStep signedChar format) (0, start parameters) (pos, s)

/-- A pass over a string emits exactly its characters behind blanks, or `vprintf` returns `-1` since
they are too many for its result. -/
def CopiesString (signedChar : Bool) (format : CString) (pos : Nat) (s : State) (text : CString) :
    Prop :=
  (∃ blanks behind after, pass signedChar format pos s = .ok (.next behind after) ∧
      after.emitted = s.emitted ++ (List.replicate blanks 0x20 ++ text.chars)) ∨
    ((intMax : Int) - s.written) % (wordLimit : Int) < (text.chars.length : Int) ∧
      ∃ after, pass signedChar format pos s = .ok (.failed after)

end FelineOS.Printf
