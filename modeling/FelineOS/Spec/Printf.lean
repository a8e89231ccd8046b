import FelineOS.Libc.Printf

/-!
# What a format prints

A format as the pieces it is made of: characters, `%%` and the conversions that `vprintf`
supports. Only four things of the conversions before it matter to a conversion: the sum of their
explicit widths, the width of the last number, the last length modifier and the text that stands
in the conversion buffer behind its first byte. With these, what a conversion prints is written
down in closed form.
-/

namespace FelineOS.Printf

/-! ## Pieces of a format -/

/-- The length modifiers of integer conversions. -/
inductive Modifier where
  | none
  | h
  | hh
  | l
  | ll
  | j
  | z
  | t
  deriving DecidableEq, Repr

/-- How a modifier is spelled. -/
def Modifier.chars : Modifier → List UInt8
  | .none => []
  | .h => [0x68]
  | .hh => [0x68, 0x68]
  | .l => [0x6C]
  | .ll => [0x6C, 0x6C]
  | .j => [0x6A]
  | .z => [0x7A]
  | .t => [0x74]

/-- The flag characters. -/
inductive Flag where
  | alternate
  | zero
  | minus
  | plus
  deriving DecidableEq, Repr

/-- How a flag is spelled. -/
def Flag.char : Flag → UInt8
  | .alternate => 0x23
  | .zero => 0x30
  | .minus => 0x2D
  | .plus => 0x2B

/-- A conversion that is supported, with a width in the digits that `isdigit` takes for digits. -/
structure Conversion where
  /-- The flags. -/
  flags : List Flag
  /-- The digits of the explicit width. -/
  digits : List UInt8
  /-- The length modifier. -/
  modifier : Modifier
  /-- The conversion specifier. -/
  letter : UInt8
  /-- What it stands for. -/
  spec : Specifier
  /-- The width has digits. -/
  numeric : ∀ d ∈ digits, isdigit d
  /-- The specifier is one of those in the large `switch`. -/
  known : specifier letter = some spec
  deriving DecidableEq

/-- How a conversion is spelled. -/
def Conversion.chars (c : Conversion) : List UInt8 :=
  0x25 :: (c.flags.map Flag.char ++ c.digits ++ c.modifier.chars ++ [c.letter])

/-- A piece of a format. -/
inductive Piece where
  /-- A character that stands for itself. -/
  | plain (c : UInt8) (visible : c ≠ 0) (literal : c ≠ 0x25)
  /-- `%%`. -/
  | percent
  /-- A conversion. -/
  | conversion (c : Conversion)
  deriving DecidableEq

/-- How a piece is spelled. -/
def Piece.chars : Piece → List UInt8
  | .plain c _ _ => [c]
  | .percent => [0x25, 0x25]
  | .conversion c => c.chars

/-- How a format is spelled. -/
def spelling (pieces : List Piece) : List UInt8 := pieces.flatMap Piece.chars

/-! ## What conversions leave behind -/

/-- What a conversion finds of the ones before it. -/
structure Carried where
  /-- The explicit widths so far, one after the other. -/
  minWidth : Nat
  /-- The width of the last number. -/
  width : Nat
  /-- The length modifier that a single `h` or `l` keeps. -/
  length : Length
  /-- The text in the conversion buffer behind its first byte. -/
  behind : List UInt8
  deriving DecidableEq, Repr

/-- Before the first conversion. -/
def Carried.start : Carried := ⟨0, 0, .int, []⟩

/-- What a flag sets. -/
def Flags.set (flags : Flags) : Flag → Flags
  | .alternate => { flags with altForm := true }
  | .zero => flags
  | .minus => flags
  | .plus => { flags with alwaysSigned := true }

/-- What the flags of a conversion set. -/
def Conversion.kept (c : Conversion) : Flags := c.flags.foldl Flags.set ⟨false, false⟩

/-- An explicit width with one more digit. -/
def widen (width : Nat) (digit : UInt8) : Nat := wrap (wrap (width * 10) + (digit.toNat - 0x30))

/-- The length modifier that is in force after a modifier has been read. -/
def Modifier.inForce (carried : Length) : Modifier → Length
  | .none => .int
  | .h => carried
  | .hh => .char
  | .l => carried
  | .ll => .longLong
  | .j => .intmax
  | .z => .size
  | .t => .ptrdiff

/-- The explicit width that a conversion comes to, behind those before it. -/
def Conversion.minWidth (c : Conversion) (carried : Carried) : Nat :=
  c.digits.foldl widen carried.minWidth

/-- The length modifier that is in force. -/
def Conversion.length (c : Conversion) (carried : Carried) : Length :=
  c.modifier.inForce carried.length

/-- A conversion of a number. -/
def Specifier.isNumber : Specifier → Bool
  | .character => false
  | .string => false
  | _ => true

/-- The width that a conversion compares its explicit width with: sixteen digits, or what the last
number had. -/
def Conversion.width (c : Conversion) (carried : Carried) : Nat :=
  if c.spec.isNumber then 16 else carried.width

/-- The blanks in front of a conversion. -/
def Conversion.padding (c : Conversion) (carried : Carried) : Nat :=
  if c.width carried < c.minWidth carried then c.minWidth carried - c.width carried else 0

/-- The sixteen digits of a number. -/
def Style.text (signedChar : Bool) (style : Style) (num : Nat) : List UInt8 :=
  let printed := Printf.digits num style.base 16 1
  match style.letters with
  | none => printed
  | some upper => printed.map fun c =>
      if behindNine signedChar c then c + (if upper then 7 else 39) else c

/-- The text of a conversion of a number with a length modifier, and the arguments behind it. -/
def Conversion.number (signedChar : Bool) (c : Conversion) (length : Length)
    (parameters : List Arg) : Except Fault (List UInt8 × List Arg) :=
  let text (front : List UInt8) (style : Style) (num : Nat) := front ++ style.text signedChar num
  match c.spec with
  | .signed => do
    let (number, rest) ← signedNumber length c.kept.alwaysSigned parameters
    match number with
    | none => .error .argument
    | some (sign, num) => return (text sign ⟨10, none⟩ num, rest)
  | .unsigned => do
    let (number, rest) ← unsignedNumber length parameters
    match number with
    | none => .error .argument
    | some num => return (text (plusOf c.kept.alwaysSigned) ⟨10, none⟩ num, rest)
  | .pointer => do
    let (arg, rest) ← nextWord parameters
    return (text (if c.kept.altForm then [] else [0x30, 0x78]) ⟨16, some false⟩ arg.toNat, rest)
  | spec => do
    let (number, rest) ← unsignedNumber length parameters
    match number with
    | none => .error .argument
    | some num =>
      let (alt, style) := unsignedStyle length spec
      return (text (if c.kept.altForm then alt else []) style num, rest)

/-- The text of a conversion, and the arguments behind it. -/
def Conversion.text (signedChar : Bool) (c : Conversion) (carried : Carried)
    (parameters : List Arg) : Except Fault (List UInt8 × List Arg) :=
  match c.spec with
  | .character => do
    let (arg, rest) ← nextWord parameters
    return (if arg.toUInt8 = 0 then [] else arg.toUInt8 :: carried.behind, rest)
  | .string => do
    let (text, rest) ← nextString parameters
    if 255 < text.chars.length then .error .bufferWrite else return (text.chars, rest)
  | _ => c.number signedChar (c.length carried) parameters

/-- What a conversion leaves to the ones behind it. -/
def Conversion.after (c : Conversion) (carried : Carried) (text : List UInt8) : Carried where
  minWidth := c.minWidth carried
  width := c.width carried
  length := c.length carried
  behind := if c.spec = .character ∨ text = [] then carried.behind else text.tail

/-! ## Whole formats -/

/-- What a list of pieces prints. -/
structure Printed where
  /-- The characters. -/
  emitted : List UInt8
  /-- How many of them are counted; the blanks are not. -/
  counted : Nat
  /-- What is left to the pieces behind. -/
  carried : Carried
  /-- The arguments that are left. -/
  rest : List Arg
  deriving DecidableEq, Repr

/-- What comes in front of what pieces print. -/
def Printed.behind (printed : Printed) (padding : Nat) (text : List UInt8) : Printed :=
  { printed with emitted := List.replicate padding 0x20 ++ text ++ printed.emitted,
                 counted := text.length + printed.counted }

/-- What pieces print. -/
def printed (signedChar : Bool) : List Piece → Carried → List Arg → Except Fault Printed
  | [], carried, parameters => .ok ⟨[], 0, carried, parameters⟩
  | .plain c _ _ :: pieces, carried, parameters => do
    let later ← printed signedChar pieces carried parameters
    return later.behind 0 [c]
  | .percent :: pieces, carried, parameters => do
    let later ← printed signedChar pieces carried parameters
    return later.behind 0 [0x25]
  | .conversion c :: pieces, carried, parameters => do
    let (text, rest) ← c.text signedChar carried parameters
    let later ← printed signedChar pieces (c.after carried text) rest
    return later.behind (c.padding carried) text

/-- A conversion prints the same behind either of two things that were left to it: its blanks are
as many, a number is read the same by the length modifier in force, and a character has the same
text behind it in the buffer. -/
def Conversion.Agrees (signedChar : Bool) (c : Conversion) (one other : Carried)
    (parameters : List Arg) : Prop :=
  c.padding one = c.padding other ∧
    match c.spec with
    | .character => one.behind = other.behind ∨
        ∃ arg rest, nextWord parameters = .ok (arg, rest) ∧ arg.toUInt8 = 0
    | .string => True
    | _ => c.number signedChar (c.length one) parameters =
        c.number signedChar (c.length other) parameters

/-- Every conversion prints the same behind either of two things that were left to the first. -/
def Unaffected (signedChar : Bool) : List Piece → Carried → Carried → List Arg → Prop
  | [], _, _, _ => True
  | .plain _ _ _ :: pieces, one, other, parameters => Unaffected signedChar pieces one other parameters
  | .percent :: pieces, one, other, parameters => Unaffected signedChar pieces one other parameters
  | .conversion c :: pieces, one, other, parameters =>
    c.Agrees signedChar one other parameters ∧
      ∀ text rest, c.text signedChar other parameters = .ok (text, rest) →
        Unaffected signedChar pieces (c.after one text) (c.after other text) rest

end FelineOS.Printf
