import FelineOS.Spec.Printf
import FelineOS.Library.Numerals

/-!
# What a conversion of an integer should print

The conversions of integers as C has them, with the types of their arguments on a target with a
32-bit `long`, and the text that an argument should come out as. When `vprintf` does print that text
is a question of the length modifier in force, which reads the argument back, and of the sixteen
places for its digits.
-/

namespace FelineOS.Printf

/-! ## Conversions and their arguments -/

/-- A conversion of an integer. An explicit width has any decimal digits; a zero in front would be
a flag. -/
structure IntegerConversion where
  /-- The flags. -/
  flags : List Flag
  /-- The digits of the explicit width. -/
  digits : List UInt8
  /-- The length modifier. -/
  modifier : Modifier
  /-- The conversion specifier. -/
  letter : UInt8
  /-- What it stands for. -/
  spec : Specifier
  /-- The width is decimal. -/
  decimal : ∀ d ∈ digits, 0x30 ≤ d ∧ d ≤ 0x39
  /-- The width does not start with a flag. -/
  leading : digits.head? ≠ some 0x30
  /-- The specifier is one of those in the large `switch`. -/
  known : specifier letter = some spec
  /-- It stands for a number. -/
  number : spec.isNumber

/-- How a conversion is spelled. -/
def IntegerConversion.chars (c : IntegerConversion) : List UInt8 :=
  0x25 :: (c.flags.map Flag.char ++ c.digits ++ c.modifier.chars ++ [c.letter])

/-- The flags that are set. -/
def IntegerConversion.kept (c : IntegerConversion) : Flags :=
  c.flags.foldl Flags.set ⟨false, false⟩

/-- The number of bits of the type that a modifier stands for. -/
def Modifier.bits : Modifier → Nat
  | .hh => 8
  | .h => 16
  | .none => 32
  | .l => 32
  | .z => 32
  | .t => 32
  | .ll => 64
  | .j => 64

/-- The number of bits of the type of the argument. -/
def IntegerConversion.bits (c : IntegerConversion) : Nat :=
  if c.spec = .pointer then 32 else c.modifier.bits

/-- The values of the type of the argument. -/
def IntegerConversion.InType (c : IntegerConversion) (v : Int) : Prop :=
  if c.spec = .signed then -2 ^ (c.bits - 1) ≤ v ∧ v < 2 ^ (c.bits - 1) else 0 ≤ v ∧ v < 2 ^ c.bits

/-- How a value is passed: a short type is promoted to one of 32 bits. -/
def IntegerConversion.argument (c : IntegerConversion) (v : Int) : Arg :=
  if c.bits = 64 then .dword (UInt64.ofNat (v % 2 ^ 64).toNat)
  else .word (UInt32.ofNat (v % 2 ^ 32).toNat)

/-! ## The text of a value -/

/-- The base of a conversion. -/
def Specifier.base : Specifier → Nat
  | .octal => 8
  | .hex => 16
  | .upperHex => 16
  | .pointer => 16
  | .binary => 2
  | _ => 10

/-- The character of a digit. -/
def digitChar (upper : Bool) (d : Nat) : UInt8 :=
  UInt8.ofNat d + if d < 10 then 0x30 else if upper then 0x37 else 0x57

/-- The numeral of a number, without leading zeros. -/
def numeral (base : Nat) (upper : Bool) (n : Nat) : List UInt8 :=
  if n = 0 then [0x30] else ((Nat.digits base n).map (digitChar upper)).reverse

/-- What stands in front of the digits: a minus sign for a negative number, and what the flags ask
for. -/
def IntegerConversion.front (c : IntegerConversion) (v : Int) : List UInt8 :=
  match c.spec with
  | .signed => signOf c.kept.alwaysSigned v
  | .unsigned => plusOf c.kept.alwaysSigned
  | .pointer => if c.kept.altForm then [] else [0x30, 0x78]
  | spec => if c.kept.altForm then (unsignedStyle .int spec).1 else []

/-- The text is the numeral of the value, behind leading zeros and what stands in front. -/
def IntegerConversion.Represents (c : IntegerConversion) (v : Int) (text : List UInt8) : Prop :=
  ∃ zeros, text = c.front v ++ (List.replicate zeros 0x30 ++
    numeral c.spec.base (c.spec = .upperHex) v.natAbs)

/-! ## When it is printed -/

/-- The modifier is that of a type with 64 bits. -/
def Modifier.wide : Modifier → Bool
  | .ll => true
  | .j => true
  | _ => false

/-- The length modifier in force takes an argument with 64 bits. -/
def Length.wide : Length → Bool
  | .longLong => true
  | .intmax => true
  | _ => false

/-- The signed values that come out of sixteen decimal places as they went in. -/
def Length.ReadsSigned (length : Length) (v : Int) : Prop :=
  match length with
  | .char => -2 ^ 7 ≤ v ∧ v < 2 ^ 7
  | .short => -2 ^ 15 ≤ v ∧ v < 2 ^ 15
  -- `std::abs` has no result for the least number
  | .int => v ≠ -2 ^ 31
  | .long => v ≠ -2 ^ 31
  | .ptrdiff => v ≠ -2 ^ 31
  -- taken for an unsigned number
  | .size => 0 ≤ v
  | .longLong => -10 ^ 16 < v ∧ v < 10 ^ 16
  -- without `std::abs` the digits are those of the complement, which has these two fixed points
  | .intmax => 0 ≤ v ∧ v < 10 ^ 16 ∨ v = -3372036854775808 ∨ v = -8372036854775808
  | .longDouble => False

/-- The unsigned values that come out of sixteen places as they went in. -/
def Length.ReadsUnsigned (length : Length) (spec : Specifier) (v : Int) : Prop :=
  v < spec.base ^ 16 ∧
    match length with
    | .char => v < 2 ^ 8
    | .short => v < 2 ^ 16
    -- taken for a signed number
    | .ptrdiff => v < 2 ^ 31
    -- with letters of the wrong case
    | .intmax => spec = .hex → ∀ d ∈ Nat.digits 16 v.natAbs, d < 10
    | .longDouble => False
    | _ => True

/-- The conversion prints a value as it should, behind conversions that left a length modifier:
`isdigit` knows the digits of its width, the modifier in force takes an argument of the right size,
and it reads the value back. -/
def IntegerConversion.Exact (c : IntegerConversion) (carried : Length) (v : Int) : Prop :=
  (∀ d ∈ c.digits, isdigit d) ∧
    (c.spec = .pointer ∨
      (c.modifier.inForce carried).wide = c.modifier.wide ∧
        if c.spec = .signed then (c.modifier.inForce carried).ReadsSigned v
        else (c.modifier.inForce carried).ReadsUnsigned c.spec v)

/-- The blanks in front of the number. -/
def IntegerConversion.blanks (c : IntegerConversion) (s : State) : Nat :=
  if 16 < c.digits.foldl widen s.minWidth then c.digits.foldl widen s.minWidth - 16 else 0

/-- So many characters fit into what is left up to `INT_MAX`, as an unsigned number. -/
def State.HasRoom (s : State) (amount : Nat) : Prop :=
  (amount : Int) ≤ ((intMax : Int) - s.written) % (wordLimit : Int)

/-- A pass over the conversion prints the value and takes the argument. -/
def IntegerConversion.Prints (c : IntegerConversion) (signedChar : Bool) (format : CString)
    (pos : Nat) (s : State) (v : Int) (later : List Arg) : Prop :=
  ∃ text after, c.Represents v text ∧
    pass signedChar format pos s = .ok (.next (pos + c.chars.length) after) ∧
    after.emitted = s.emitted ++ (List.replicate (c.blanks s) 0x20 ++ text) ∧
    after.parameters = later

end FelineOS.Printf
