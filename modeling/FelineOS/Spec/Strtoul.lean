import FelineOS.Libc.Strtoul
import Mathlib.Data.Nat.Digits.Defs

/-!
# What the conversion of text should come to

The form of a number: white space, a sign, the prefix of a base and digits. A string has a number if
it starts with this form, and then the longest start of this form is what is converted; that value is
the largest `unsigned long` if it does not fit. And the strings for which `strtoul` comes to this.
-/

namespace FelineOS.Strtoul

/-- The string in an array. -/
def text (chars : List UInt8) : List UInt8 := chars.takeWhile (· ≠ 0)

/-- The base of the digits behind the prefix of a number, as an integer constant has it for base
zero. -/
inductive Numeral (base : Nat) : List UInt8 → Nat → List UInt8 → Prop where
  /-- `0x` or `0X`. -/
  | hexadecimal (allowed : base = 0 ∨ base = 16) {x : UInt8} (letter : x = 0x78 ∨ x = 0x58)
      (digits : List UInt8) : Numeral base [0x30, x] 16 digits
  /-- `0b` or `0B`. -/
  | binary (allowed : base = 0 ∨ base = 2) {b : UInt8} (letter : b = 0x62 ∨ b = 0x42)
      (digits : List UInt8) : Numeral base [0x30, b] 2 digits
  /-- A constant that starts with a zero. -/
  | octal (allowed : base = 0) (digits : List UInt8) (zero : digits.head? = some 0x30) :
      Numeral base [] 8 digits
  /-- Any other constant. -/
  | decimal (allowed : base = 0) (digits : List UInt8) (other : digits.head? ≠ some 0x30) :
      Numeral base [] 10 digits
  /-- The digits of the base. -/
  | plain (allowed : base ≠ 0) (digits : List UInt8) : Numeral base [] base digits

/-- A sign, and whether it is that of a negative number. -/
inductive Sign : List UInt8 → Bool → Prop where
  /-- No sign. -/
  | absent : Sign [] false
  /-- `+`. -/
  | plus : Sign [0x2B] false
  /-- `-`. -/
  | minus : Sign [0x2D] true

/-- A subject has the form of a number. -/
structure Form (base : Nat) (subject : List UInt8) (negative : Bool) (b : Nat)
    (digits : List UInt8) : Prop where
  /-- The parts of it. -/
  parts : ∃ blanks sign front, subject = blanks ++ (sign ++ (front ++ digits)) ∧
    (∀ c ∈ blanks, isspace c) ∧ Sign sign negative ∧ Numeral base front b digits
  /-- There is a digit. -/
  present : digits ≠ []
  /-- They are digits of the base. -/
  valid : ∀ c ∈ digits, digitToNum c < b

/-- A subject is the longest start of a string that has the form of a number. -/
structure Longest (base : Nat) (string subject : List UInt8) (negative : Bool) (b : Nat)
    (digits : List UInt8) : Prop where
  /-- It has the form. -/
  form : Form base subject negative b digits
  /-- It is a start of the string. -/
  start : subject <+: string
  /-- No other one is longer. -/
  longest : ∀ {other : List UInt8} {sign : Bool} {c : Nat} {others : List UInt8},
    Form base other sign c others → other <+: string → other.length ≤ subject.length

/-- The value of digits. -/
def magnitude (b : Nat) (digits : List UInt8) : Nat :=
  Nat.ofDigits b (digits.map digitToNum).reverse

/-- The value that a number is converted to: the largest `unsigned long` if it does not fit, and its
negation modulo `2 ^ 32` behind a minus. -/
def converted (negative : Bool) (n : Nat) : Nat :=
  if wordLimit ≤ n then uintptrMax else if negative then wrapSub 0 n else n

/-- A result is what the standard asks for: the value of the longest start that has the form of a
number, with the end behind it, or zero and the start of the string if there is none. Only a value
that does not fit sets `errno` to `ERANGE`. -/
def Parses (base : Nat) (string : List UInt8) (result : Result) : Prop :=
  (∃ subject negative b digits, Longest base string subject negative b digits ∧
    result.value = converted negative (magnitude b digits) ∧
    result.endptr = some subject.length ∧
    (result.errno = some .range ↔ wordLimit ≤ magnitude b digits)) ∨
  ((∀ subject negative b digits, Form base subject negative b digits → ¬subject <+: string) ∧
    result.value = 0 ∧ result.endptr = some 0 ∧ result.errno ≠ some .range)

/-! ## When `strtoul` does so -/

/-- What is behind the white space. -/
def behindSpaces (chars : List UInt8) : List UInt8 := chars.dropWhile isspace

/-- What is behind a sign. -/
def behindSign : List UInt8 → List UInt8
  | [] => []
  | c :: rest => if c = 0x2B ∨ c = 0x2D then rest else c :: rest

/-- No digit follows the white space and a sign, for base zero no decimal one. -/
def NoNumber (base : Nat) (chars : List UInt8) : Prop :=
  ∀ c, (behindSign (behindSpaces chars)).head? = some c →
    (if base = 0 then 10 else base) ≤ digitToNum c

/-- The place of the only character, behind the white space, that is ever read as a digit. -/
def place (base : Nat) (chars : List UInt8) : Nat :=
  if base = 0 ∨ base = 16 ∨ base = 2 then 3
  else if base = 8 ∧ (behindSpaces chars)[1]? ≠ some 0x30 then 2
  else 1

/-- There is no number in the string, and none at that place either, which is in the array. -/
def Ignored (base : Nat) (chars : List UInt8) : Prop :=
  NoNumber base chars ∧ ∃ c, (behindSpaces chars)[place base chars]? = some c ∧
    (if base = 0 then 16 else base) ≤ digitToNum c

end FelineOS.Strtoul
