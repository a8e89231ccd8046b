import FelineOS.Kernel.Word

/-!
# The conversion of text to numbers

`strtoul` of `libc/stdlib/strto.cpp`, with `strncmp` of `libc/string/strcmp.cpp` and `isspace` of
`libc/ctype/isspace.cpp`. A pointer into the array that holds the string is the number of
characters in front of it, and a read behind the array is undefined. The array may go on behind the
NUL. An `unsigned long` has 32 bits, and the base is not negative.
-/

namespace FelineOS.Strtoul

/-- An array of characters with a NUL in it. -/
structure CharArray where
  /-- The characters. -/
  chars : List UInt8
  /-- The string in it is terminated. -/
  terminated : 0 ∈ chars
  deriving DecidableEq

/-- The values of `errno` that `strtoul` sets. -/
inductive Errno where
  /-- `EINVAL`. -/
  | invalid
  /-- `ERANGE`. -/
  | range
  deriving DecidableEq, Repr

/-- What a call comes to. -/
structure Result where
  /-- The returned value. -/
  value : Nat
  /-- What is written to `*endptr`, if it is. -/
  endptr : Option Nat
  /-- What `errno` is set to, if it is. -/
  errno : Option Errno
  deriving DecidableEq, Repr

/-- The character that a pointer points to. -/
def read (chars : List UInt8) (pointer : Nat) : Except Fault UInt8 :=
  match chars[pointer]? with
  | some c => .ok c
  | none => .error .undefined

/-- `isspace` in the "C" locale. -/
def isspace (c : UInt8) : Bool :=
  match c with
  | 0x20 | 0x0C | 0x0A | 0x0D | 0x09 | 0x0B => true
  | _ => false

/-- `<` of two characters; a `char` of the i386 is signed. -/
def charLess (signedChar : Bool) (lhs rhs : UInt8) : Bool :=
  if signedChar then lhs.toInt8 < rhs.toInt8 else lhs < rhs

/-- The loop of `strncmp` from an index on. It does not stop at the end of a string. -/
def strncmp (signedChar : Bool) (lhs rhs : Nat → Except Fault UInt8) :
    Nat → Nat → Except Fault Int
  | 0, _ => .ok 0
  | remaining + 1, i => do
    let l ← lhs i
    let r ← rhs i
    if charLess signedChar l r then .ok (-1)
    else if charLess signedChar r l then .ok 1
    else strncmp signedChar lhs rhs remaining (i + 1)

/-- `digit_to_num`; a negative `char` is none of the digits either. -/
def digitToNum (digit : UInt8) : Nat :=
  if 0x30 ≤ digit ∧ digit ≤ 0x39 then digit.toNat - 0x30
  else if 0x61 ≤ digit ∧ digit ≤ 0x7A then digit.toNat - 0x61 + 10
  else if 0x41 ≤ digit ∧ digit ≤ 0x5A then digit.toNat - 0x41 + 10
  else 36

/-- The loop over white space, on the rest of the array behind a pointer. -/
def skipSpaces : List UInt8 → Nat → Except Fault Nat
  | [], _ => .error .undefined
  | c :: rest, nptr => if isspace c then skipSpaces rest (nptr + 1) else .ok nptr

section Pointer

variable (signedChar : Bool) (chars : List UInt8)

/-- `std::strncmp(nptr, literal, size)`, of a literal that ends with a NUL. -/
def compare (nptr : Nat) (literal : List UInt8) (size : Nat) : Except Fault Int :=
  strncmp signedChar (fun i => read chars (nptr + i)) (read (literal ++ [0])) size 0

/-- `std::strncmp(literal, nptr, size)`. -/
def compareTo (literal : List UInt8) (nptr : Nat) (size : Nat) : Except Fault Int :=
  strncmp signedChar (read (literal ++ [0])) (fun i => read chars (nptr + i)) size 0

/-- The sign: whether the number is negative, and the pointer behind it. -/
def skipSign (nptr : Nat) : Except Fault (Bool × Nat) := do
  if (← compare signedChar chars nptr [0x2D] 1) ≠ 0 then .ok (true, nptr + 1)
  else if (← compare signedChar chars nptr [0x2B] 1) ≠ 0 then .ok (false, nptr + 1)
  else .ok (false, nptr)

/-- `strncmp(nptr, lower, 2) || strncmp(upper, nptr, 2)`. -/
def eitherDiffers (lower upper : List UInt8) (nptr : Nat) : Except Fault Bool := do
  if (← compare signedChar chars nptr lower 2) ≠ 0 then .ok true
  else
    let right ← compareTo signedChar chars upper nptr 2
    return right ≠ 0

/-- The prefix of a hexadecimal number: the pointer behind it, and the base. -/
def skipHexadecimal (nptr base : Nat) : Except Fault (Nat × Nat) :=
  if base = 16 ∨ base = 0 then do
    if ← eitherDiffers signedChar chars [0x30, 0x78] [0x30, 0x58] nptr then .ok (nptr + 2, 16)
    else .ok (nptr, base)
  else .ok (nptr, base)

/-- The prefix of a binary number. -/
def skipBinary (nptr base : Nat) : Except Fault (Nat × Nat) :=
  if base = 2 ∨ base = 0 then do
    if ← eitherDiffers signedChar chars [0x30, 0x62] [0x30, 0x42] nptr then .ok (nptr + 2, 2)
    else .ok (nptr, base)
  else .ok (nptr, base)

/-- The prefix of an octal number. -/
def skipOctal (nptr base : Nat) : Except Fault (Nat × Nat) :=
  if base = 8 ∨ base = 0 then do
    if (← compare signedChar chars nptr [0x30] 1) ≠ 0 then .ok (nptr + 1, 8)
    else .ok (nptr, base)
  else .ok (nptr, base)

/-- The prefix that the base allows. -/
def skipPrefix (nptr base : Nat) : Except Fault (Nat × Nat) := do
  let (nptr, base) ← skipHexadecimal signedChar chars nptr base
  let (nptr, base) ← skipBinary signedChar chars nptr base
  skipOctal signedChar chars nptr base

/-- The loop over the digits: the pointer behind them and their value, or nothing if it overflows.
The pointer stays where it is. -/
def convert (base : Nat) : Nat → Nat → Nat → Except Fault (Option (Nat × Nat))
  | 0, _, _ => .error .divergence
  | fuel + 1, nptr, result => do
    let digit ← read chars nptr
    if digitToNum digit < base then
      if wordLimit ≤ result * base then .ok none
      else if wordLimit ≤ result * base + digitToNum digit then .ok none
      else convert base fuel nptr (result * base + digitToNum digit)
    else .ok (some (nptr, result))

end Pointer

/-- What `strtoul` returns behind its loop; `endptr` says whether the pointer for the end is not
null. -/
def answer (errno : Option Errno) (endptr negative : Bool) (beginingOfDigits : Nat) :
    Option (Nat × Nat) → Except Fault Result
  | none => .ok ⟨0, none, some .range⟩
  | some (nptr, result) =>
    if nptr = beginingOfDigits then .ok ⟨0, if endptr then some 0 else none, some .invalid⟩
    else .ok ⟨if negative then wrapSub 0 result else result,
      if endptr then some nptr else none, errno⟩

/-- `strtoul`. -/
def strtoul (signedChar : Bool) (fuel : Nat) (chars : List UInt8) (endptr : Bool) (base : Nat) :
    Except Fault Result := do
  let errno := if base = 1 ∨ 36 < base then some Errno.invalid else none
  let nptr ← skipSpaces chars 0
  let (negative, nptr) ← skipSign signedChar chars nptr
  let (nptr, base) ← skipPrefix signedChar chars nptr base
  let outcome ← convert chars base fuel nptr 0
  answer errno endptr negative nptr outcome

end FelineOS.Strtoul
