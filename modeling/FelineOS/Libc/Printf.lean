import FelineOS.Kernel.Word

/-!
# Formatted output

`vprintf` of `libc/stdio/printf.cpp` with the number routines of `libFeline` that it calls. The
format and the strings are bytes before a terminating NUL, and a pointer into the format is the
number of bytes in front of it; a read behind the NUL or in front of the first byte is a fault.
The arguments are what `va_arg` would have to be asked for, on targets with 32-bit `long`,
`size_t` and pointers. Everything that `vprintf` declares outside its loop lives on from one
conversion to the next.
-/

namespace FelineOS.Printf

/-- How `vprintf` can fail to return. -/
inductive Fault where
  /-- The format is read outside its bytes and the terminating NUL. -/
  | formatRead
  /-- Something is written outside `intStrBuf`. -/
  | bufferWrite
  /-- `strlen` runs out of `intStrBuf`. -/
  | bufferRead
  /-- `va_arg` is asked for another type than that of the argument. -/
  | argument
  /-- A loop never ends. -/
  | divergence
  deriving DecidableEq, Repr

/-- A NUL-terminated string. -/
structure CString where
  /-- The bytes before the NUL. -/
  chars : List UInt8
  /-- The NUL ends it. -/
  noNul : 0 ∉ chars
  /-- An object is no larger than `PTRDIFF_MAX`. -/
  object : chars.length < 0x7FFFFFFF
  deriving DecidableEq, Repr

/-- An argument behind the format. -/
inductive Arg where
  /-- An `int`, `long`, `size_t`, `ptrdiff_t` or `void *`. -/
  | word (bits : UInt32)
  /-- A `long long` or `intmax_t`. -/
  | dword (bits : UInt64)
  /-- A `char *`. -/
  | string (text : CString)
  deriving DecidableEq, Repr

/-- The values that the variable `length` is compared with. -/
inductive Length where
  /-- NUL. -/
  | int
  /-- `H`. -/
  | char
  /-- `h`, which is never assigned. -/
  | short
  /-- `l`, which is never assigned. -/
  | long
  /-- `q`. -/
  | longLong
  /-- `L`. -/
  | longDouble
  /-- `j`. -/
  | intmax
  /-- `z`. -/
  | size
  /-- `t`. -/
  | ptrdiff
  deriving DecidableEq, Repr

/-- `INT_MAX`. -/
def intMax : Nat := 0x7FFFFFFF

/-- The variables of `vprintf`, the rest of `parameters` and what has been emitted. -/
structure State where
  /-- `parameters`. -/
  parameters : List Arg
  /-- `intStrBuf`. -/
  intStrBuf : List UInt8
  /-- `written`. -/
  written : Nat
  /-- `min_width`. -/
  minWidth : Nat
  /-- `width`. -/
  width : Nat
  /-- `length`. -/
  length : Length
  /-- The characters given to `__internal_putchar` and `__internal_writeStr`. -/
  emitted : List UInt8
  deriving DecidableEq, Repr

/-! ## Arguments -/

/-- `va_arg` with a 32-bit type. -/
def nextWord : List Arg → Except Fault (UInt32 × List Arg)
  | .word bits :: rest => .ok (bits, rest)
  | _ => .error .argument

/-- `va_arg` with a 64-bit type. -/
def nextDword : List Arg → Except Fault (UInt64 × List Arg)
  | .dword bits :: rest => .ok (bits, rest)
  | _ => .error .argument

/-- `va_arg` with `char *`. -/
def nextString : List Arg → Except Fault (CString × List Arg)
  | .string text :: rest => .ok (text, rest)
  | _ => .error .argument

/-- A cast to a signed type with that many bits. -/
def toSigned (bits n : Nat) : Int := (n : Int).bmod (2 ^ bits)

/-- A cast to `unsigned long long`. -/
def toUnsigned (n : Int) : Nat := (n % 2 ^ 64).toNat

/-- `std::abs` of a signed type with that many bits. -/
def abs (bits : Nat) (n : Int) : Int := if 0 < n then n else (-n).bmod (2 ^ bits)

/-- The sign that a conversion of a signed number starts with. -/
def signOf (alwaysSigned : Bool) (num : Int) : List UInt8 :=
  if num < 0 then [0x2D] else if alwaysSigned then [0x2B] else []

/-- The sign of a conversion that takes its number for an unsigned one. -/
def plusOf (alwaysSigned : Bool) : List UInt8 := if alwaysSigned then [0x2B] else []

/-- The sign of a signed number and what is given to `itostr`. -/
def signedOf (alwaysSigned : Bool) (bits : Nat) (num : Int) : List UInt8 × Nat :=
  (signOf alwaysSigned num, toUnsigned (abs bits num))

/-- The same without the call of `std::abs`. -/
def intmaxOf (alwaysSigned : Bool) (num : Int) : List UInt8 × Nat :=
  (signOf alwaysSigned num, toUnsigned num)

/-- A case that takes a 32-bit argument. -/
def wordCase {β : Type} (result : UInt32 → β) (parameters : List Arg) :
    Except Fault (Option β × List Arg) := do
  let (arg, rest) ← nextWord parameters
  return (some (result arg), rest)

/-- A case that takes a 64-bit argument. -/
def dwordCase {β : Type} (result : UInt64 → β) (parameters : List Arg) :
    Except Fault (Option β × List Arg) := do
  let (arg, rest) ← nextDword parameters
  return (some (result arg), rest)

/-- The argument of `d` and `i`: its sign and the number given to `itostr`. -/
def signedNumber (length : Length) (alwaysSigned : Bool) (parameters : List Arg) :
    Except Fault (Option (List UInt8 × Nat) × List Arg) :=
  match length with
  | .char => wordCase (fun arg => signedOf alwaysSigned 32 (toSigned 8 arg.toNat)) parameters
  | .short => wordCase (fun arg => signedOf alwaysSigned 32 (toSigned 16 arg.toNat)) parameters
  | .int => wordCase (fun arg => signedOf alwaysSigned 32 (toSigned 32 arg.toNat)) parameters
  | .long => wordCase (fun arg => signedOf alwaysSigned 32 (toSigned 32 arg.toNat)) parameters
  | .longLong => dwordCase (fun arg => signedOf alwaysSigned 64 (toSigned 64 arg.toNat)) parameters
  | .size => wordCase (fun arg => (plusOf alwaysSigned, arg.toNat)) parameters
  | .ptrdiff => wordCase (fun arg => signedOf alwaysSigned 32 (toSigned 32 arg.toNat)) parameters
  | .intmax => dwordCase (fun arg => intmaxOf alwaysSigned (toSigned 64 arg.toNat)) parameters
  | .longDouble => .ok (none, parameters)

/-- The argument of `o`, `u`, `x`, `X` and `b`, as it is given to the number routine. -/
def unsignedNumber (length : Length) (parameters : List Arg) :
    Except Fault (Option Nat × List Arg) :=
  match length with
  | .char => wordCase (fun arg => arg.toNat % 2 ^ 8) parameters
  | .short => wordCase (fun arg => arg.toNat % 2 ^ 16) parameters
  | .int => wordCase UInt32.toNat parameters
  | .long => wordCase UInt32.toNat parameters
  | .longLong => dwordCase UInt64.toNat parameters
  | .size => wordCase UInt32.toNat parameters
  -- a signed type, which the number routine takes as `unsigned long long`
  | .ptrdiff => wordCase (fun arg => toUnsigned (toSigned 32 arg.toNat)) parameters
  | .intmax => dwordCase UInt64.toNat parameters
  | .longDouble => .ok (none, parameters)

/-! ## The conversion buffer -/

/-- Bytes written from a place of the buffer on. -/
def write (buf : List UInt8) (start : Nat) (bytes : List UInt8) : Except Fault (List UInt8) :=
  if start + bytes.length ≤ buf.length then
    .ok (buf.take start ++ bytes ++ buf.drop (start + bytes.length))
  else .error .bufferWrite

/-- The bytes from a place of the buffer up to the next NUL. -/
def textAt (buf : List UInt8) (start : Nat) : List UInt8 := (buf.drop start).takeWhile (· != 0)

/-- `strlen` of a place in the buffer. -/
def strlen (buf : List UInt8) (start : Nat) : Except Fault Nat :=
  if start + (textAt buf start).length < buf.length then .ok (textAt buf start).length
  else .error .bufferRead

/-- The loop of `ntostr` over the places in front of the one that `todivby` is for. -/
def digits (num base : Nat) : Nat → Nat → List UInt8
  | 0, _ => []
  | count + 1, todivby =>
    digits num base count (todivby * base % 2 ^ 64) ++ [UInt8.ofNat (num / todivby % base) + 0x30]

/-- `ntostr` into the buffer, from a place on: sixteen digits and a NUL. -/
def ntostr (num : Nat) (buf : List UInt8) (start base : Nat) : Except Fault (List UInt8) :=
  if base < 2 ∨ 16 < base then .ok buf
  else write buf start (digits num base 16 1 ++ [0])

/-- Whether a character is behind `'9'`; a `char` of the i386 is signed. -/
def behindNine (signedChar : Bool) (c : UInt8) : Bool :=
  0x39 < c && (!signedChar || c < 0x80)

/-- The loop of `xtostr` over twenty places. -/
def shiftLetters (signedChar upper : Bool) (buf : List UInt8) (start : Nat) :
    Except Fault (List UInt8) :=
  let toLetter : UInt8 := if upper then 7 else 39
  write buf start (((buf.drop start).take 20).map fun c =>
    if behindNine signedChar c then c + toLetter else c)

/-- How the number routines are called. -/
structure Style where
  /-- The base. -/
  base : Nat
  /-- For `xtostr`, whether its letters are upper case. -/
  letters : Option Bool
  deriving DecidableEq, Repr

/-- A number routine. -/
def Style.print (signedChar : Bool) (style : Style) (num : Nat) (buf : List UInt8) (start : Nat) :
    Except Fault (List UInt8) := do
  let buf ← ntostr num buf start style.base
  match style.letters with
  | none => return buf
  | some upper => shiftLetters signedChar upper buf start

/-- What a conversion of a number does from `*bufPtr` on: the characters in front, the digits if
there is an argument, and `width`. -/
def putNumber (signedChar : Bool) (style : Style) (front : List UInt8) (number : Option Nat)
    (s : State) : Except Fault State := do
  let buf ← write s.intStrBuf 0 front
  let buf ← match number with
    | none => pure buf
    | some num => style.print signedChar num buf front.length
  let width ← strlen buf front.length
  return { s with intStrBuf := buf, width }

/-! ## Conversions -/

/-- The flags that are kept; `padded` and `left_justified` are never set. -/
structure Flags where
  /-- `alt_form`. -/
  altForm : Bool
  /-- `always_signed`. -/
  alwaysSigned : Bool
  deriving DecidableEq, Repr

/-- The conversion specifiers of the large `switch`. -/
inductive Specifier where
  /-- `c`. -/
  | character
  /-- `s`. -/
  | string
  /-- `d` and `i`. -/
  | signed
  /-- `o`. -/
  | octal
  /-- `u`. -/
  | unsigned
  /-- `x`. -/
  | hex
  /-- `X`. -/
  | upperHex
  /-- `b`. -/
  | binary
  /-- `p`. -/
  | pointer
  deriving DecidableEq, Repr

/-- The cases of the large `switch`. -/
def specifier : UInt8 → Option Specifier
  | 0x63 => some .character
  | 0x73 => some .string
  | 0x64 => some .signed
  | 0x69 => some .signed
  | 0x6F => some .octal
  | 0x75 => some .unsigned
  | 0x78 => some .hex
  | 0x58 => some .upperHex
  | 0x62 => some .binary
  | 0x70 => some .pointer
  | _ => none

/-- The conversions of unsigned numbers: what `alt_form` puts in front, and the number routine. -/
def unsignedStyle (length : Length) : Specifier → List UInt8 × Style
  | .octal => ([0x30], ⟨8, none⟩)
  -- `xtostr` is called without its last argument for an `intmax_t`
  | .hex => ([0x30, 0x78], ⟨16, some (length = .intmax)⟩)
  | .upperHex => ([0x30, 0x58], ⟨16, some true⟩)
  | .binary => ([0x30, 0x62], ⟨2, none⟩)
  | _ => ([], ⟨10, none⟩)

/-- The cases of the large `switch`, up to the padding. -/
def convert (signedChar : Bool) (flags : Flags) (spec : Specifier) (s : State) :
    Except Fault State :=
  match spec with
  | .character => do
    -- only the first byte of the buffer, without a NUL behind it
    let (arg, parameters) ← nextWord s.parameters
    let buf ← write s.intStrBuf 0 [arg.toUInt8]
    return { s with parameters, intStrBuf := buf }
  | .string => do
    let (text, parameters) ← nextString s.parameters
    let buf ← write s.intStrBuf 0 (text.chars ++ [0])
    return { s with parameters, intStrBuf := buf }
  | .signed => do
    let (number, parameters) ← signedNumber s.length flags.alwaysSigned s.parameters
    let front := (number.map Prod.fst).getD []
    putNumber signedChar ⟨10, none⟩ front (number.map Prod.snd) { s with parameters }
  | .unsigned => do
    let (number, parameters) ← unsignedNumber s.length s.parameters
    let front := if number.isSome then plusOf flags.alwaysSigned else []
    putNumber signedChar ⟨10, none⟩ front number { s with parameters }
  | .pointer => do
    let (arg, parameters) ← nextWord s.parameters
    let front := if flags.altForm then [] else [0x30, 0x78]
    putNumber signedChar ⟨16, some false⟩ front (some arg.toNat) { s with parameters }
  | .octal | .hex | .upperHex | .binary => do
    let (number, parameters) ← unsignedNumber s.length s.parameters
    let (alt, style) := unsignedStyle s.length spec
    let front := if flags.altForm then alt else []
    putNumber signedChar style front number { s with parameters }

/-- The padding and the output: the next state, or none when `vprintf` returns `-1`. -/
def finish (maxrem : Int) (s : State) : Except Fault (State × Bool) := do
  let padding := List.replicate (if s.width < s.minWidth then s.minWidth - s.width else 0) 0x20
  let s := { s with emitted := s.emitted ++ padding }
  let amount ← strlen s.intStrBuf 0
  if maxrem % (wordLimit : Int) < (amount : Int) then return (s, false)
  return ({ s with emitted := s.emitted ++ textAt s.intStrBuf 0,
                   written := s.written + amount }, true)

/-! ## The format -/

/-- `format[i]`. -/
def charAt (format : CString) (i : Nat) : Except Fault UInt8 :=
  match format.chars[i]? with
  | some c => .ok c
  | none => if i = format.chars.length then .ok 0 else .error .formatRead

/-- The number of characters before the next `%` or the end, counted from `amount` on. -/
def countText (format : CString) (pos : Nat) : Nat → Nat → Except Fault Nat
  | 0, _ => .error .divergence
  | fuel + 1, amount => do
    let c ← charAt format (pos + amount)
    if c ≠ 0 ∧ c ≠ 0x25 then countText format pos fuel (amount + 1) else return amount

/-- The characters that the loop over `count` gives to `putchar`. -/
def readText (format : CString) : Nat → Nat → Except Fault (List UInt8)
  | _, 0 => .ok []
  | pos, amount + 1 => do
    let c ← charAt format pos
    let rest ← readText format (pos + 1) amount
    return c :: rest

/-- The flags; `pos` is in front of the first one, and the result is in front of what follows. -/
def getFlags (format : CString) : Nat → Nat → Flags → Except Fault (Nat × Flags)
  | 0, _, _ => .error .divergence
  | fuel + 1, pos, flags => do
    match ← charAt format (pos + 1) with
    | 0x23 => getFlags format fuel (pos + 1) { flags with altForm := true }
    | 0x30 => getFlags format fuel (pos + 1) flags
    | 0x2D => getFlags format fuel (pos + 1) flags
    | 0x2B => getFlags format fuel (pos + 1) { flags with alwaysSigned := true }
    | _ => return (pos, flags)

/-- `isdigit`; neither bound is a digit. -/
def isdigit (c : UInt8) : Bool := 0x30 < c && c < 0x39

/-- The explicit width, on top of what `min_width` holds. -/
def getWidth (format : CString) : Nat → Nat → Nat → Except Fault (Nat × Nat)
  | 0, _, _ => .error .divergence
  | fuel + 1, pos, minWidth => do
    let c ← charAt format (pos + 1)
    if isdigit c then
      getWidth format fuel (pos + 1) (wrap (wrap (minWidth * 10) + (c.toNat - 0x30)))
    else return (pos, minWidth)

/-- The length modifier; a single `h` or `l` leaves `length` as it is. -/
def getLength (format : CString) (pos : Nat) (length : Length) : Except Fault (Nat × Length) := do
  match ← charAt format (pos + 1) with
  | 0x68 =>
    if (← charAt format (pos + 2)) = 0x68 then return (pos + 2, .char) else return (pos + 1, length)
  | 0x6C =>
    if (← charAt format (pos + 2)) = 0x6C then return (pos + 2, .longLong)
    else return (pos + 1, length)
  | 0x4C => return (pos + 1, .longDouble)
  | 0x6A => return (pos + 1, .intmax)
  | 0x7A => return (pos + 1, .size)
  | 0x74 => return (pos + 1, .ptrdiff)
  | _ => return (pos, .int)

/-- The way back to a `%`. -/
def rewind (format : CString) : Nat → Except Fault Nat
  | 0 => do if (← charAt format 0) = 0x25 then return 0 else .error .formatRead
  | pos + 1 => do
    if (← charAt format (pos + 1)) = 0x25 then return pos + 1 else rewind format pos

/-! ## The loop -/

/-- How a pass through the loop ends. -/
inductive Pass where
  /-- The next pass starts at this place. -/
  | next (pos : Nat) (s : State)
  /-- `vprintf` returns `-1`. -/
  | failed (s : State)
  deriving DecidableEq, Repr

/-- A pass over text; a `%%` has been reduced to its second character. -/
def passText (format : CString) (pos : Nat) (s : State) : Except Fault Pass := do
  let amount ← countText format pos (format.chars.length + 1) 1
  if (intMax : Int) - s.written < amount then return .failed s
  let text ← readText format pos amount
  return .next (pos + amount)
    { s with emitted := s.emitted ++ text, written := s.written + amount }

/-- A pass over a conversion that starts with the `%` at `pos`. -/
def passConversion (signedChar : Bool) (format : CString) (pos : Nat) (s : State) :
    Except Fault Pass := do
  let fuel := format.chars.length + 1
  let maxrem := (intMax : Int) - s.written
  let (pos, flags) ← getFlags format fuel pos ⟨false, false⟩
  let (pos, minWidth) ← getWidth format fuel pos s.minWidth
  let (pos, length) ← getLength format pos s.length
  let s := { s with minWidth, length }
  match specifier (← charAt format (pos + 1)) with
  | none => do
    let percent ← rewind format (pos + 1)
    return .next (percent + 1)
      { s with emitted := s.emitted ++ [0x25], written := s.written + 1 }
  | some spec => do
    let s ← convert signedChar flags spec s
    let (s, fits) ← finish maxrem s
    return if fits then .next (pos + 2) s else .failed s

/-- A pass through the loop. -/
def pass (signedChar : Bool) (format : CString) (pos : Nat) (s : State) : Except Fault Pass := do
  if (← charAt format pos) ≠ 0x25 then passText format pos s
  else if (← charAt format (pos + 1)) = 0x25 then passText format (pos + 1) s
  else passConversion signedChar format pos s

/-- The passes from a place on: the result of `vprintf` and the last state. -/
def passes (signedChar : Bool) (format : CString) : Nat → Nat → State → Except Fault (Int × State)
  | 0, _, _ => .error .divergence
  | fuel + 1, pos, s => do
    if (← charAt format pos) = 0 then return (s.written, s)
    else match ← pass signedChar format pos s with
      | .next pos s => passes signedChar format fuel pos s
      | .failed s => return (-1, s)

/-- The variables of `vprintf` before its loop. -/
def start (parameters : List Arg) : State where
  parameters := parameters
  intStrBuf := List.replicate 256 0
  written := 0
  minWidth := 0
  width := 0
  length := .int
  emitted := []

/-- `vprintf`: its result and the characters it emits. No pass is shorter than a character. -/
def vprintf (signedChar : Bool) (format : CString) (parameters : List Arg) :
    Except Fault (Int × List UInt8) := do
  let (result, s) ← passes signedChar format (format.chars.length + 1) 0 (start parameters)
  return (result, s.emitted)

end FelineOS.Printf
