import FelineOS.Libc.Printf
import FelineOS.Libc.Strtoul

/-!
# Functions on strings

`strlen`, `strcmp`, `strstr`, `strlcpy` and `strlcat` of `libc/string`. A string is in an array that
may go on behind its NUL, a pointer into an array is the number of characters in front of it, and an
access behind the array is undefined.
-/

namespace FelineOS.Strings

open Printf (CString)
open Strtoul (read charLess strncmp)

/-- The array of a string with something behind its NUL. -/
def array (s : CString) (behind : List UInt8) : List UInt8 := s.chars ++ 0 :: behind

/-- The loop of `strlen`, on the rest of an array. -/
def strlenFrom : List UInt8 → Nat → Except Fault Nat
  | [], _ => .error .undefined
  | c :: rest, len => if c = 0 then .ok len else strlenFrom rest (len + 1)

/-- `strlen`. -/
def strlen (str : List UInt8) : Except Fault Nat := strlenFrom str 0

/-! ## Comparing -/

/-- The loop of `strcmp` from an index on. -/
def strcmpFrom (signedChar : Bool) (lhs rhs : List UInt8) : Nat → Nat → Except Fault Int
  | 0, _ => .ok 0
  | remaining + 1, i => do
    let l ← read lhs i
    let r ← read rhs i
    if charLess signedChar l r then .ok (-1)
    else if charLess signedChar r l then .ok 1
    else if r = 0 then .ok 0
    else strcmpFrom signedChar lhs rhs remaining (i + 1)

/-- `std::numeric_limits<size_t>::max()`. -/
def sizeMax : Nat := 0xFFFFFFFF

/-- `strcmp`. -/
def strcmp (signedChar : Bool) (lhs rhs : List UInt8) : Except Fault Int :=
  strcmpFrom signedChar lhs rhs sizeMax 0

/-! ## Searching -/

/-- The loop of `strstr`. -/
def strstrLoop (signedChar : Bool) (array needle : List UInt8) (needleLen : Nat) :
    Nat → Nat → Except Fault (Option Nat)
  | 0, _ => .error .divergence
  | fuel + 1, haystack => do
    let c ← read array haystack
    if c ≠ 0 then do
      let order ← strncmp signedChar (fun i => read array (haystack + i)) (read needle) needleLen 0
      if order = 0 then return some haystack
      -- the pointer is not advanced
      else strstrLoop signedChar array needle needleLen fuel haystack
    else return none

/-- `strstr`; nothing stands for `nullptr`. -/
def strstr (signedChar : Bool) (fuel : Nat) (haystack needle : Option (List UInt8)) :
    Except Fault (Option Nat) :=
  match needle with
  | none => .ok (haystack.map fun _ => 0)
  | some needle => do
    let c ← read needle 0
    if c = 0 then return haystack.map fun _ => 0
    else
      match haystack with
      | none => return none
      | some haystack => do
        let needleLen ← strlen needle
        strstrLoop signedChar haystack needle needleLen fuel 0

/-! ## Copying -/

/-- A character of an array is assigned to. -/
def put (dest : List UInt8) (i : Nat) (c : UInt8) : Except Fault (List UInt8) :=
  if i < dest.length then .ok (dest.set i c) else .error .undefined

/-- The loop of `strlcpy` and `strlcat`: characters are copied to a place in `dest`, up to a number
of them or to a NUL, whose index is returned then. -/
def copyFrom (src : List UInt8) (place : Nat) :
    Nat → Nat → List UInt8 → Except Fault (List UInt8 × Option Nat)
  | 0, _, dest => .ok (dest, none)
  | remaining + 1, count, dest => do
    let c ← read src count
    let dest ← put dest (place + count) c
    if c = 0 then return (dest, some count)
    else copyFrom src place remaining (count + 1) dest

/-- `strlcpy`: what is in `dest` after it and the returned value. -/
def strlcpy (dest src : List UInt8) (n : Nat) : Except Fault (List UInt8 × Nat) := do
  let (dest, nul) ← copyFrom src 0 n 0 dest
  match nul with
  | some count => return (dest, count)
  | none => do
    let length ← strlen src
    return (dest, length)

/-- `strlcat`. -/
def strlcat (dest src : List UInt8) (n : Nat) : Except Fault (List UInt8 × Nat) := do
  let length ← strlen dest
  let max := wrapSub (wrapSub n length) 1
  let (dest, nul) ← copyFrom src length max 0 dest
  match nul with
  | some count => return (dest, length + count)
  | none => return (dest, max)

end FelineOS.Strings
