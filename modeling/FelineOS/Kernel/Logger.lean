import FelineOS.Kernel.KVector

/-!
# Text of the logger

The number formatting of `libFeline/src/string/itostr.cpp` and `strDebug` of
`libFeline/src/logging/logger.cpp`. A `KString` is a vector of bytes, and every allocation for it
can abort for want of memory. The strings are in memory together with what is made of them, so that
the sizes of two of them add up to a `size_t`; the number of copies of one character is any
`size_t`. A division by zero is undefined.
-/

namespace FelineOS

namespace KVector

variable {α : Type}

/-- `append(item, count)` for elements that a move leaves as they are. -/
def appendCopies (v : KVector α) (malloc : Nat → Bool) (sizeofT : Nat) (item : α) (count : Nat) :
    Except Fault (KVector α) := do
  let ⟨w, _⟩ ← v.reserve malloc sizeofT (wrap (v.items.length + count))
  if room : (w.items ++ List.replicate count item).length ≤ w.capacity then
    return ⟨w.items ++ List.replicate count item, w.capacity, room⟩
  else .error .undefined

/-- `append(other)`: each element of another vector is copied behind the last one. -/
def append (v : KVector α) (malloc : Nat → Bool) (sizeofT : Nat) (other : List α) :
    Except Fault (KVector α) := do
  let ⟨w, kept, room⟩ ← v.reserve malloc sizeofT (v.items.length + other.length)
  return ⟨w.items ++ other, w.capacity, by simpa [kept] using room⟩

end KVector

namespace Logger

/-! ## Numbers -/

/-- The loop of `ntostr` over the powers `n` of the base up to the number. -/
def strLen (num base : Nat) : Nat → Nat → Nat → Except Fault Nat
  | 0, _, _ => .error .divergence
  | fuel + 1, n, len =>
    if n ≤ num then strLen num base fuel (n * base % 2 ^ 64) (wrap (len + 1)) else .ok len

/-- The loop of `ntostr` over the places in front of an offset, from the last one on. -/
def putDigits (num base : Nat) : Nat → Nat → KVector UInt8 → Except Fault (KVector UInt8)
  | 0, _, str => .ok str
  | offset + 1, todivby, str =>
    if todivby = 0 then .error .undefined
    else if str.items.length ≤ offset then .error .abort
    else putDigits num base offset (todivby * base % 2 ^ 64)
      (str.modify offset fun _ => UInt8.ofNat (num / todivby % base) + 0x30)

/-- `ntostr` into a string. -/
def ntostr (malloc : Nat → Bool) (fuel num base minWidth : Nat) :
    Except Fault (KVector UInt8) := do
  let ⟨str, _⟩ ← KVector.empty.reserve malloc 1 minWidth
  if base < 2 ∨ 16 < base then return str
  else if num = 0 then str.appendCopies malloc 1 0x30 minWidth
  else do
    let len ← strLen num base fuel 1 0
    let len := if len < minWidth then minWidth else len
    let str ← str.appendCopies malloc 1 0 len
    putDigits num base len 1 str

/-- `xtostr` into a string: its loop shifts what is behind `'9'` to letters. -/
def xtostr (malloc : Nat → Bool) (fuel num : Nat) (upper : Bool) (minWidth : Nat) :
    Except Fault (List UInt8) := do
  let str ← ntostr malloc fuel num 16 minWidth
  return str.items.map fun c => if 0x39 < c then c + (if upper then 7 else 39) else c

/-- `dec`. -/
def dec (malloc : Nat → Bool) (fuel n minWidth : Nat) : Except Fault (List UInt8) := do
  let str ← ntostr malloc fuel n 10 minWidth
  return str.items

/-! ## Strings -/

/-- `PTRDIFF_MAX`. -/
def ptrdiffMax : Nat := 0x7FFFFFFF

/-- `KStringView`. -/
structure KStringView where
  /-- The characters. -/
  chars : List UInt8
  /-- An object is no larger than `PTRDIFF_MAX`. -/
  object : chars.length ≤ ptrdiffMax
  deriving DecidableEq

/-- `isprint`; a `char` that is negative is no more printable than one behind `'~'`. -/
def isprint (c : UInt8) : Bool := 0x20 ≤ c && c ≤ 0x7E

/-- A `char` as `unsigned long long`; a `char` of the i386 is signed. -/
def widened (signedChar : Bool) (c : UInt8) : Nat :=
  if signedChar && 0x80 ≤ c then 2 ^ 64 - 256 + c.toNat else c.toNat

/-- What `strDebug` appends to `safe_str` for a character. -/
def appendSafe (malloc : Nat → Bool) (fuel : Nat) (signedChar : Bool) (safeStr : KVector UInt8)
    (c : UInt8) : Except Fault (KVector UInt8) :=
  if isprint c then safeStr.appendCopies malloc 1 c 1
  else match c with
    -- `\0`
    | 0x00 => safeStr.append malloc 1 [0x5C, 0x30]
    -- `\t`
    | 0x09 => safeStr.append malloc 1 [0x5C, 0x74]
    -- `\r`
    | 0x0D => safeStr.append malloc 1 [0x5C, 0x72]
    -- `\n`
    | 0x0A => safeStr.append malloc 1 [0x5C, 0x6E]
    -- `\e`
    | 0x1B => safeStr.append malloc 1 [0x5C, 0x65]
    | c => do
      -- `\x`
      let safeStr ← safeStr.append malloc 1 [0x5C, 0x78]
      let number ← xtostr malloc fuel (widened signedChar c) false 1
      safeStr.append malloc 1 number

/-- `strDebug`. -/
def strDebug (malloc : Nat → Bool) (fuel : Nat) (signedChar : Bool) (str : KStringView) :
    Except Fault (KVector UInt8) := do
  -- `[len=`
  let output ← KVector.empty.append malloc 1 [0x5B, 0x6C, 0x65, 0x6E, 0x3D]
  let number ← dec malloc fuel str.chars.length 1
  let output ← output.append malloc 1 number
  -- `,characters="`
  let output ← output.append malloc 1
    [0x2C, 0x63, 0x68, 0x61, 0x72, 0x61, 0x63, 0x74, 0x65, 0x72, 0x73, 0x3D, 0x22]
  let ⟨safeStr, _⟩ ← KVector.empty.reserve malloc 1 str.chars.length
  let safeStr ← str.chars.foldlM (appendSafe malloc fuel signedChar) safeStr
  -- the copy that `append` takes
  allocate malloc 1 safeStr.items.length
  let output ← output.append malloc 1 safeStr.items
  -- `"]`
  output.append malloc 1 [0x22, 0x5D]

end Logger

end FelineOS
