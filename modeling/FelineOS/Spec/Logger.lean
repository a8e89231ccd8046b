import FelineOS.Kernel.Logger
import Mathlib.Data.List.Forall2
import Mathlib.Data.Nat.Digits.Lemmas

/-!
# What the logger should print

The canonical text of a number behind the zeros of a minimal width, and the powers of the base as an
`unsigned long long` holds them, which decide whether `ntostr` comes to it. And the text of a string
in which everything that is not printable is escaped.
-/

namespace FelineOS.Logger

/-! ## Numbers -/

/-- The text of a number: its digits, from the highest one on, behind the zeros that a minimal width
asks for. -/
def formatted (base minWidth num : Nat) : List UInt8 :=
  List.replicate (minWidth - (Nat.digits base num).length) 0x30 ++
    ((Nat.digits base num).map fun d => UInt8.ofNat d + 0x30).reverse

/-- A power of the base as an `unsigned long long` holds it. -/
def power (base k : Nat) : Nat := base ^ k % 2 ^ 64

/-- The first power of the base that is above a number, as an `unsigned long long` holds it. -/
structure FirstAbove (num base k : Nat) : Prop where
  /-- It is above the number. -/
  above : num < power base k
  /-- The powers before it are not. -/
  first : ∀ j < k, power base j ≤ num

/-- Overflow does not show: the first power above the number is not behind the text, and at the
places of leading zeros no power is zero or small enough for another digit. -/
def Formattable (num base minWidth : Nat) : Prop :=
  num = 0 ∨
    (∃ k, FirstAbove num base k ∧
      max (wrap k) minWidth = max (Nat.digits base num).length minWidth) ∧
    ∀ j, (Nat.digits base num).length ≤ j → j < minWidth →
      power base j ≠ 0 ∧ num / power base j % base = 0

/-- `ntostr` returns the text of a number, or aborts for want of memory. -/
def Formats (num base minWidth : Nat) : Prop :=
  ∀ malloc, ∃ fuel, ntostr malloc fuel num base minWidth = .error .abort ∨
    ∃ str, ntostr malloc fuel num base minWidth = .ok str ∧
      str.items = formatted base minWidth num

/-! ## Strings -/

/-- The text of a character that `strDebug` should come to: itself if it is printable, else an
escape. -/
def escaped (c : UInt8) : List UInt8 :=
  if isprint c then [c]
  else match c with
    | 0x00 => [0x5C, 0x30]
    | 0x09 => [0x5C, 0x74]
    | 0x0D => [0x5C, 0x72]
    | 0x0A => [0x5C, 0x6E]
    | 0x1B => [0x5C, 0x65]
    | c => [0x5C, 0x78] ++ (formatted 16 1 c.toNat).map fun c => if 0x39 < c then c + 39 else c

/-- A text is safe to print: all of it is printable, and between a front and a back every printable
character of the string stands for itself and every other one is escaped. -/
structure Safe (chars text : List UInt8) : Prop where
  /-- Every character is printable. -/
  printable : ∀ c ∈ text, isprint c
  /-- The characters are there in order. -/
  inOrder : ∃ front pieces back, text = front ++ (pieces.flatten ++ back) ∧
    List.Forall₂ (fun c piece => if isprint c then piece = [c] else piece.head? = some 0x5C)
      chars pieces

/-- No object is larger than `PTRDIFF_MAX`. -/
def Bounded (malloc : Nat → Bool) : Prop := ∀ bytes, malloc bytes → bytes ≤ ptrdiffMax

/-- `strDebug` returns a text that is safe to print, or aborts for want of memory. -/
def Shows (signedChar : Bool) (str : KStringView) : Prop :=
  ∀ malloc, Bounded malloc → ∃ fuel, strDebug malloc fuel signedChar str = .error .abort ∨
    ∃ text, strDebug malloc fuel signedChar str = .ok text ∧ Safe str.chars text.items

/-- The escapes of the characters in front of another one do not fit in memory with the start of its
own. -/
def TooLong (front : List UInt8) : Prop := ptrdiffMax < (front.flatMap escaped).length + 2

end FelineOS.Logger
