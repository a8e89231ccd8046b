import FelineOS.Kernel.Word
import FelineOS.Library.Transfer
import FelineOS.Libc.Printf

/-!
# The VGA text terminal

`scroll`, `putchar` and `putstr` of `drivers/vga/vga.cpp`. Video memory is an array of cells, which
are a character and its color each; an access to another index is undefined. `memcpy` and `memset`
are always given whole cells.
-/

namespace FelineOS.VgaText

open Library

/-- `VGA_TEXT_WIDTH`. -/
def vgaTextWidth : Nat := 80

/-- `VGA_TEXT_HEIGHT`. -/
def vgaTextHeight : Nat := 25

/-- `TABSTOP`. -/
def tabStop : UInt8 := 4

/-- What is in the cells of the video memory. -/
abbrev Cells : Type := Nat → UInt16

/-- The members of `vga_text_term`. -/
structure VgaTextTerm where
  /-- `vga_hardware_mem`, with what it points to. -/
  vgaHardwareMem : Option Cells
  /-- `x`. -/
  x : UInt8
  /-- `y`. -/
  y : UInt8
  /-- `color`. -/
  color : UInt8

/-- An index of a cell. -/
def InMemory (index : Nat) : Prop := index < vgaTextWidth * vgaTextHeight

instance : DecidablePred InMemory := fun index => inferInstanceAs (Decidable (index < _))

/-- `vga_entry`. -/
def vgaEntry (uc color : UInt8) : UInt16 := uc.toUInt16 ||| (color.toUInt16 <<< (8 : UInt16))

/-- A cell with `(color & 0xf0) | (color >> 4)` in both of its bytes. -/
def fillValue (color : UInt8) : UInt16 :=
  let byte := (color &&& (0xF0 : UInt8)) ||| (color >>> (4 : UInt8))
  byte.toUInt16 ||| (byte.toUInt16 <<< (8 : UInt16))

/-- `memcpy` of a number of cells. -/
def memcpy (dst src size : Nat) : Cells → Except Fault Cells :=
  transferInside InMemory Fault.undefined (dst + ·) (src + ·) (List.range size)

/-- `memset` of a number of cells. -/
def memset (buf : Nat) (value : UInt16) (size : Nat) : Cells → Except Fault Cells :=
  fillInside InMemory Fault.undefined (buf + ·) value (List.range size)

/-- `scroll`. -/
def scroll (color : UInt8) (cells : Cells) : Except Fault Cells := do
  let cells ← (List.range (vgaTextHeight - 1)).foldlM (fun cells line =>
    memcpy (line * vgaTextWidth) ((line + 1) * vgaTextWidth) vgaTextWidth cells) cells
  memset ((vgaTextHeight - 1) * vgaTextWidth) (fillValue color) vgaTextWidth cells

/-- `*(vga_hardware_mem + y * VGA_TEXT_WIDTH + x) = value`. -/
def store (t : VgaTextTerm) (value : UInt16) (cells : Cells) : Except Fault Cells :=
  writeInside InMemory Fault.undefined cells (t.y.toNat * vgaTextWidth + t.x.toNat) value

/-- `y++`, and a line is scrolled if that is off the screen. -/
def nextLine (t : VgaTextTerm) (cells : Cells) : Except Fault (VgaTextTerm × Int) := do
  let t := { t with y := t.y + 1 }
  if vgaTextHeight ≤ t.y.toNat then do
    let cells ← scroll t.color cells
    return ({ t with vgaHardwareMem := some cells, y := t.y - 1 }, 0)
  else return ({ t with vgaHardwareMem := some cells }, 0)

/-- The branch of a tab. -/
def tab (t : VgaTextTerm) : VgaTextTerm :=
  let t := { t with x := t.x + (tabStop - t.x % tabStop) }
  if vgaTextWidth ≤ t.x.toNat then { t with x := 79 } else t

/-- The branch of a backspace. -/
def backspace (t : VgaTextTerm) (cells : Cells) : Except Fault (VgaTextTerm × Int) :=
  if t.x = 0 then
    if t.y = 0 then .ok (t, 0)
    else do
      let t := { t with y := t.y - 1, x := 79 }
      let cells ← store t (vgaEntry 0x20 t.color) cells
      return ({ t with vgaHardwareMem := some cells }, 0)
  else do
    let t := { t with x := t.x - 1 }
    let cells ← store t (vgaEntry 0x20 t.color) cells
    return ({ t with vgaHardwareMem := some cells }, 0)

/-- The branch of a delete character. -/
def delete (t : VgaTextTerm) (cells : Cells) : Except Fault (VgaTextTerm × Int) := do
  let cells ← store t (vgaEntry 0x20 t.color) cells
  return ({ t with vgaHardwareMem := some cells }, 0)

/-- The code behind the `switch`, for normal characters. -/
def normal (c : UInt8) (t : VgaTextTerm) (cells : Cells) : Except Fault (VgaTextTerm × Int) := do
  let cells ← store t (vgaEntry c t.color) cells
  let t := { t with x := t.x + 1 }
  if vgaTextWidth ≤ t.x.toNat then nextLine { t with x := 0 } cells
  else return ({ t with vgaHardwareMem := some cells }, 0)

/-- A `char` converted to `int`. -/
def charValue (signedChar : Bool) (c : UInt8) : Int :=
  if signedChar then c.toInt8.toInt else c.toNat

/-- `iscntrl`. -/
def iscntrl (c : Int) : Bool := c < 0x20 ∨ c = 127

/-- `putchar`: the terminal after it and the returned value. -/
def putchar (signedChar : Bool) (c : UInt8) (t : VgaTextTerm) :
    Except Fault (VgaTextTerm × Int) :=
  match t.vgaHardwareMem with
  | none => .ok (t, 1)
  | some cells =>
    if iscntrl (charValue signedChar c) then
      match c with
      | 0x0A => nextLine { t with x := 0 } cells
      | 0x0D => .ok ({ t with x := 0 }, 0)
      | 0x09 => .ok (tab t, 0)
      | 0x08 => backspace t cells
      | 0x7F => delete t cells
      | 0x1B => .ok (t, 0)
      | c => normal c t cells
    else normal c t cells

/-- `putchar` for each of a sequence of bytes. -/
def putchars (signedChar : Bool) : List UInt8 → VgaTextTerm → Except Fault VgaTextTerm
  | [], t => .ok t
  | c :: later, t => do
    let (t, _) ← putchar signedChar c t
    putchars signedChar later t

/-- `putstr`. -/
def putstr (signedChar : Bool) (s : Printf.CString) (t : VgaTextTerm) :
    Except Fault (VgaTextTerm × Int) :=
  match t.vgaHardwareMem with
  | none => .ok (t, 0)
  | some _ => do
    let t ← putchars signedChar s.chars t
    return (t, 0)

end FelineOS.VgaText
