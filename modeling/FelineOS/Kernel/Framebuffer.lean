import FelineOS.Kernel.Word

/-!
# The framebuffer

`putPixel` and `putRect` of `drivers/framebuffer/framebuffer.cpp` with what they call. They read no
pixel, so a call returns the stores that it makes, in their order. A store through a pointer that
left the address space is undefined, and so is an `int` that overflows.
-/

namespace FelineOS.Framebuffer

/-- `pixel_t`. -/
structure Pixel where
  /-- `red`. -/
  red : UInt8
  /-- `green`. -/
  green : UInt8
  /-- `blue`. -/
  blue : UInt8
  deriving DecidableEq, Repr

/-- `pixel_bgr_t`. -/
structure PixelBgr where
  /-- `blue`. -/
  blue : UInt8
  /-- `green`. -/
  green : UInt8
  /-- `red`. -/
  red : UInt8
  /-- `fb_padding`. -/
  fbPadding : UInt8
  deriving DecidableEq, Repr

/-- `rgb2bgr`. -/
def rgb2bgr (rgb : Pixel) : PixelBgr := ⟨rgb.blue, rgb.green, rgb.red, 0⟩

/-- `sizeof(pixel_bgr_t)`. -/
def sizeofPixelBgr : Nat := 4

/-- The members of `fbInfo_t` that drawing needs. -/
structure FbInfo where
  /-- `addr`, zero for `nullptr`. -/
  addr : UInt32
  /-- `width`. -/
  width : UInt16
  /-- `height`. -/
  height : UInt16
  /-- `pitch`. -/
  pitch : UInt16
  deriving DecidableEq, Repr

/-- A pixel that is stored at an address. -/
structure Store where
  /-- The address of its first byte. -/
  address : Nat
  /-- The pixel. -/
  pixel : PixelBgr
  deriving DecidableEq, Repr

/-- `*pointer = pixel`. -/
def storePixel (pixel : PixelBgr) (pointer : Nat) : Except Fault Store :=
  if pointer + sizeofPixelBgr ≤ wordLimit then .ok ⟨pointer, pixel⟩ else .error .undefined

/-- The product of two `uint16_t`, which is an `int`. -/
def intProduct (a b : UInt16) : Except Fault Nat :=
  if a.toNat * b.toNat < 2 ^ 31 then .ok (a.toNat * b.toNat) else .error .undefined

/-- `checkParms`. -/
def checkParms (fb : FbInfo) (maxRight maxDown : UInt16) (p : PixelBgr) : UInt32 :=
  let errors := 0
  let errors := if fb.addr = 0 then errors &&& 0b1 else errors
  let errors := if fb.width ≤ maxRight ∨ fb.height ≤ maxDown then errors &&& 0b100 else errors
  if p.fbPadding ≠ 0 then errors &&& 0b10 else errors

/-- The code that is returned for what `checkParms` found, if it is. -/
def refusal (inval : UInt32) : Option Int :=
  if inval ≠ 0 then
    if inval &&& 0b1 ≠ 0 then some (-1)
    else if inval &&& 0b10 ≠ 0 then some (-2)
    else if inval &&& 0b100 ≠ 0 then some (-3)
    else none
  else none

/-- `putPixel_bgr`. -/
def putPixelBgr (fb : FbInfo) (x y : UInt16) (p : PixelBgr) : Except Fault (Int × List Store) :=
  match refusal (checkParms fb x y p) with
  | some code => .ok (code, [])
  | none => do
    let rows ← intProduct y fb.pitch
    let store ← storePixel p (fb.addr.toNat + sizeofPixelBgr * (rows + x.toNat))
    return (0, [store])

/-- The loop over the columns of a row, which `point` points to. -/
def putColumns (p : PixelBgr) (width point : Nat) : Except Fault (List Store) :=
  (List.range width).mapM fun col => storePixel p (point + sizeofPixelBgr * col)

/-- The loop over the rows. -/
def putRows (fb : FbInfo) (p : PixelBgr) (width : Nat) : Nat → Nat → Except Fault (List Store)
  | 0, _ => .ok []
  | rows + 1, point => do
    let row ← putColumns p width point
    let later ← putRows fb p width rows
      (point + sizeofPixelBgr * (fb.pitch.toNat / sizeofPixelBgr))
    return row ++ later

/-- `putRect_bgr`. -/
def putRectBgr (fb : FbInfo) (x y width height : UInt16) (p : PixelBgr) :
    Except Fault (Int × List Store) :=
  match refusal (checkParms fb (x + width) (y + height) p) with
  | some code => .ok (code, [])
  | none => do
    let point := fb.addr.toNat +
      sizeofPixelBgr * (y.toNat * (fb.pitch.toNat / sizeofPixelBgr) + x.toNat)
    let stores ← putRows fb p width.toNat height.toNat point
    return (0, stores)

/-- `putPixel`. -/
def putPixel (fb : FbInfo) (x y : UInt16) (p : Pixel) : Except Fault (Int × List Store) :=
  putPixelBgr fb x y (rgb2bgr p)

/-- `putRect`. -/
def putRect (fb : FbInfo) (x y width height : UInt16) (p : Pixel) :
    Except Fault (Int × List Store) :=
  putRectBgr fb x y width height (rgb2bgr p)

/-! ## Memory -/

/-- The bytes of the address space. -/
abbrev Memory : Type := Nat → UInt8

/-- The bytes of a pixel. -/
def PixelBgr.byte (p : PixelBgr) : Nat → UInt8
  | 0 => p.blue
  | 1 => p.green
  | 2 => p.red
  | _ => p.fbPadding

/-- The memory behind a store. -/
def Store.write (s : Store) (memory : Memory) : Memory := fun a =>
  if s.address ≤ a ∧ a < s.address + sizeofPixelBgr then s.pixel.byte (a - s.address)
  else memory a

/-- The memory behind stores, one after the other. -/
def written (stores : List Store) (memory : Memory) : Memory :=
  stores.foldl (fun memory s => s.write memory) memory

/-- The memory behind `putRect`. -/
def drawRect (fb : FbInfo) (x y width height : UInt16) (p : Pixel) (memory : Memory) :
    Except Fault Memory := do
  let (_, stores) ← putRect fb x y width height p
  return written stores memory

/-- The memory behind calls of `putPixel`. -/
def drawPixels (fb : FbInfo) (p : Pixel) : List (UInt16 × UInt16) → Memory → Except Fault Memory
  | [], memory => .ok memory
  | (x, y) :: later, memory => do
    let (_, stores) ← putPixel fb x y p
    drawPixels fb p later (written stores memory)

end FelineOS.Framebuffer
