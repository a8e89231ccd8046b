import FelineOS.Verif.Framebuffer

/-!
# A rectangle against its pixels

`putRect` steps by the pitch in bytes and `putPixel` by as many pixels, so they store the same
pixels in the first row of the screen only.
-/

namespace FelineOS.Framebuffer

variable {fb : FbInfo} {x y width height : UInt16} {p : Pixel} {q : PixelBgr}
  {stores : List Store} {addresses : List Nat} {order : List (UInt16 × UInt16)} {base : Nat}

/-- The coordinates of a rectangle, row by row. -/
def grid (x y width height : UInt16) : List (UInt16 × UInt16) :=
  (List.range height.toNat).flatMap fun j =>
    (List.range width.toNat).map fun i => (x + UInt16.ofNat i, y + UInt16.ofNat j)

/-- Whatever is in memory and in whatever order the pixels are put, the bytes of the framebuffer
are the same after `putRect`. -/
def SameAsPixels (fb : FbInfo) (x y width height : UInt16) (p : Pixel) : Prop :=
  ∀ memory order, order.Perm (grid x y width height) → ∃ rect pixels,
    drawRect fb x y width height p memory = .ok rect ∧
      drawPixels fb p order memory = .ok pixels ∧
      ∀ a, fb.addr.toNat ≤ a → a < fb.addr.toNat + fb.pitch.toNat * fb.height.toNat →
        rect a = pixels a

/-! ## Memory behind stores -/

/-- Stores of one pixel at distances of whole pixels put it where they are, in any order. -/
theorem written_apply (spaced : ∀ a ∈ addresses, ∃ k, a = base + sizeofPixelBgr * k)
    (memory : Memory) (slot : Nat) {byte : Nat} (inside : byte < sizeofPixelBgr) :
    written (addresses.map fun a => ⟨a, q⟩) memory (base + sizeofPixelBgr * slot + byte) =
      if base + sizeofPixelBgr * slot ∈ addresses then q.byte byte
      else memory (base + sizeofPixelBgr * slot + byte) := by
  induction addresses generalizing memory with
  | nil => rfl
  | cons a addresses ih =>
    obtain ⟨k, place⟩ := spaced a List.mem_cons_self
    show written (addresses.map fun a => ⟨a, q⟩) (Store.write ⟨a, q⟩ memory) _ = _
    rw [ih fun b later => spaced b (List.mem_cons_of_mem a later)]
    by_cases later : base + sizeofPixelBgr * slot ∈ addresses
    · rw [if_pos later, if_pos (List.mem_cons_of_mem a later)]
    · rw [if_neg later]
      unfold Store.write
      dsimp only
      by_cases here : base + sizeofPixelBgr * slot = a
      · have offset : base + sizeofPixelBgr * slot + byte - a = byte := by omega
        rw [if_pos (by omega), if_pos (here ▸ List.mem_cons_self), offset]
      · have other : base + sizeofPixelBgr * slot ∉ a :: addresses := by
          intro member
          exact (List.mem_cons.mp member).elim here later
        rw [if_neg other]
        apply if_neg
        unfold sizeofPixelBgr at *
        omega

/-- The memory behind stores is a matter of where they are. -/
theorem written_congr {others : List Nat}
    (spaced : ∀ a ∈ addresses, ∃ k, a = base + sizeofPixelBgr * k)
    (same : ∀ a, a ∈ addresses ↔ a ∈ others) (memory : Memory) {a : Nat} (above : base ≤ a) :
    written (addresses.map fun a => ⟨a, q⟩) memory a =
      written (others.map fun a => ⟨a, q⟩) memory a := by
  have split : a = base + sizeofPixelBgr * ((a - base) / sizeofPixelBgr) +
      (a - base) % sizeofPixelBgr := by
    have whole := Nat.div_add_mod (a - base) sizeofPixelBgr
    omega
  have inside : (a - base) % sizeofPixelBgr < sizeofPixelBgr := Nat.mod_lt _ (by decide)
  rw [split, written_apply spaced memory _ inside,
    written_apply (fun b member => spaced b ((same b).mpr member)) memory _ inside]
  simp only [same]

/-! ## The calls -/

/-- The addresses that calls of `putPixel` store at. -/
def pixelStores (fb : FbInfo) (order : List (UInt16 × UInt16)) : List Nat :=
  order.map fun (x, y) => fb.pixelAddress x.toNat y.toNat

/-- Calls of `putPixel` in the address space make their stores. -/
theorem drawPixels_ok (fits : ∀ a ∈ pixelStores fb order, a + sizeofPixelBgr ≤ wordLimit)
    (memory : Memory) : drawPixels fb p order memory =
      .ok (written ((pixelStores fb order).map fun a => ⟨a, rgb2bgr p⟩) memory) := by
  induction order generalizing memory with
  | nil => rfl
  | cons place order ih =>
    obtain ⟨x, y⟩ := place
    rw [drawPixels, putPixel_ok (fits _ List.mem_cons_self)]
    exact ih (fun a later => fits a (List.mem_cons_of_mem _ later)) _

/-- Calls of `putPixel` that returned made their stores. -/
theorem drawPixels_made {memory pixels : Memory}
    (returns : drawPixels fb p order memory = .ok pixels) :
    pixels = written ((pixelStores fb order).map fun a => ⟨a, rgb2bgr p⟩) memory := by
  induction order generalizing memory with
  | nil => exact (Except.ok.inj returns).symm
  | cons place order ih =>
    obtain ⟨x, y⟩ := place
    rw [drawPixels] at returns
    obtain ⟨⟨code, stores⟩, made, rest⟩ := of_bind_ok returns
    obtain ⟨-, rfl⟩ := putPixel_made made
    exact ih rest

/-- A `putRect` that returned made its stores. -/
theorem drawRect_made {memory rect : Memory}
    (returns : drawRect fb x y width height p memory = .ok rect) :
    rect = written ((rectStores fb x y width height).map fun a => ⟨a, rgb2bgr p⟩) memory := by
  unfold drawRect at returns
  obtain ⟨⟨code, stores⟩, made, rest⟩ := of_bind_ok returns
  obtain ⟨-, rfl⟩ := putRect_made made
  exact (Except.ok.inj rest).symm

/-- The coordinates of a rectangle on the screen. -/
theorem mem_grid (right : x.toNat + width.toNat ≤ fb.width.toNat)
    (bottom : y.toNat + height.toNat ≤ fb.height.toNat) {i j : UInt16} :
    (i, j) ∈ grid x y width height ↔
      (x.toNat ≤ i.toNat ∧ i.toNat < x.toNat + width.toNat) ∧
        y.toNat ≤ j.toNat ∧ j.toNat < y.toNat + height.toNat := by
  have widest := fb.width.toNat_lt
  have highest := fb.height.toNat_lt
  have shifted {base : UInt16} {k : Nat} (small : base.toNat + k < 2 ^ 16) :
      (base + UInt16.ofNat k).toNat = base.toNat + k := by
    rw [UInt16.toNat_add, UInt16.toNat_ofNat']
    omega
  unfold grid
  simp only [List.mem_flatMap, List.mem_map, List.mem_range, Prod.mk.injEq]
  constructor
  · rintro ⟨row, above, column, inside, rfl, rfl⟩
    rw [shifted (by omega), shifted (by omega)]
    omega
  · rintro ⟨⟨left, inside⟩, top, above⟩
    refine ⟨j.toNat - y.toNat, by omega, i.toNat - x.toNat, by omega, ?_, ?_⟩
    · apply UInt16.toNat_inj.mp
      rw [shifted (by omega)]
      omega
    · apply UInt16.toNat_inj.mp
      rw [shifted (by omega)]
      omega

/-- The calls of `putPixel` store at an address for every row and column of the rectangle. -/
theorem mem_pixelStores (right : x.toNat + width.toNat ≤ fb.width.toNat)
    (bottom : y.toNat + height.toNat ≤ fb.height.toNat)
    (all : order.Perm (grid x y width height)) {address : Nat} :
    address ∈ pixelStores fb order ↔ ∃ i, x.toNat ≤ i ∧ i < x.toNat + width.toNat ∧
      ∃ j, y.toNat ≤ j ∧ j < y.toNat + height.toNat ∧ address = fb.pixelAddress i j := by
  have widest := fb.width.toNat_lt
  have highest := fb.height.toNat_lt
  unfold pixelStores
  rw [List.mem_map]
  constructor
  · rintro ⟨⟨i, j⟩, member, rfl⟩
    obtain ⟨⟨left, inside⟩, top, above⟩ := (mem_grid right bottom).mp (all.mem_iff.mp member)
    exact ⟨i.toNat, left, inside, j.toNat, top, above, rfl⟩
  · rintro ⟨i, left, inside, j, top, above, rfl⟩
    have column : (UInt16.ofNat i).toNat = i := by
      rw [UInt16.toNat_ofNat']
      omega
    have row : (UInt16.ofNat j).toNat = j := by
      rw [UInt16.toNat_ofNat']
      omega
    refine ⟨(UInt16.ofNat i, UInt16.ofNat j), all.mem_iff.mpr ((mem_grid right bottom).mpr ?_), ?_⟩
    · rw [column, row]
      exact ⟨⟨left, inside⟩, top, above⟩
    · dsimp only
      rw [column, row]

/-! ## Equality -/

/-- A rectangle without a pixel, or in the first row. -/
def FirstRow (y width height : UInt16) : Prop :=
  width = 0 ∨ height = 0 ∨ y = 0 ∧ height = 1

/-- There both paths store at the same addresses. -/
theorem rectAddress_firstRow {j : Nat} (first : FirstRow y width height)
    (columns : 0 < width.toNat) (top : y.toNat ≤ j) (above : j < y.toNat + height.toNat)
    (i : Nat) : fb.rectAddress i j = fb.pixelAddress i j := by
  rcases first with none | none | ⟨start, one⟩
  · rw [none] at columns
    cases columns
  · rw [none, UInt16.toNat_zero, Nat.add_zero] at above
    exact absurd above (Nat.not_lt_of_le top)
  · rw [start, one, UInt16.toNat_zero, UInt16.toNat_one] at above
    have zero : j = 0 := by omega
    unfold FbInfo.rectAddress FbInfo.pixelAddress
    rw [zero, Nat.zero_mul, Nat.zero_mul]

/-- Elsewhere `putRect` stores at an address of the framebuffer that `putPixel` does not store
at. -/
theorem rectAddress_alone (geometry : fb.Geometry)
    (right : x.toNat + width.toNat ≤ fb.width.toNat) (other : ¬ FirstRow y width height) :
    ∃ j, y.toNat ≤ j ∧ j < y.toNat + height.toNat ∧ x.toNat < fb.width.toNat ∧
      0 < width.toNat ∧ ∀ k, x.toNat ≤ k → k < x.toNat + width.toNat →
        ∀ l, y.toNat ≤ l → l < y.toNat + height.toNat →
          fb.rectAddress x.toNat j ≠ fb.pixelAddress k l := by
  have columns : 0 < width.toNat :=
    Nat.pos_of_ne_zero fun none => other (Or.inl (UInt16.toNat_inj.mp none))
  have rows : 0 < height.toNat :=
    Nat.pos_of_ne_zero fun none => other (Or.inr (Or.inl (UInt16.toNat_inj.mp none)))
  have more : y.toNat = 0 → height.toNat ≠ 1 := fun start one =>
    other (Or.inr (Or.inr ⟨UInt16.toNat_inj.mp start, UInt16.toNat_inj.mp one⟩))
  have padded := geometry.padded
  have wide : fb.width.toNat ≤ fb.pitch.toNat / sizeofPixelBgr := by
    rw [Nat.le_div_iff_mul_le (by decide), Nat.mul_comm]
    exact padded
  have truncated : sizeofPixelBgr * (fb.pitch.toNat / sizeofPixelBgr) ≤ fb.pitch.toNat :=
    Nat.mul_div_le _ _
  -- the first row of the rectangle behind that of the screen
  refine ⟨max y.toNat 1, Nat.le_max_left _ _, by omega, by omega, columns, ?_⟩
  intro k left inside l top above same
  unfold FbInfo.rectAddress FbInfo.pixelAddress at same
  have slots : max y.toNat 1 * (fb.pitch.toNat / sizeofPixelBgr) + x.toNat =
      l * fb.pitch.toNat + k :=
    Nat.eq_of_mul_eq_mul_left (by decide : 0 < sizeofPixelBgr) (Nat.add_left_cancel same)
  by_cases start : l = 0
  · -- a column of the first row of the screen comes before the next row
    have first : max y.toNat 1 = 1 := by omega
    rw [start, first, Nat.zero_mul, Nat.one_mul] at slots
    omega
  · -- the rows that count pixels are further apart
    have further : max y.toNat 1 * fb.pitch.toNat ≤ l * fb.pitch.toNat :=
      Nat.mul_le_mul_right _ (by omega)
    have shorter : max y.toNat 1 * (fb.pitch.toNat / sizeofPixelBgr) <
        max y.toNat 1 * fb.pitch.toNat := by
      apply Nat.mul_lt_mul_of_pos_left _ (by omega)
      unfold sizeofPixelBgr at *
      omega
    omega

/-- `putRect` stores at whole pixels behind the first. -/
theorem rectStores_spaced : ∀ a ∈ rectStores fb x y width height,
    ∃ k, a = fb.addr.toNat + sizeofPixelBgr * k := by
  intro a member
  obtain ⟨i, -, -, j, -, -, rfl⟩ := mem_rectStores.mp member
  exact ⟨_, rfl⟩

/-- So does `putPixel`. -/
theorem pixelStores_spaced : ∀ a ∈ pixelStores fb order,
    ∃ k, a = fb.addr.toNat + sizeofPixelBgr * k := by
  intro a member
  obtain ⟨⟨i, j⟩, -, rfl⟩ := List.mem_map.mp member
  exact ⟨_, rfl⟩

/-- The first byte at an address of `putRect` behind such stores. -/
theorem written_rectAddress (spaced : ∀ a ∈ addresses, ∃ k, a = fb.addr.toNat + sizeofPixelBgr * k)
    (memory : Memory) (i j : Nat) :
    written (addresses.map fun a => ⟨a, q⟩) memory (fb.rectAddress i j) =
      if fb.rectAddress i j ∈ addresses then q.blue else memory (fb.rectAddress i j) :=
  written_apply spaced memory _ (show 0 < sizeofPixelBgr by decide)

/-- Where no rectangle has pixels of its own, the memory is the same. -/
theorem same_of_firstRow (geometry : fb.Geometry) (p : Pixel)
    (right : x.toNat + width.toNat ≤ fb.width.toNat)
    (bottom : y.toNat + height.toNat ≤ fb.height.toNat) (first : FirstRow y width height) :
    SameAsPixels fb x y width height p := by
  intro memory order all
  have same (a : Nat) : a ∈ rectStores fb x y width height ↔ a ∈ pixelStores fb order := by
    rw [mem_rectStores, mem_pixelStores right bottom all]
    constructor
    · rintro ⟨i, left, inside, j, top, above, rfl⟩
      exact ⟨i, left, inside, j, top, above,
        rectAddress_firstRow first (by omega) top above i⟩
    · rintro ⟨i, left, inside, j, top, above, rfl⟩
      exact ⟨i, left, inside, j, top, above,
        (rectAddress_firstRow first (by omega) top above i).symm⟩
  have fits : ∀ a ∈ rectStores fb x y width height, a + sizeofPixelBgr ≤ wordLimit := by
    intro a member
    obtain ⟨i, left, inside, j, top, above, rfl⟩ := mem_rectStores.mp member
    have place := rectAddress_le fb i j
    have mapped := pixel_inside geometry (Nat.lt_of_lt_of_le inside right)
      (Nat.lt_of_lt_of_le above bottom)
    have space := geometry.fits
    omega
  have drawn : drawRect fb x y width height p memory =
      .ok (written ((rectStores fb x y width height).map fun a => ⟨a, rgb2bgr p⟩) memory) := by
    unfold drawRect
    rw [putRect_ok fits]
    rfl
  refine ⟨_, _, drawn, drawPixels_ok (fun a member => fits a ((same a).mpr member)) memory, ?_⟩
  intro a above _
  exact written_congr rectStores_spaced same memory above

/-- Where the memory is the same, the rectangle has no row behind the first of the screen. -/
theorem firstRow_of_same (geometry : fb.Geometry)
    (right : x.toNat + width.toNat ≤ fb.width.toNat)
    (bottom : y.toNat + height.toNat ≤ fb.height.toNat) (same : SameAsPixels fb x y width height p) :
    FirstRow y width height := by
  by_contra other
  obtain ⟨j, top, above, column, columns, alone⟩ := rectAddress_alone geometry right other
  -- a memory that does not hold the color
  obtain ⟨rect, pixels, drawn, put, equal⟩ :=
    same (fun _ => p.blue + 1) (grid x y width height) (List.Perm.refl _)
  have mapped := Nat.le_trans (Nat.add_le_add_right (rectAddress_le fb x.toNat j) sizeofPixelBgr)
    (pixel_inside geometry column (Nat.lt_of_lt_of_le above bottom))
  have byte := equal (fb.rectAddress x.toNat j) (Nat.le_add_right _ _)
    (Nat.lt_of_lt_of_le (Nat.lt_add_of_pos_right (by decide)) mapped)
  have stored : fb.rectAddress x.toNat j ∈ rectStores fb x y width height :=
    mem_rectStores.mpr ⟨x.toNat, Nat.le_refl _, Nat.lt_add_of_pos_right columns, j, top, above, rfl⟩
  have missing : fb.rectAddress x.toNat j ∉ pixelStores fb (grid x y width height) := by
    intro member
    obtain ⟨i, left, inside, l, low, high, place⟩ :=
      (mem_pixelStores right bottom (List.Perm.refl _)).mp member
    exact alone i left inside l low high place
  rw [drawRect_made drawn, drawPixels_made put, written_rectAddress rectStores_spaced,
    written_rectAddress pixelStores_spaced, if_pos stored, if_neg missing] at byte
  have color : p.blue = p.blue + 1 := byte
  have shifted : p.blue - p.blue = p.blue + 1 - p.blue := congrArg (· - p.blue) color
  rw [UInt8.sub_self, UInt8.add_comm, UInt8.add_sub_cancel] at shifted
  exact absurd shifted (by decide)

/-- A rectangle on the screen leaves the framebuffer as its pixels do, in any order, exactly when it
has no pixel or is in the first row. -/
theorem sameAsPixels_iff (geometry : fb.Geometry) (p : Pixel)
    (right : x.toNat + width.toNat ≤ fb.width.toNat)
    (bottom : y.toNat + height.toNat ≤ fb.height.toNat) :
    SameAsPixels fb x y width height p ↔ FirstRow y width height :=
  ⟨firstRow_of_same geometry right bottom, same_of_firstRow geometry p right bottom⟩

/-- A line at the top of a screen of two by two pixels. -/
theorem sameAsPixels_top : SameAsPixels ⟨0x8000, 2, 2, 8⟩ 0 0 2 1 ⟨1, 2, 3⟩ :=
  (sameAsPixels_iff ⟨by decide, by decide⟩ ⟨1, 2, 3⟩ (by decide) (by decide)).mpr
    (Or.inr (Or.inr ⟨rfl, rfl⟩))

/-- The whole of that screen. -/
theorem sameAsPixels_screen : ¬ SameAsPixels ⟨0x8000, 2, 2, 8⟩ 0 0 2 2 ⟨1, 2, 3⟩ := by
  intro same
  have first := firstRow_of_same ⟨by decide, by decide⟩ (by decide) (by decide) same
  revert first
  unfold FirstRow
  decide

end FelineOS.Framebuffer
