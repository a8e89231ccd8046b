import FelineOS.Kernel.Framebuffer

/-!
# Where the framebuffer is drawn to

`checkParms` clears bits that are not set, so it never refuses anything, and `putPixel` counts rows
in pixels where the pitch is in bytes. A call stays on the screen exactly when its own arguments
do, for a pixel in the first quarter of the rows and for a rectangle with every pixel where the
truncated pitch still leads to one.
-/

namespace FelineOS.Framebuffer

variable {fb : FbInfo} {x y width height : UInt16} {p : Pixel} {q : PixelBgr}
  {stores : List Store} {address point rows columns : Nat}

/-- What the framebuffer of a machine is like, set up or not. -/
structure FbInfo.Geometry (fb : FbInfo) : Prop where
  /-- A row has room for its pixels. -/
  padded : sizeofPixelBgr * fb.width.toNat ≤ fb.pitch.toNat
  /-- The rows are in the address space. -/
  fits : fb.addr.toNat + fb.pitch.toNat * fb.height.toNat ≤ wordLimit

/-- The address of a pixel. -/
def FbInfo.pixel (fb : FbInfo) (i j : Nat) : Nat :=
  fb.addr.toNat + j * fb.pitch.toNat + sizeofPixelBgr * i

/-- The address is that of a pixel of the screen, in the mapped bytes. -/
def FbInfo.Visible (fb : FbInfo) (address : Nat) : Prop :=
  ∃ i < fb.width.toNat, ∃ j < fb.height.toNat, address = fb.pixel i j ∧
    address + sizeofPixelBgr ≤ fb.addr.toNat + fb.pitch.toNat * fb.height.toNat

/-- A call returns; it stores nothing and refuses with a negative code, or it stores only pixels
of the screen; and it refuses what it should. -/
def Confined (fb : FbInfo) (refuses : Prop) (outcome : Except Fault (Int × List Store)) : Prop :=
  ∃ code stores, outcome = .ok (code, stores) ∧
    (code < 0 ∧ stores = [] ∨ ∀ s ∈ stores, fb.Visible s.address) ∧ (refuses → code < 0)

/-- A pixel to refuse: the framebuffer is not set up, or it is off the screen. -/
def PixelRefused (fb : FbInfo) (x y : UInt16) : Prop :=
  fb.addr = 0 ∨ fb.width ≤ x ∨ fb.height ≤ y

/-- A rectangle to refuse. -/
def RectRefused (fb : FbInfo) (x y width height : UInt16) : Prop :=
  fb.addr = 0 ∨ fb.width.toNat < x.toNat + width.toNat ∨
    fb.height.toNat < y.toNat + height.toNat

/-- Where a column and a row lead with the truncated pitch, from the start of a row of the
screen. -/
def FbInfo.column (fb : FbInfo) (i j : Nat) : Nat :=
  sizeofPixelBgr * (j * (fb.pitch.toNat / sizeofPixelBgr) + i) % fb.pitch.toNat

/-- Every pixel of a rectangle leads to a pixel of a row. -/
def Straight (fb : FbInfo) (x y width height : UInt16) : Prop :=
  ∀ i, x.toNat ≤ i → i < x.toNat + width.toNat →
    ∀ j, y.toNat ≤ j → j < y.toNat + height.toNat →
      sizeofPixelBgr ∣ fb.column i j ∧ fb.column i j < sizeofPixelBgr * fb.width.toNat

/-! ## The check -/

/-- Clearing bits of zero leaves zero. -/
theorem checkParms_eq (fb : FbInfo) (maxRight maxDown : UInt16) (q : PixelBgr) :
    checkParms fb maxRight maxDown q = 0 := by
  unfold checkParms
  dsimp only
  split_ifs <;> rfl

/-- So nothing is ever refused. -/
theorem refusal_checkParms (fb : FbInfo) (maxRight maxDown : UInt16) (q : PixelBgr) :
    refusal (checkParms fb maxRight maxDown q) = none := by
  rw [checkParms_eq]
  rfl

/-! ## Stores -/

/-- A store at an address of the address space. -/
theorem storePixel_ok (fits : point + sizeofPixelBgr ≤ wordLimit) :
    storePixel q point = .ok ⟨point, q⟩ := if_pos fits

/-- A store that was made. -/
theorem storePixel_eq {s : Store} (made : storePixel q point = .ok s) : s = ⟨point, q⟩ := by
  unfold storePixel at made
  split at made
  · exact (Except.ok.inj made).symm
  · cases made

/-- The addresses of the columns of a row, from that of the first. -/
def columnAddresses (columns point : Nat) : List Nat :=
  (List.range columns).map fun column => point + sizeofPixelBgr * column

/-- The addresses that the loops over a rectangle come to. -/
def rectAddresses (fb : FbInfo) (columns : Nat) : Nat → Nat → List Nat
  | 0, _ => []
  | rows + 1, point => columnAddresses columns point ++
    rectAddresses fb columns rows (point + sizeofPixelBgr * (fb.pitch.toNat / sizeofPixelBgr))

/-- An address of the loops has a row and a column. -/
theorem mem_rectAddresses : address ∈ rectAddresses fb columns rows point ↔
    ∃ row < rows, ∃ column < columns, address = point +
      sizeofPixelBgr * (row * (fb.pitch.toNat / sizeofPixelBgr) + column) := by
  induction rows generalizing point with
  | zero => simp [rectAddresses]
  | succ rows ih =>
    rw [rectAddresses, List.mem_append, ih]
    unfold columnAddresses
    rw [List.mem_map]
    constructor
    · rintro (⟨column, inside, rfl⟩ | ⟨row, above, column, inside, rfl⟩)
      · refine ⟨0, Nat.succ_pos _, column, List.mem_range.mp inside, ?_⟩
        rw [Nat.zero_mul, Nat.zero_add]
      · refine ⟨row + 1, Nat.succ_lt_succ above, column, inside, ?_⟩
        rw [Nat.add_mul]
        unfold sizeofPixelBgr
        omega
    · rintro ⟨row, above, column, inside, rfl⟩
      cases row with
      | zero =>
        refine Or.inl ⟨column, List.mem_range.mpr inside, ?_⟩
        rw [Nat.zero_mul, Nat.zero_add]
      | succ row =>
        refine Or.inr ⟨row, Nat.lt_of_succ_lt_succ above, column, inside, ?_⟩
        rw [Nat.add_mul]
        unfold sizeofPixelBgr
        omega

/-- The loops make a store for each of their addresses. -/
theorem putRows_eq (fb : FbInfo) (q : PixelBgr) (columns rows point : Nat) :
    putRows fb q columns rows point =
      (rectAddresses fb columns rows point).mapM (storePixel q) := by
  induction rows generalizing point with
  | zero => rfl
  | succ rows ih =>
    have row : putColumns q columns point =
        (columnAddresses columns point).mapM (storePixel q) := by
      unfold putColumns columnAddresses
      rw [List.mapM_map]
      rfl
    rw [putRows, rectAddresses, List.mapM_append, row, ih]

/-- Stores in the address space are all made. -/
theorem mapM_storePixel {addresses : List Nat}
    (fits : ∀ a ∈ addresses, a + sizeofPixelBgr ≤ wordLimit) :
    addresses.mapM (storePixel q) = .ok (addresses.map fun a => ⟨a, q⟩) := by
  induction addresses with
  | nil => rfl
  | cons a addresses ih =>
    rw [List.mapM_cons, storePixel_ok (fits a List.mem_cons_self), ok_bind,
      ih fun b later => fits b (List.mem_cons_of_mem a later)]
    rfl

/-- Stores that were all made. -/
theorem mapM_storePixel_eq {addresses : List Nat}
    (made : addresses.mapM (storePixel q) = .ok stores) :
    stores = addresses.map fun a => ⟨a, q⟩ := by
  induction addresses generalizing stores with
  | nil => exact (Except.ok.inj made).symm
  | cons a addresses ih =>
    rw [List.mapM_cons] at made
    obtain ⟨s, first, rest⟩ := of_bind_ok made
    obtain ⟨others, later, joined⟩ := of_bind_ok rest
    rw [← Except.ok.inj joined, storePixel_eq first, ih later]
    rfl

/-! ## Calls -/

/-- Where `putPixel` stores: the pitch is added to a pointer to pixels. -/
def FbInfo.pixelAddress (fb : FbInfo) (i j : Nat) : Nat :=
  fb.addr.toNat + sizeofPixelBgr * (j * fb.pitch.toNat + i)

/-- Where `putRect` stores. -/
def FbInfo.rectAddress (fb : FbInfo) (i j : Nat) : Nat :=
  fb.addr.toNat + sizeofPixelBgr * (j * (fb.pitch.toNat / sizeofPixelBgr) + i)

/-- The addresses that `putRect` stores at. -/
def rectStores (fb : FbInfo) (x y width height : UInt16) : List Nat :=
  rectAddresses fb width.toNat height.toNat (fb.rectAddress x.toNat y.toNat)

/-- `putPixel` makes its store. -/
theorem putPixel_ok (fits : fb.pixelAddress x.toNat y.toNat + sizeofPixelBgr ≤ wordLimit) :
    putPixel fb x y p = .ok (0, [⟨fb.pixelAddress x.toNat y.toNat, rgb2bgr p⟩]) := by
  have small : y.toNat * fb.pitch.toNat < 2 ^ 31 := by
    unfold FbInfo.pixelAddress sizeofPixelBgr wordLimit at fits
    omega
  unfold putPixel putPixelBgr
  rw [refusal_checkParms]
  dsimp only
  rw [intProduct, if_pos small, ok_bind]
  show (storePixel _ (fb.pixelAddress x.toNat y.toNat) >>= _) = _
  rw [storePixel_ok fits]
  rfl

/-- A `putPixel` that returned made its store. -/
theorem putPixel_made {code : Int} (returns : putPixel fb x y p = .ok (code, stores)) :
    code = 0 ∧ stores = [⟨fb.pixelAddress x.toNat y.toNat, rgb2bgr p⟩] := by
  unfold putPixel putPixelBgr at returns
  rw [refusal_checkParms] at returns
  obtain ⟨rows, product, rest⟩ := of_bind_ok returns
  obtain ⟨s, made, same⟩ := of_bind_ok rest
  obtain ⟨rfl, rfl⟩ := Prod.mk.inj (Except.ok.inj same)
  unfold intProduct at product
  split at product
  · obtain rfl := Except.ok.inj product
    rw [storePixel_eq made]
    exact ⟨rfl, rfl⟩
  · cases product

/-- `putRect` makes its stores. -/
theorem putRect_ok
    (fits : ∀ a ∈ rectStores fb x y width height, a + sizeofPixelBgr ≤ wordLimit) :
    putRect fb x y width height p =
      .ok (0, (rectStores fb x y width height).map fun a => ⟨a, rgb2bgr p⟩) := by
  unfold putRect putRectBgr
  rw [refusal_checkParms]
  dsimp only
  rw [putRows_eq]
  show ((rectStores fb x y width height).mapM _ >>= _) = _
  rw [mapM_storePixel fits]
  rfl

/-- A `putRect` that returned made its stores. -/
theorem putRect_made {code : Int} (returns : putRect fb x y width height p = .ok (code, stores)) :
    code = 0 ∧ stores = (rectStores fb x y width height).map fun a => ⟨a, rgb2bgr p⟩ := by
  unfold putRect putRectBgr at returns
  rw [refusal_checkParms] at returns
  dsimp only at returns
  rw [putRows_eq] at returns
  obtain ⟨made, all, same⟩ := of_bind_ok returns
  obtain ⟨rfl, rfl⟩ := Prod.mk.inj (Except.ok.inj same)
  exact ⟨rfl, mapM_storePixel_eq all⟩

/-- `putRect` stores at an address for every row and column of the rectangle. -/
theorem mem_rectStores : address ∈ rectStores fb x y width height ↔
    ∃ i, x.toNat ≤ i ∧ i < x.toNat + width.toNat ∧
      ∃ j, y.toNat ≤ j ∧ j < y.toNat + height.toNat ∧ address = fb.rectAddress i j := by
  unfold rectStores
  rw [mem_rectAddresses]
  have place (row column : Nat) : fb.rectAddress x.toNat y.toNat +
      sizeofPixelBgr * (row * (fb.pitch.toNat / sizeofPixelBgr) + column) =
        fb.rectAddress (x.toNat + column) (y.toNat + row) := by
    unfold FbInfo.rectAddress
    rw [Nat.add_mul]
    unfold sizeofPixelBgr
    omega
  constructor
  · rintro ⟨row, above, column, inside, rfl⟩
    exact ⟨x.toNat + column, Nat.le_add_right _ _, Nat.add_lt_add_left inside _,
      y.toNat + row, Nat.le_add_right _ _, Nat.add_lt_add_left above _, place row column⟩
  · rintro ⟨i, left, right, j, top, bottom, rfl⟩
    refine ⟨j - y.toNat, by omega, i - x.toNat, by omega, ?_⟩
    rw [place, Nat.add_sub_cancel' left, Nat.add_sub_cancel' top]

/-! ## The screen -/

/-- A column of the screen is in its row. -/
theorem FbInfo.Geometry.column_lt (geometry : fb.Geometry) {i : Nat} (column : i < fb.width.toNat) :
    sizeofPixelBgr * i < fb.pitch.toNat :=
  Nat.lt_of_lt_of_le (Nat.mul_lt_mul_of_pos_left column (by decide)) geometry.padded

/-- The bytes in front of a pixel give its column and its row. -/
theorem FbInfo.Geometry.split (geometry : fb.Geometry) {i : Nat} (column : i < fb.width.toNat)
    (j : Nat) : (sizeofPixelBgr * i + fb.pitch.toNat * j) % fb.pitch.toNat = sizeofPixelBgr * i ∧
      (sizeofPixelBgr * i + fb.pitch.toNat * j) / fb.pitch.toNat = j := by
  have small := geometry.column_lt column
  rw [Nat.add_mul_mod_self_left, Nat.mod_eq_of_lt small,
    Nat.add_mul_div_left _ _ (Nat.lt_of_le_of_lt (Nat.zero_le _) small), Nat.div_eq_of_lt small,
    Nat.zero_add]
  exact ⟨rfl, rfl⟩

/-- Bytes behind the first one of the framebuffer are a pixel when they start one in their row. -/
theorem visible_iff (geometry : fb.Geometry) {offset : Nat} :
    fb.Visible (fb.addr.toNat + offset) ↔ sizeofPixelBgr ∣ offset % fb.pitch.toNat ∧
      offset % fb.pitch.toNat < sizeofPixelBgr * fb.width.toNat ∧
      offset / fb.pitch.toNat < fb.height.toNat := by
  have padded := geometry.padded
  constructor
  · rintro ⟨i, column, j, row, same, -⟩
    have split : offset = sizeofPixelBgr * i + fb.pitch.toNat * j := by
      unfold FbInfo.pixel at same
      rw [Nat.mul_comm j] at same
      omega
    rw [split, (geometry.split column j).1, (geometry.split column j).2]
    exact ⟨Nat.dvd_mul_right _ _, Nat.mul_lt_mul_of_pos_left column (by decide), row⟩
  · rintro ⟨aligned, column, row⟩
    obtain ⟨i, place⟩ := aligned
    have split := Nat.div_add_mod offset fb.pitch.toNat
    rw [place] at column split
    have inside : i < fb.width.toNat := Nat.lt_of_mul_lt_mul_left column
    refine ⟨i, inside, offset / fb.pitch.toNat, row, ?_, ?_⟩
    · unfold FbInfo.pixel
      rw [Nat.mul_comm (offset / fb.pitch.toNat)]
      omega
    · have above : fb.pitch.toNat * (offset / fb.pitch.toNat + 1) ≤
          fb.pitch.toNat * fb.height.toNat := Nat.mul_le_mul_left _ row
      rw [Nat.mul_add, Nat.mul_one] at above
      unfold sizeofPixelBgr at *
      omega

/-- A pixel of the screen stored by `putPixel` is one of the screen in the first quarter of the
rows. -/
theorem visible_pixelAddress (geometry : fb.Geometry) {i j : Nat} (column : i < fb.width.toNat) :
    fb.Visible (fb.pixelAddress i j) ↔ sizeofPixelBgr * j < fb.height.toNat := by
  have split : sizeofPixelBgr * (j * fb.pitch.toNat + i) =
      sizeofPixelBgr * i + fb.pitch.toNat * (sizeofPixelBgr * j) := by
    rw [Nat.mul_add, Nat.mul_comm j, Nat.mul_left_comm, Nat.add_comm]
  unfold FbInfo.pixelAddress
  rw [visible_iff geometry, split, (geometry.split column _).1, (geometry.split column _).2]
  constructor
  · rintro ⟨-, -, row⟩
    exact row
  · intro row
    exact ⟨Nat.dvd_mul_right _ _, Nat.mul_lt_mul_of_pos_left column (by decide), row⟩

/-- The truncated pitch leads no further than the pitch. -/
theorem rectAddress_le (fb : FbInfo) (i j : Nat) : fb.rectAddress i j ≤ fb.pixel i j := by
  have truncated : sizeofPixelBgr * (fb.pitch.toNat / sizeofPixelBgr) ≤ fb.pitch.toNat :=
    Nat.mul_div_le _ _
  have rows := Nat.mul_le_mul_left j truncated
  rw [Nat.mul_left_comm] at rows
  unfold FbInfo.rectAddress FbInfo.pixel
  rw [Nat.mul_add]
  omega

/-- A pixel of the screen is in the mapped bytes. -/
theorem pixel_inside (geometry : fb.Geometry) {i j : Nat} (column : i < fb.width.toNat)
    (row : j < fb.height.toNat) :
    fb.pixel i j + sizeofPixelBgr ≤ fb.addr.toNat + fb.pitch.toNat * fb.height.toNat := by
  have padded := geometry.padded
  have above : fb.pitch.toNat * (j + 1) ≤ fb.pitch.toNat * fb.height.toNat :=
    Nat.mul_le_mul_left _ row
  rw [Nat.mul_add, Nat.mul_one, Nat.mul_comm _ j] at above
  unfold FbInfo.pixel
  unfold sizeofPixelBgr at *
  omega

/-- A pixel of the screen stored by `putRect` is one of the screen when its column leads to one. -/
theorem visible_rectAddress (geometry : fb.Geometry) {i j : Nat} (column : i < fb.width.toNat)
    (row : j < fb.height.toNat) : fb.Visible (fb.rectAddress i j) ↔
      sizeofPixelBgr ∣ fb.column i j ∧ fb.column i j < sizeofPixelBgr * fb.width.toNat := by
  have inside := Nat.le_trans (Nat.add_le_add_right (rectAddress_le fb i j) sizeofPixelBgr)
    (pixel_inside geometry column row)
  have above : sizeofPixelBgr * (j * (fb.pitch.toNat / sizeofPixelBgr) + i) / fb.pitch.toNat <
      fb.height.toNat := by
    apply Nat.div_lt_of_lt_mul
    unfold FbInfo.rectAddress at inside
    have positive : 0 < sizeofPixelBgr := by decide
    omega
  show fb.Visible (fb.addr.toNat + sizeofPixelBgr * (j * (fb.pitch.toNat / sizeofPixelBgr) + i)) ↔ _
  rw [visible_iff geometry]
  unfold FbInfo.column
  rw [and_iff_left above]

/-! ## Confinement -/

/-- `putPixel` is confined for the pixels of the first quarter of the rows of a framebuffer that is
set up, and for no others. -/
theorem putPixel_confined_iff (geometry : fb.Geometry) (x y : UInt16) (p : Pixel) :
    Confined fb (PixelRefused fb x y) (putPixel fb x y p) ↔
      fb.addr ≠ 0 ∧ x < fb.width ∧ sizeofPixelBgr * y.toNat < fb.height.toNat := by
  constructor
  · rintro ⟨code, stores, returns, stays, refuses⟩
    obtain ⟨rfl, rfl⟩ := putPixel_made returns
    have accepted : ¬ PixelRefused fb x y := fun refused => absurd (refuses refused) (by decide)
    have column : x < fb.width :=
      UInt16.not_le.mp fun outside => accepted (Or.inr (Or.inl outside))
    refine ⟨fun unset => accepted (Or.inl unset), column, ?_⟩
    rcases stays with ⟨negative, -⟩ | visible
    · exact absurd negative (by decide)
    · exact (visible_pixelAddress geometry (UInt16.lt_iff_toNat_lt.mp column)).mp
        (visible _ (List.mem_singleton_self _))
  · rintro ⟨ready, column, quarter⟩
    have visible := (visible_pixelAddress geometry (UInt16.lt_iff_toNat_lt.mp column)).mpr quarter
    obtain ⟨-, -, -, -, -, inside⟩ := id visible
    refine ⟨0, _, putPixel_ok (Nat.le_trans inside geometry.fits), Or.inr ?_, ?_⟩
    · intro s member
      rw [List.mem_singleton.mp member]
      exact visible
    · rintro (unset | outside | below)
      · exact absurd unset ready
      · exact absurd column (UInt16.not_lt.mpr outside)
      · have row := UInt16.le_iff_toNat_le.mp below
        unfold sizeofPixelBgr at quarter
        omega

/-- `putRect` is confined for the rectangles on the screen of a framebuffer that is set up, with
every pixel where the truncated pitch leads to one, and for no others. -/
theorem putRect_confined_iff (geometry : fb.Geometry) (x y width height : UInt16) (p : Pixel) :
    Confined fb (RectRefused fb x y width height) (putRect fb x y width height p) ↔
      fb.addr ≠ 0 ∧ x.toNat + width.toNat ≤ fb.width.toNat ∧
        y.toNat + height.toNat ≤ fb.height.toNat ∧ Straight fb x y width height := by
  constructor
  · rintro ⟨code, stores, returns, stays, refuses⟩
    obtain ⟨rfl, rfl⟩ := putRect_made returns
    have accepted : ¬ RectRefused fb x y width height :=
      fun refused => absurd (refuses refused) (by decide)
    have right : x.toNat + width.toNat ≤ fb.width.toNat :=
      Nat.le_of_not_lt fun outside => accepted (Or.inr (Or.inl outside))
    have bottom : y.toNat + height.toNat ≤ fb.height.toNat :=
      Nat.le_of_not_lt fun outside => accepted (Or.inr (Or.inr outside))
    refine ⟨fun unset => accepted (Or.inl unset), right, bottom, ?_⟩
    intro i left inside j top above
    rcases stays with ⟨negative, -⟩ | visible
    · exact absurd negative (by decide)
    · have member : fb.rectAddress i j ∈ rectStores fb x y width height :=
        mem_rectStores.mpr ⟨i, left, inside, j, top, above, rfl⟩
      have place := visible ⟨fb.rectAddress i j, rgb2bgr p⟩ (List.mem_map_of_mem member)
      exact (visible_rectAddress geometry (Nat.lt_of_lt_of_le inside right)
        (Nat.lt_of_lt_of_le above bottom)).mp place
  · rintro ⟨ready, right, bottom, straight⟩
    have visible : ∀ a ∈ rectStores fb x y width height, fb.Visible a := by
      intro a member
      obtain ⟨i, left, inside, j, top, above, rfl⟩ := mem_rectStores.mp member
      exact (visible_rectAddress geometry (Nat.lt_of_lt_of_le inside right)
        (Nat.lt_of_lt_of_le above bottom)).mpr (straight i left inside j top above)
    refine ⟨0, _, putRect_ok ?_, Or.inr ?_, ?_⟩
    · intro a member
      obtain ⟨-, -, -, -, -, inside⟩ := visible a member
      exact Nat.le_trans inside geometry.fits
    · intro s member
      obtain ⟨a, listed, rfl⟩ := List.mem_map.mp member
      exact visible a listed
    · rintro (unset | outside | below)
      · exact absurd unset ready
      · exact absurd outside (Nat.not_lt_of_le right)
      · exact absurd below (Nat.not_lt_of_le bottom)

/-- With a pitch that is a multiple of the size of a pixel every rectangle on the screen is
straight. -/
theorem straight_of_dvd (geometry : fb.Geometry) (whole : sizeofPixelBgr ∣ fb.pitch.toNat)
    (right : x.toNat + width.toNat ≤ fb.width.toNat) : Straight fb x y width height := by
  intro i left inside j top above
  have small := geometry.column_lt (Nat.lt_of_lt_of_le inside right)
  have place : fb.column i j = sizeofPixelBgr * i := by
    unfold FbInfo.column
    rw [Nat.mul_add, Nat.mul_left_comm, Nat.mul_div_cancel' whole, Nat.add_comm,
      Nat.add_mul_mod_self_right, Nat.mod_eq_of_lt small]
  rw [place]
  exact ⟨Nat.dvd_mul_right _ _,
    Nat.mul_lt_mul_of_pos_left (Nat.lt_of_lt_of_le inside right) (by decide)⟩

/-- Where drawing is confined: a pixel, and a rectangle. -/
theorem draws_confined_iff (geometry : fb.Geometry) (x y width height : UInt16) (p : Pixel) :
    (Confined fb (PixelRefused fb x y) (putPixel fb x y p) ↔
      fb.addr ≠ 0 ∧ x < fb.width ∧ sizeofPixelBgr * y.toNat < fb.height.toNat) ∧
    (Confined fb (RectRefused fb x y width height) (putRect fb x y width height p) ↔
      fb.addr ≠ 0 ∧ x.toNat + width.toNat ≤ fb.width.toNat ∧
        y.toNat + height.toNat ≤ fb.height.toNat ∧ Straight fb x y width height) :=
  ⟨putPixel_confined_iff geometry x y p, putRect_confined_iff geometry x y width height p⟩

/-- A screen of two by two pixels. -/
theorem draws_confined_small :
    Confined ⟨0x8000, 2, 2, 8⟩ (RectRefused ⟨0x8000, 2, 2, 8⟩ 0 0 2 2)
      (putRect ⟨0x8000, 2, 2, 8⟩ 0 0 2 2 ⟨1, 2, 3⟩) := by
  have geometry : FbInfo.Geometry ⟨0x8000, 2, 2, 8⟩ := ⟨by decide, by decide⟩
  exact (draws_confined_iff geometry 0 0 2 2 ⟨1, 2, 3⟩).2.mpr
    ⟨by decide, by decide, by decide, straight_of_dvd geometry (by decide) (by decide)⟩

/-- A pixel in the second row of two. -/
theorem putPixel_outside : ¬ Confined ⟨0x8000, 2, 2, 8⟩ (PixelRefused ⟨0x8000, 2, 2, 8⟩ 0 1)
    (putPixel ⟨0x8000, 2, 2, 8⟩ 0 1 ⟨1, 2, 3⟩) := by
  intro confined
  have quarter := ((putPixel_confined_iff ⟨by decide, by decide⟩ 0 1 ⟨1, 2, 3⟩).mp confined).2.2
  exact absurd quarter (by decide)

end FelineOS.Framebuffer
