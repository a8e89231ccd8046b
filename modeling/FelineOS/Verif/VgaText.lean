import FelineOS.Kernel.VgaText

/-!
# The cursor and the cells of the text terminal

From a cursor on the screen every byte leads to a cursor on the screen, changes at most one cell
or scrolls by a line, and never leaves the video memory.
-/

namespace FelineOS.VgaText

open Library

variable {t : VgaTextTerm} {cells : Cells} {c : UInt8} {signedChar : Bool}

/-- The cursor is on the screen. -/
structure VgaTextTerm.InScreen (t : VgaTextTerm) : Prop where
  /-- Its column. -/
  x : t.x.toNat < vgaTextWidth
  /-- Its row. -/
  y : t.y.toNat < vgaTextHeight

/-- The control codes with a branch of their own. -/
def Handled (c : UInt8) : Prop :=
  c = 0x0A ∨ c = 0x0D ∨ c = 0x09 ∨ c = 0x08 ∨ c = 0x7F ∨ c = 0x1B

instance : DecidablePred Handled := fun c => inferInstanceAs (Decidable (c = 0x0A ∨ _))

/-- The byte moves the cursor below the last row: a newline there, or a character in its last
column. -/
def LeavesScreen (t : VgaTextTerm) (c : UInt8) : Prop :=
  t.y.toNat = 24 ∧ (c = 0x0A ∨ ¬ Handled c ∧ t.x.toNat = 79)

/-- The cells with that of the byte, if it has one, written. -/
def ownCell (t : VgaTextTerm) (c : UInt8) (cells : Cells) : Cells :=
  if c = 0x0A then cells
  else Function.update cells (t.y.toNat * vgaTextWidth + t.x.toNat) (vgaEntry c t.color)

/-- Every row holds what the next one held, and the last one the fill value. -/
structure Scrolled (color : UInt8) (before after : Cells) : Prop where
  /-- The rows above the last one. -/
  rows : ∀ row < 24, ∀ column < 80, after (row * 80 + column) = before ((row + 1) * 80 + column)
  /-- The last row. -/
  last : ∀ column < 80, after (24 * 80 + column) = fillValue color

/-- At most one cell has changed. -/
def OneCell (before after : Cells) : Prop := ∃ place, ∀ index, index ≠ place →
  after index = before index

/-- What a byte does to a terminal with a cursor on the screen. -/
structure Shown (t : VgaTextTerm) (cells : Cells) (c : UInt8) (after : VgaTextTerm) (now : Cells) :
    Prop where
  /-- The video memory stays mapped, with these cells. -/
  mapped : after.vgaHardwareMem = some now
  /-- The color stays. -/
  color : after.color = t.color
  /-- The cursor stays on the screen. -/
  inScreen : after.InScreen
  /-- The screen is scrolled by a row when the cursor would leave it. -/
  scrolled : LeavesScreen t c → Scrolled t.color (ownCell t c cells) now
  /-- Otherwise no more than a cell changes. -/
  cell : ¬ LeavesScreen t c → OneCell cells now

/-! ## Scrolling -/

/-- A row is copied over another. -/
theorem memcpy_row {line : Nat} (inside : line < 24) (cells : Cells) :
    ∃ copied, memcpy (line * vgaTextWidth) ((line + 1) * vgaTextWidth) vgaTextWidth cells =
      .ok copied ∧ ∀ index, copied index =
        if line * 80 ≤ index ∧ index < (line + 1) * 80 then cells (index + 80)
        else cells index := by
  have bound {i : Nat} (member : i ∈ List.range vgaTextWidth) : i < 80 := List.mem_range.mp member
  refine ⟨_, transferInside_eq _ ?_ ?_ cells, ?_⟩
  · intro i member
    have small := bound member
    show line * 80 + i < 80 * 25
    omega
  · intro i member
    have small := bound member
    show (line + 1) * 80 + i < 80 * 25
    omega
  · intro index
    by_cases row : line * 80 ≤ index ∧ index < (line + 1) * 80
    · have undisturbed : Undisturbed (fun i => line * vgaTextWidth + i)
          (fun i => (line + 1) * vgaTextWidth + i) (List.range vgaTextWidth) := by
        apply undisturbed_range
        intro i j ordered small
        unfold vgaTextWidth at *
        omega
      have member : index - line * 80 ∈ List.range vgaTextWidth := by
        rw [List.mem_range]
        unfold vgaTextWidth
        omega
      have moved := transfer_target undisturbed member cells
      have here : line * vgaTextWidth + (index - line * 80) = index := by
        unfold vgaTextWidth
        omega
      have below : (line + 1) * vgaTextWidth + (index - line * 80) = index + 80 := by
        unfold vgaTextWidth
        omega
      simp only [here, below] at moved
      rw [if_pos row]
      exact moved
    · rw [if_neg row]
      apply transfer_frame
      intro i member place
      have small := bound member
      unfold vgaTextWidth at place
      omega

/-- The loop over the lines moves the rows above the last one. -/
theorem lines_spec {count : Nat} (inside : count ≤ 24) (cells : Cells) :
    ∃ moved, (List.range count).foldlM (fun cells line =>
        memcpy (line * vgaTextWidth) ((line + 1) * vgaTextWidth) vgaTextWidth cells) cells =
      .ok moved ∧ ∀ index, moved index =
        if index < count * 80 then cells (index + 80) else cells index := by
  induction count with
  | zero =>
    refine ⟨cells, rfl, fun index => ?_⟩
    rw [if_neg (by omega)]
  | succ count ih =>
    obtain ⟨moved, same, above⟩ := ih (Nat.le_of_succ_le inside)
    obtain ⟨copied, row, values⟩ := memcpy_row (Nat.lt_of_succ_le inside) moved
    refine ⟨copied, ?_, fun index => ?_⟩
    · rw [List.range_succ, List.foldlM_append, same, ok_bind, List.foldlM_cons, row, ok_bind]
      rfl
    · rw [values]
      by_cases last : count * 80 ≤ index ∧ index < (count + 1) * 80
      · rw [if_pos last, if_pos last.2, above, if_neg (by omega)]
      · rw [if_neg last, above]
        by_cases before : index < count * 80
        · rw [if_pos before, if_pos (by omega)]
        · rw [if_neg before, if_neg (by omega)]

/-- `memset` of the last row fills it. -/
theorem memset_last (value : UInt16) (cells : Cells) : ∃ filled,
    memset ((vgaTextHeight - 1) * vgaTextWidth) value vgaTextWidth cells = .ok filled ∧
      (∀ column < 80, filled (24 * 80 + column) = value) ∧
      ∀ index < 24 * 80, filled index = cells index := by
  have inside : ∀ i ∈ List.range vgaTextWidth,
      InMemory ((vgaTextHeight - 1) * vgaTextWidth + i) := by
    intro i member
    have small := List.mem_range.mp member
    unfold InMemory vgaTextHeight vgaTextWidth at *
    omega
  obtain ⟨filled, same, values, others⟩ := fillInside_spec Fault.undefined value inside cells
  refine ⟨filled, same, ?_, ?_⟩
  · intro column small
    exact values column (List.mem_range.mpr small)
  · intro index above
    apply others
    intro i _
    unfold vgaTextHeight vgaTextWidth
    omega

/-- `scroll` moves the rows up and fills the last one. -/
theorem scroll_spec (color : UInt8) (cells : Cells) :
    ∃ now, scroll color cells = .ok now ∧ Scrolled color cells now := by
  have lines : vgaTextHeight - 1 = 24 := rfl
  obtain ⟨moved, same, rows⟩ := lines_spec (Nat.le_of_eq lines) cells
  obtain ⟨now, filled, values, others⟩ := memset_last (fillValue color) moved
  refine ⟨now, ?_, ?_, values⟩
  · unfold scroll
    rw [same, ok_bind]
    exact filled
  · intro row above column inside
    rw [others _ (by omega), rows, lines, if_pos (by omega)]
    apply congrArg
    omega

/-! ## Moving the cursor -/

/-- With the cursor on the screen, its cell is in the video memory. -/
theorem store_spec (inside : t.InScreen) (value : UInt16) (cells : Cells) :
    store t value cells =
      .ok (Function.update cells (t.y.toNat * vgaTextWidth + t.x.toNat) value) := by
  have column := inside.x
  have row := inside.y
  apply if_pos
  unfold InMemory vgaTextWidth vgaTextHeight at *
  omega

/-- A byte further than a position on the screen. -/
theorem succ_toNat {n : UInt8} (small : n.toNat < 80) : (n + 1).toNat = n.toNat + 1 := by
  rw [UInt8.toNat_add, UInt8.toNat_one]
  omega

/-- A byte before a position that is not the first. -/
theorem pred_toNat {n : UInt8} (positive : n ≠ 0) : (n - 1).toNat = n.toNat - 1 := by
  have one : (1 : UInt8) ≤ n := UInt8.le_iff_toNat_le.mpr
    (Nat.pos_of_ne_zero fun zero => positive (UInt8.toNat_inj.mp zero))
  exact UInt8.toNat_sub_of_le _ _ one

/-- The first column is on the screen. -/
theorem front_inScreen (inside : t.InScreen) : ({ t with x := 0 } : VgaTextTerm).InScreen :=
  ⟨show (0 : UInt8).toNat < vgaTextWidth by decide, inside.y⟩

/-- A line further the cursor is a row lower, or the screen is scrolled. -/
theorem nextLine_spec (inside : t.InScreen) (cells : Cells) : ∃ after now,
    nextLine t cells = .ok (after, 0) ∧ after.vgaHardwareMem = some now ∧
      after.color = t.color ∧ after.InScreen ∧ (t.y.toNat = 24 → Scrolled t.color cells now) ∧
      (t.y.toNat ≠ 24 → now = cells) := by
  have row := inside.y
  have moved : (t.y + 1).toNat = t.y.toNat + 1 := succ_toNat (Nat.lt_trans row (by decide))
  unfold nextLine
  by_cases last : t.y.toNat = 24
  · have below : vgaTextHeight ≤ (t.y + 1).toNat := by
      unfold vgaTextHeight
      omega
    have back : t.y + 1 - 1 = t.y := UInt8.add_sub_cancel _ _
    obtain ⟨now, same, scrolled⟩ := scroll_spec t.color cells
    refine ⟨{ t with vgaHardwareMem := some now, y := t.y + 1 - 1 }, now, ?_, rfl, rfl, ?_,
      fun _ => scrolled, fun other => absurd last other⟩
    · rw [if_pos below, same]
      rfl
    · refine ⟨inside.x, ?_⟩
      rw [back]
      exact row
  · have above : (t.y + 1).toNat < vgaTextHeight := by
      unfold vgaTextHeight at *
      omega
    refine ⟨{ t with vgaHardwareMem := some cells, y := t.y + 1 }, cells, ?_, rfl, rfl,
      ⟨inside.x, above⟩, fun wrong => absurd wrong last, fun _ => rfl⟩
    rw [if_neg (Nat.not_le_of_lt above)]
    rfl

/-- A tab leaves the cursor in its row. -/
theorem tab_spec (inside : t.InScreen) : (tab t).InScreen ∧ (tab t).color = t.color ∧
    (tab t).vgaHardwareMem = t.vgaHardwareMem := by
  unfold tab
  by_cases far : vgaTextWidth ≤ (t.x + (tabStop - t.x % tabStop)).toNat
  · rw [if_pos far]
    exact ⟨⟨by show (79 : UInt8).toNat < vgaTextWidth; decide, inside.y⟩, rfl, rfl⟩
  · rw [if_neg far]
    exact ⟨⟨Nat.lt_of_not_le far, inside.y⟩, rfl, rfl⟩

/-! ## Bytes -/

/-- One cell is written and the cursor stays on the screen. -/
theorem shown_cell {after : VgaTextTerm} {place : Nat} {value : UInt16} (stays : ¬ LeavesScreen t c)
    (mapped : after.vgaHardwareMem = some (Function.update cells place value))
    (color : after.color = t.color) (inScreen : after.InScreen) :
    Shown t cells c after (Function.update cells place value) :=
  ⟨mapped, color, inScreen, fun leaves => absurd leaves stays,
    fun _ => ⟨place, fun _ other => Function.update_of_ne other _ _⟩⟩

/-- No cell is written and the cursor stays on the screen. -/
theorem shown_none {after : VgaTextTerm} (stays : ¬ LeavesScreen t c)
    (mapped : after.vgaHardwareMem = some cells) (color : after.color = t.color)
    (inScreen : after.InScreen) : Shown t cells c after cells :=
  ⟨mapped, color, inScreen, fun leaves => absurd leaves stays, fun _ => ⟨0, fun _ _ => rfl⟩⟩

/-- A control code other than a newline keeps the cursor on the screen. -/
theorem stays_of_handled (handled : Handled c) (other : c ≠ 0x0A) : ¬ LeavesScreen t c := by
  rintro ⟨-, newline | ⟨normal, -⟩⟩
  · exact other newline
  · exact normal handled

/-- A newline. -/
theorem newline_shown (inside : t.InScreen) (cells : Cells) : ∃ after now,
    nextLine { t with x := 0 } cells = .ok (after, 0) ∧ Shown t cells 0x0A after now := by
  obtain ⟨after, now, same, mapped, color, inScreen, scrolled, kept⟩ :=
    nextLine_spec (front_inScreen inside) cells
  refine ⟨after, now, same, mapped, color, inScreen, ?_, ?_⟩
  · rintro ⟨last, -⟩
    unfold ownCell
    rw [if_pos rfl]
    exact scrolled last
  · intro stays
    have above : t.y.toNat ≠ 24 := fun last => stays ⟨last, Or.inl rfl⟩
    rw [kept above]
    exact ⟨0, fun _ _ => rfl⟩

/-- A cell is blanked where the cursor is. -/
theorem delete_eq (inside : t.InScreen) (cells : Cells) : delete t cells =
    .ok ({ t with vgaHardwareMem := some (Function.update cells
      (t.y.toNat * vgaTextWidth + t.x.toNat) (vgaEntry 0x20 t.color)) }, 0) := by
  unfold delete
  rw [store_spec inside]
  rfl

/-- A backspace. -/
theorem backspace_shown (inside : t.InScreen) (mapped : t.vgaHardwareMem = some cells) :
    ∃ after now, backspace t cells = .ok (after, 0) ∧ Shown t cells 0x08 after now := by
  have stays : ¬ LeavesScreen t 0x08 := stays_of_handled (by decide) (by decide)
  have row := inside.y
  have column := inside.x
  unfold backspace
  by_cases start : t.x = 0
  · rw [if_pos start]
    by_cases first : t.y = 0
    · rw [if_pos first]
      exact ⟨t, cells, rfl, shown_none stays mapped rfl inside⟩
    · have back : ({ t with y := t.y - 1, x := 79 } : VgaTextTerm).InScreen := by
        refine ⟨by show (79 : UInt8).toNat < vgaTextWidth; decide, ?_⟩
        show (t.y - 1).toNat < vgaTextHeight
        rw [pred_toNat first]
        omega
      rw [if_neg first]
      exact ⟨_, _, delete_eq back cells, shown_cell stays rfl rfl ⟨back.x, back.y⟩⟩
  · have back : ({ t with x := t.x - 1 } : VgaTextTerm).InScreen := by
      refine ⟨?_, row⟩
      show (t.x - 1).toNat < vgaTextWidth
      rw [pred_toNat start]
      omega
    rw [if_neg start]
    exact ⟨_, _, delete_eq back cells, shown_cell stays rfl rfl ⟨back.x, back.y⟩⟩

/-- A normal character. -/
theorem normal_shown (inside : t.InScreen) (character : ¬ Handled c) (cells : Cells) :
    ∃ after now, normal c t cells = .ok (after, 0) ∧ Shown t cells c after now := by
  have column := inside.x
  have moved : (t.x + 1).toNat = t.x.toNat + 1 := succ_toNat column
  have own : ownCell t c cells =
      Function.update cells (t.y.toNat * vgaTextWidth + t.x.toNat) (vgaEntry c t.color) :=
    if_neg fun newline => character (Or.inl newline)
  unfold normal
  rw [store_spec inside, ok_bind, ← own]
  by_cases wraps : vgaTextWidth ≤ (t.x + 1).toNat
  · obtain ⟨after, now, same, mapped, color, inScreen, scrolled, kept⟩ :=
      nextLine_spec (front_inScreen inside) (ownCell t c cells)
    rw [if_pos wraps]
    refine ⟨after, now, same, mapped, color, inScreen, ?_, ?_⟩
    · rintro ⟨last, -⟩
      exact scrolled last
    · intro stays
      have above : t.y.toNat ≠ 24 := by
        intro last
        apply stays
        refine ⟨last, Or.inr ⟨character, ?_⟩⟩
        unfold vgaTextWidth at *
        omega
      rw [kept above, own]
      exact ⟨_, fun _ other => Function.update_of_ne other _ _⟩
  · have stays : ¬ LeavesScreen t c := by
      rintro ⟨-, newline | ⟨-, last⟩⟩
      · exact character (Or.inl newline)
      · unfold vgaTextWidth at *
        omega
    rw [if_neg wraps, own]
    exact ⟨_, _, rfl, shown_cell stays rfl rfl ⟨Nat.lt_of_not_le wraps, inside.y⟩⟩

/-- A byte without a branch of its own is a normal character, whether or not it is a control
code. -/
theorem putchar_normal (mapped : t.vgaHardwareMem = some cells) (character : ¬ Handled c) :
    putchar signedChar c t = normal c t cells := by
  unfold Handled at character
  unfold putchar
  rw [mapped]
  dsimp only
  split
  · split
    · exact absurd (Or.inl rfl) character
    · exact absurd (by simp) character
    · exact absurd (by simp) character
    · exact absurd (by simp) character
    · exact absurd (by simp) character
    · exact absurd (by simp) character
    · rfl
  · rfl

/-- The control codes with a branch are control codes. -/
theorem iscntrl_handled (handled : Handled c) : iscntrl (charValue signedChar c) = true := by
  rcases handled with rfl | rfl | rfl | rfl | rfl | rfl <;> cases signedChar <;> decide

/-- With the cursor on the screen, `putchar` shows its byte. -/
theorem putchar_shown (inside : t.InScreen) (mapped : t.vgaHardwareMem = some cells)
    (signedChar : Bool) (c : UInt8) :
    ∃ after now, putchar signedChar c t = .ok (after, 0) ∧ Shown t cells c after now := by
  by_cases handled : Handled c
  · have control : iscntrl (charValue signedChar c) = true := iscntrl_handled handled
    unfold putchar
    rw [mapped]
    dsimp only
    rw [if_pos control]
    rcases handled with rfl | rfl | rfl | rfl | rfl | rfl
    · exact newline_shown inside cells
    · exact ⟨_, cells, rfl, shown_none (stays_of_handled (by decide) (by decide)) rfl rfl
        ⟨(front_inScreen inside).x, inside.y⟩⟩
    · obtain ⟨inScreen, color, memory⟩ := tab_spec inside
      exact ⟨_, cells, rfl, shown_none (stays_of_handled (by decide) (by decide))
        (memory.trans mapped) color inScreen⟩
    · exact backspace_shown inside mapped
    · exact ⟨_, _, delete_eq inside cells,
        shown_cell (stays_of_handled (by decide) (by decide)) rfl rfl ⟨inside.x, inside.y⟩⟩
    · exact ⟨t, cells, rfl, shown_none (stays_of_handled (by decide) (by decide)) mapped rfl
        inside⟩
  · rw [putchar_normal mapped handled]
    exact normal_shown inside handled cells

/-! ## Sequences of bytes -/

/-- Bytes leave the cursor on the screen. -/
theorem putchars_spec (signedChar : Bool) (bytes : List UInt8) (inside : t.InScreen)
    (mapped : t.vgaHardwareMem = some cells) : ∃ after now,
      putchars signedChar bytes t = .ok after ∧ after.vgaHardwareMem = some now ∧
      after.color = t.color ∧ after.InScreen := by
  induction bytes generalizing t cells with
  | nil => exact ⟨t, cells, rfl, mapped, rfl, inside⟩
  | cons c bytes ih =>
    obtain ⟨next, between, first, shown⟩ := putchar_shown inside mapped signedChar c
    obtain ⟨after, now, rest, still, color, inScreen⟩ := ih shown.inScreen shown.mapped
    refine ⟨after, now, ?_, still, color.trans shown.color, inScreen⟩
    rw [putchars, first]
    exact rest

/-- `putstr` does, too. -/
theorem putstr_inScreen (signedChar : Bool) (s : Printf.CString) (inside : t.InScreen)
    (mapped : t.vgaHardwareMem = some cells) :
    ∃ after, putstr signedChar s t = .ok (after, 0) ∧ after.InScreen := by
  obtain ⟨after, now, same, -, -, inScreen⟩ := putchars_spec signedChar s.chars inside mapped
  refine ⟨after, ?_, inScreen⟩
  unfold putstr
  rw [mapped]
  dsimp only
  rw [same]
  rfl

/-- Whatever bytes came before, from a cursor in the first cell on: the cursor is on the screen,
every store has stayed in the video memory, and the next byte writes at most one cell or scrolls
by a line. -/
theorem putchars_shown (signedChar : Bool) (cells : Cells) (color : UInt8) (bytes : List UInt8)
    (c : UInt8) : ∃ t shown, putchars signedChar bytes ⟨some cells, 0, 0, color⟩ = .ok t ∧
      t.vgaHardwareMem = some shown ∧ t.color = color ∧ t.InScreen ∧
      ∃ after now, putchar signedChar c t = .ok (after, 0) ∧ Shown t shown c after now := by
  have start : (⟨some cells, 0, 0, color⟩ : VgaTextTerm).InScreen := ⟨by
    show (0 : UInt8).toNat < vgaTextWidth
    decide, by
    show (0 : UInt8).toNat < vgaTextHeight
    decide⟩
  obtain ⟨t, shown, same, mapped, kept, inside⟩ := putchars_spec signedChar bytes start rfl
  exact ⟨t, shown, same, mapped, kept, inside, putchar_shown inside mapped signedChar c⟩

end FelineOS.VgaText
