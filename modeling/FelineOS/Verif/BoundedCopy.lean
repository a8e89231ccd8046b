import FelineOS.Verif.Strings

/-!
# What `strlcpy` and `strlcat` leave in a buffer

Both copy up to the end of the buffer and do not terminate a string that is cut off; `strlcat` then
returns the number of characters it copied.
-/

namespace FelineOS.Strings

open Printf (CString)
open Strtoul (read)

variable {src : CString} {chars front rest before mid tail behind : List UInt8}
  {place remaining : Nat} {x : UInt8}

/-- A destination with room for a NUL. -/
structure Buffer where
  /-- Its bytes. -/
  bytes : List UInt8
  /-- There is one. -/
  nonempty : 0 < bytes.length
  /-- An object is no larger than `PTRDIFF_MAX`. -/
  object : bytes.length ≤ 0x7FFFFFFF

/-- A destination with a string in it. -/
structure Holding where
  /-- The string. -/
  old : CString
  /-- The bytes behind its NUL. -/
  junk : List UInt8
  /-- An object is no larger than `PTRDIFF_MAX`. -/
  object : (array old junk).length ≤ 0x7FFFFFFF

/-- Its bytes. -/
def Holding.bytes (dest : Holding) : List UInt8 := array dest.old dest.junk

/-- The buffer has its size and starts with the longest part of the text that fits and a NUL. -/
def Terminated (text : List UInt8) (n : Nat) (after : List UInt8) : Prop :=
  after.length = n ∧ text.take (n - 1) ++ [0] <+: after

/-- `strlcpy` with the size of the buffer leaves as much of the string as fits in it, terminated,
and returns the length of the string. -/
def Copies (dest : Buffer) (src : CString) : Prop :=
  ∀ behind, ∃ after, strlcpy dest.bytes (array src behind) dest.bytes.length =
    .ok (after, src.chars.length) ∧ Terminated src.chars dest.bytes.length after

/-- `strlcat` with the size of the buffer leaves as much of both strings as fits in it, terminated,
and returns the length of both. -/
def Appends (dest : Holding) (src : CString) : Prop :=
  ∀ behind, ∃ after,
    strlcat dest.bytes (array src behind) dest.bytes.length =
      .ok (after, dest.old.chars.length + src.chars.length) ∧
    Terminated (dest.old.chars ++ src.chars) dest.bytes.length after

/-! ## The loop -/

/-- A character behind a front is assigned to. -/
theorem put_front (before : List UInt8) (x c : UInt8) (tail : List UInt8) :
    put (before ++ x :: tail) before.length c = .ok (before ++ c :: tail) := by
  have inside : before.length < (before ++ x :: tail).length := by
    rw [List.length_append, List.length_cons]
    omega
  rw [put, if_pos inside, List.set_append_right _ _ (Nat.le_refl _), Nat.sub_self]
  rfl

/-- The loop copies characters that are no NUL. -/
theorem copyFrom_chars (noNul : 0 ∉ chars) (aligned : before.length = place + front.length)
    (room : mid.length = chars.length) :
    copyFrom (front ++ (chars ++ rest)) place (chars.length + remaining) front.length
      (before ++ (mid ++ tail)) =
    copyFrom ((front ++ chars) ++ rest) place remaining (front ++ chars).length
      ((before ++ chars) ++ tail) := by
  induction chars generalizing front before mid with
  | nil =>
    have nothing : mid = [] := List.length_eq_zero_iff.mp room
    rw [nothing, List.nil_append, List.nil_append, List.append_nil, List.append_nil,
      List.length_nil, Nat.zero_add]
  | cons c chars ih =>
    cases mid with
    | nil => exact nomatch room
    | cons x mid =>
      have visible : c ≠ 0 := fun nul => noNul (nul ▸ List.mem_cons_self)
      have count : (c :: chars).length + remaining = chars.length + remaining + 1 := by
        rw [List.length_cons]
        omega
      have next : (before ++ [c]).length = place + (front ++ [c]).length := by
        rw [List.length_append, List.length_append, List.length_singleton]
        omega
      rw [count, List.cons_append, List.cons_append, copyFrom, read_front, ok_bind, ← aligned,
        put_front, ok_bind, if_neg visible, append_cons_eq front c (chars ++ rest),
        append_cons_eq before c (mid ++ tail), length_succ front c,
        ih (fun member => noNul (List.mem_cons_of_mem c member)) next
          (Nat.succ.inj room), ← append_cons_eq front c chars, ← append_cons_eq before c chars]

/-- A string with room behind it for its NUL is copied with the NUL. -/
theorem copyFrom_fits (s : CString) (behind : List UInt8) (room : mid.length = s.chars.length) :
    copyFrom (array s behind) before.length (s.chars.length + (remaining + 1)) 0
      (before ++ (mid ++ x :: tail)) =
    .ok (before ++ (s.chars ++ 0 :: tail), some s.chars.length) := by
  have passed := @copyFrom_chars s.chars [] (0 :: behind) before mid (x :: tail) before.length
    (remaining + 1) s.noNul rfl room
  rw [List.nil_append, List.nil_append, List.length_nil] at passed
  have here : before.length + s.chars.length = (before ++ s.chars).length :=
    List.length_append.symm
  rw [array, passed, copyFrom, read_front, ok_bind, here, put_front, ok_bind, if_pos rfl,
    List.append_assoc]
  rfl

/-- Of a string with no room for its NUL the characters are copied for which there is room. -/
theorem copyFrom_truncates (s : CString) (behind : List UInt8)
    (short : mid.length ≤ s.chars.length) :
    copyFrom (array s behind) before.length mid.length 0 (before ++ (mid ++ tail)) =
    .ok (before ++ (s.chars.take mid.length ++ tail), none) := by
  have noNul : 0 ∉ s.chars.take mid.length := fun member => s.noNul (List.mem_of_mem_take member)
  have room : mid.length = (s.chars.take mid.length).length := by
    rw [List.length_take]
    omega
  have parts : array s behind =
      s.chars.take mid.length ++ (s.chars.drop mid.length ++ 0 :: behind) := by
    rw [← List.append_assoc, List.take_append_drop]
    rfl
  have passed := @copyFrom_chars (s.chars.take mid.length) []
    (s.chars.drop mid.length ++ 0 :: behind) before mid tail before.length 0 noNul rfl room
  rw [List.nil_append, List.nil_append, List.length_nil, ← parts, Nat.add_zero, ← room] at passed
  rw [passed, copyFrom, List.append_assoc]

/-- A list is split at one of its elements. -/
theorem exists_split {bytes : List UInt8} {k : Nat} (inside : k < bytes.length) :
    ∃ mid x tail, bytes = mid ++ x :: tail ∧ mid.length = k := by
  refine ⟨bytes.take k, bytes[k], bytes.drop (k + 1), ?_, List.length_take_of_le (by omega)⟩
  rw [← List.drop_eq_getElem_cons inside, List.take_append_drop]

/-! ## `strlcpy` -/

/-- A string that fits is copied with its NUL. -/
theorem strlcpy_fits (s : CString) (behind : List UInt8) (room : mid.length = s.chars.length) :
    strlcpy (mid ++ x :: tail) (array s behind) (mid ++ x :: tail).length =
      .ok (s.chars ++ 0 :: tail, s.chars.length) := by
  have size : (mid ++ x :: tail).length = s.chars.length + (tail.length + 1) := by
    rw [List.length_append, List.length_cons, room]
  have copied := @copyFrom_fits [] mid tail tail.length x s behind room
  rw [List.nil_append, List.nil_append, List.length_nil] at copied
  rw [strlcpy, size, copied]
  rfl

/-- A string that does not fit fills the buffer. -/
theorem strlcpy_truncates (s : CString) (behind : List UInt8) {bytes : List UInt8}
    (short : bytes.length ≤ s.chars.length) :
    strlcpy bytes (array s behind) bytes.length =
      .ok (s.chars.take bytes.length, s.chars.length) := by
  have copied := @copyFrom_truncates [] bytes [] s behind short
  rw [List.nil_append, List.nil_append, List.append_nil, List.append_nil, List.length_nil] at copied
  rw [strlcpy, copied, ok_bind]
  show (strlen (array s behind) >>= fun length => _) = _
  rw [strlen_array]
  rfl

/-- `strlcpy` does what it is for just when the string fits. -/
theorem copies_iff (dest : Buffer) (src : CString) :
    Copies dest src ↔ src.chars.length < dest.bytes.length := by
  constructor
  · intro copies
    obtain ⟨after, result, -, start⟩ := copies []
    by_contra long
    rw [strlcpy_truncates src [] (Nat.not_lt.mp long)] at result
    obtain ⟨rfl, -⟩ := Prod.mk.inj (Except.ok.inj result)
    have nul : 0 ∈ src.chars.take dest.bytes.length :=
      start.subset (List.mem_append_right _ List.mem_cons_self)
    exact src.noNul (List.mem_of_mem_take nul)
  · intro fits behind
    obtain ⟨mid, x, tail, bytes, room⟩ := exists_split fits
    rw [bytes]
    refine ⟨_, strlcpy_fits src behind room, ?_, ?_⟩
    · rw [List.length_append, List.length_append, List.length_cons, List.length_cons, room]
    · have whole : src.chars.length ≤ (mid ++ x :: tail).length - 1 := by
        rw [List.length_append, List.length_cons]
        omega
      rw [List.take_of_length_le whole]
      exact ⟨tail, List.append_assoc _ _ _⟩

/-! ## `strlcat` -/

/-- The bytes of a destination: its string, a NUL and what is behind it. -/
theorem length_bytes (dest : Holding) :
    dest.bytes.length = dest.old.chars.length + (dest.junk.length + 1) := by
  rw [Holding.bytes, array, List.length_append, List.length_cons]

/-- The room behind the string, without the last byte. -/
theorem strlcat_room (dest : Holding) :
    wrapSub (wrapSub dest.bytes.length dest.old.chars.length) 1 = dest.junk.length := by
  have object := dest.object
  have size := length_bytes dest
  have limit : wordLimit = 0x100000000 := rfl
  have small : dest.bytes.length < wordLimit := Nat.lt_of_le_of_lt object (by decide)
  rw [wrapSub_of_le (by omega) small, wrapSub_of_le (by omega) (by omega)]
  omega

/-- What `strlcat` comes to from its loop. -/
theorem strlcat_copied (dest : Holding) {array' after : List UInt8} {nul : Option Nat}
    (copied : copyFrom array' dest.old.chars.length dest.junk.length 0 dest.bytes =
      .ok (after, nul)) :
    strlcat dest.bytes array' dest.bytes.length =
      .ok (after, nul.elim dest.junk.length (dest.old.chars.length + ·)) := by
  have length : strlen dest.bytes = .ok dest.old.chars.length := strlen_array _ _
  rw [strlcat, length, ok_bind]
  simp only [strlcat_room, copied, ok_bind]
  cases nul with
  | none => rfl
  | some count => rfl

/-- A string that fits with room to spare is appended with its NUL. -/
theorem strlcat_fits (dest : Holding) (s : CString) (behind : List UInt8)
    (junk : 0 :: dest.junk = mid ++ x :: tail) (room : mid.length = s.chars.length)
    (spare : tail ≠ []) :
    strlcat dest.bytes (array s behind) dest.bytes.length =
      .ok (dest.old.chars ++ (s.chars ++ 0 :: tail), dest.old.chars.length + s.chars.length) := by
  obtain ⟨y, more, rfl⟩ := List.exists_cons_of_ne_nil spare
  have size := congrArg List.length junk
  rw [List.length_cons, List.length_append, List.length_cons, List.length_cons] at size
  have count : dest.junk.length = s.chars.length + (more.length + 1) := by omega
  have bytes : dest.bytes = dest.old.chars ++ (mid ++ x :: y :: more) := by
    rw [← junk]
    rfl
  have copied := @copyFrom_fits dest.old.chars mid (y :: more) more.length x s behind room
  rw [← bytes, ← count] at copied
  exact strlcat_copied dest copied

/-- Of a longer string as many characters are appended as there is room in front of the last
byte. -/
theorem strlcat_truncates (dest : Holding) (s : CString) (behind : List UInt8)
    (junk : 0 :: dest.junk = mid ++ [x]) (short : mid.length ≤ s.chars.length) :
    strlcat dest.bytes (array s behind) dest.bytes.length =
      .ok (dest.old.chars ++ (s.chars.take mid.length ++ [x]), mid.length) := by
  have size := congrArg List.length junk
  rw [List.length_cons, List.length_append, List.length_singleton] at size
  have count : dest.junk.length = mid.length := by omega
  have bytes : dest.bytes = dest.old.chars ++ (mid ++ [x]) := by
    rw [← junk]
    rfl
  have copied := @copyFrom_truncates dest.old.chars mid [x] s behind short
  rw [← bytes, ← count] at copied
  rw [strlcat_copied dest copied, ← count]
  rfl

/-- With room to spare `strlcat` does what it is for. -/
theorem appends_fits (dest : Holding) (src : CString)
    (fits : dest.old.chars.length + src.chars.length + 1 < dest.bytes.length) :
    Appends dest src := by
  intro behind
  have size := length_bytes dest
  have inside : src.chars.length < (0 :: dest.junk).length := by
    rw [List.length_cons]
    omega
  obtain ⟨mid, x, tail, junk, room⟩ := exists_split inside
  have total := congrArg List.length junk
  rw [List.length_cons, List.length_append, List.length_cons] at total
  have spare : tail ≠ [] := by
    intro none
    rw [none, List.length_nil] at total
    omega
  refine ⟨_, strlcat_fits dest src behind junk room spare, ?_, ?_⟩
  · rw [List.length_append, List.length_append, List.length_cons]
    omega
  · have whole : (dest.old.chars ++ src.chars).length ≤ dest.bytes.length - 1 := by
      rw [List.length_append]
      omega
    rw [List.take_of_length_le whole]
    exact ⟨tail, by rw [List.append_assoc, List.append_assoc]; rfl⟩

/-- Without it `strlcat` does so only by the last byte and the length of the string alone. -/
theorem appends_truncates (dest : Holding) (src : CString)
    (junk : 0 :: dest.junk = mid ++ [x]) (short : mid.length ≤ src.chars.length) :
    Appends dest src ↔ dest.old.chars = [] ∧ src.chars.length = mid.length ∧ x = 0 := by
  have size := length_bytes dest
  have total := congrArg List.length junk
  rw [List.length_cons, List.length_append, List.length_singleton] at total
  constructor
  · intro appends
    obtain ⟨after, result, -, start⟩ := appends []
    rw [strlcat_truncates dest src [] junk short] at result
    obtain ⟨rfl, returned⟩ := Prod.mk.inj (Except.ok.inj result)
    have empty : dest.old.chars = [] := List.length_eq_zero_iff.mp (by omega)
    have nul : 0 ∈ dest.old.chars ++ (src.chars.take mid.length ++ [x]) :=
      start.subset (List.mem_append_right _ List.mem_cons_self)
    rw [empty, List.nil_append] at nul
    refine ⟨empty, by omega, ?_⟩
    rcases List.mem_append.mp nul with copied | here
    · exact absurd (List.mem_of_mem_take copied) src.noNul
    · exact (List.mem_singleton.mp here).symm
  · rintro ⟨empty, all, rfl⟩ behind
    have none : dest.old.chars.length = 0 := List.length_eq_zero_iff.mpr empty
    refine ⟨src.chars ++ [0], ?_, ?_, ?_⟩
    · rw [strlcat_truncates dest src behind junk short, empty, List.nil_append,
        List.take_of_length_le (Nat.le_of_eq all), List.length_nil, Nat.zero_add, all]
    · rw [List.length_append, List.length_singleton]
      omega
    · have whole : src.chars.length ≤ dest.bytes.length - 1 := by omega
      have text : (dest.old.chars ++ src.chars).take (dest.bytes.length - 1) = src.chars := by
        rw [empty, List.nil_append, List.take_of_length_le whole]
      exact ⟨[], by rw [List.append_nil, text]⟩

/-- `strlcat` does what it is for just when there is room to spare, or when it is to append to an
empty string one that fills the buffer and the last byte is a NUL already. -/
theorem appends_iff (dest : Holding) (src : CString) :
    Appends dest src ↔ dest.old.chars.length + src.chars.length + 1 < dest.bytes.length ∨
      (dest.old.chars = [] ∧ src.chars.length + 1 = dest.bytes.length ∧
        dest.bytes.getLast? = some 0) := by
  by_cases fits : dest.old.chars.length + src.chars.length + 1 < dest.bytes.length
  · exact iff_of_true (appends_fits dest src fits) (Or.inl fits)
  · have size := length_bytes dest
    obtain ⟨mid, x, junk⟩ : ∃ mid x, 0 :: dest.junk = mid ++ [x] :=
      ⟨_, _, (List.dropLast_concat_getLast (List.cons_ne_nil _ _)).symm⟩
    have total := congrArg List.length junk
    rw [List.length_cons, List.length_append, List.length_singleton] at total
    have last : dest.bytes.getLast? = some x := by
      rw [Holding.bytes, array, junk, ← List.append_assoc, List.getLast?_concat]
    rw [or_iff_right fits, last, Option.some_inj, appends_truncates dest src junk (by omega)]
    refine and_congr_right fun empty => and_congr_left' ?_
    have none : dest.old.chars.length = 0 := List.length_eq_zero_iff.mpr empty
    omega

/-- `strlcpy` and `strlcat` do what they are for just when what they are to leave fits, or fills a
buffer with an empty string in it whose last byte is a NUL. -/
theorem bounded_copies (dest : Buffer) (holding : Holding) (src : CString) :
    (Copies dest src ↔ src.chars.length < dest.bytes.length) ∧
    (Appends holding src ↔
      holding.old.chars.length + src.chars.length + 1 < holding.bytes.length ∨
        (holding.old.chars = [] ∧ src.chars.length + 1 = holding.bytes.length ∧
          holding.bytes.getLast? = some 0)) :=
  ⟨copies_iff dest src, appends_iff holding src⟩

/-- Two characters fill a buffer of two bytes, and one appended to another does. -/
theorem bounded_overruns :
    ¬ Copies { bytes := [0, 0], nonempty := by decide, object := by decide }
      { chars := [0x61, 0x62], noNul := by decide, object := by decide } ∧
    ¬ Appends
      { old := { chars := [0x61], noNul := by decide, object := by decide }, junk := [],
        object := by decide }
      { chars := [0x62], noNul := by decide, object := by decide } := by
  rw [copies_iff, appends_iff]
  decide

end FelineOS.Strings
