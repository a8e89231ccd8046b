import FelineOS.Library.FirstDifference
import FelineOS.Verif.Strings
import FelineOS.Verif.Strncmp
import Mathlib.Data.Int.Order.Basic

/-!
# The order that `strcmp` and `strncmp` decide

Both decide at the first characters that differ, by the order of `char`. That is the order of the
bytes unless `char` is signed and just one of the two is negative. `strncmp` does not stop at a
NUL, so equal strings are compared behind it.
-/

namespace FelineOS.Strings

open Library
open Printf (CString)
open Strtoul (read charLess strncmp)

variable {signedChar : Bool} {a b : CString} {c d : UInt8} {n remaining : Nat}
  {front common us vs xs ys : List UInt8} {order : Int}

/-- A result has the sign of the lexicographic comparison of two sequences of bytes. -/
structure HasSign (order : Int) (x y : List UInt8) : Prop where
  /-- Negative. -/
  negative : order < 0 ↔ x < y
  /-- Zero. -/
  zero : order = 0 ↔ x = y
  /-- Positive. -/
  positive : 0 < order ↔ y < x

/-- Whatever is behind the strings, both functions have the sign of their bytes with the
terminator, `strncmp` of the first ones only, and they agree when that is all of them. -/
def Compares (signedChar : Bool) (a b : CString) (n : Nat) : Prop :=
  ∀ behindA behindB, ∃ order bounded,
    strcmp signedChar (array a behindA) (array b behindB) = .ok order ∧
    HasSign order (a.chars ++ [0]) (b.chars ++ [0]) ∧
    strncmp signedChar (read (array a behindA)) (read (array b behindB)) n 0 = .ok bounded ∧
    HasSign bounded ((a.chars ++ [0]).take n) ((b.chars ++ [0]).take n) ∧
    (a.chars.length < n → b.chars.length < n → bounded = order)

/-- A signed `char` is negative for both or for none of the bytes at which two sequences first
differ. -/
def SameSide (signedChar : Bool) (x y : List UInt8) : Prop :=
  signedChar = true → ∀ common c d xs ys, x = common ++ c :: xs → y = common ++ d :: ys → c ≠ d →
    (c < 0x80 ↔ d < 0x80)

/-- The first string is at most the second one. -/
def Below (signedChar : Bool) (a b : CString) : Prop :=
  ∃ order ≤ 0, ∀ behindA behindB,
    strcmp signedChar (array a behindA) (array b behindB) = .ok order

/-! ## Characters -/

/-- The value of a `char`. -/
def key (signedChar : Bool) (c : UInt8) : Int := if signedChar then c.toInt8.toInt else c.toNat

/-- The value of a `char` with a signed one from 0x80 on negative. -/
theorem key_eq (signedChar : Bool) (c : UInt8) : key signedChar c =
    if signedChar = true ∧ 128 ≤ c.toNat then (c.toNat : Int) - 256 else c.toNat := by
  have byte := c.toNat_lt
  unfold key
  cases signedChar with
  | false => simp
  | true =>
    have value : c.toInt8.toInt = (c.toNat : Int).bmod (2 ^ 8) := BitVec.toInt_eq_toNat_bmod _
    rw [if_pos rfl, value, Int.bmod_def]
    simp only [true_and]
    split <;> split <;> omega

/-- Different characters have different values. -/
theorem key_injective (signedChar : Bool) : Function.Injective (key signedChar) := by
  intro c d same
  have left := c.toNat_lt
  have right := d.toNat_lt
  rw [key_eq, key_eq] at same
  apply UInt8.toNat_inj.mp
  split at same <;> split at same <;> omega

/-- Characters are compared by their values. -/
theorem charLess_iff : charLess signedChar c d = true ↔ key signedChar c < key signedChar d := by
  unfold charLess key
  cases signedChar with
  | false => simp [UInt8.lt_iff_toNat_lt]
  | true => simp [Int8.lt_iff_toInt_lt]

/-- The order of two different characters is that of their bytes when they are on one side. -/
theorem charLess_iff_lt (different : c ≠ d) : (charLess signedChar c d = true ↔ c < d) ↔
    (signedChar = true → (c < 0x80 ↔ d < 0x80)) := by
  have left := c.toNat_lt
  have right := d.toNat_lt
  have apart : c.toNat ≠ d.toNat := fun same => different (UInt8.toNat_inj.mp same)
  have bound : (0x80 : UInt8).toNat = 128 := rfl
  rw [charLess_iff, key_eq, key_eq, UInt8.lt_iff_toNat_lt, UInt8.lt_iff_toNat_lt,
    UInt8.lt_iff_toNat_lt, bound]
  cases signedChar with
  | false =>
    simp only [Bool.false_eq_true, false_and, if_false, false_imp_iff, iff_true]
    omega
  | true =>
    simp only [true_and, true_imp_iff]
    split <;> split <;> omega

/-- What two different characters come to. -/
def decided (signedChar : Bool) (c d : UInt8) : Int := if charLess signedChar c d then -1 else 1

/-! ## The loops -/

/-- The loop of `strcmp` passes over a common front without a NUL. -/
theorem strcmpFrom_front (noNul : 0 ∉ common) :
    strcmpFrom signedChar (front ++ (common ++ us)) (front ++ (common ++ vs))
      (common.length + remaining) front.length =
    strcmpFrom signedChar ((front ++ common) ++ us) ((front ++ common) ++ vs) remaining
      (front ++ common).length := by
  induction common generalizing front with
  | nil => rw [List.nil_append, List.nil_append, List.length_nil, Nat.zero_add, List.append_nil]
  | cons e common ih =>
    have same := Strtoul.charLess_self signedChar e
    have visible : e ≠ 0 := fun nul => noNul (nul ▸ List.mem_cons_self)
    have count : (e :: common).length + remaining = common.length + remaining + 1 := by
      rw [List.length_cons]
      omega
    rw [count, List.cons_append, List.cons_append, strcmpFrom, read_front, read_front, ok_bind,
      ok_bind, if_neg same, if_neg same, if_neg visible, append_cons_eq front e (common ++ us),
      append_cons_eq front e (common ++ vs), length_succ front e,
      ih fun member => noNul (List.mem_cons_of_mem e member), ← append_cons_eq front e common]

/-- The loop of `strcmp` comes to the end of a common front. -/
theorem strcmpFrom_zero (noNul : 0 ∉ common) :
    strcmpFrom signedChar (common ++ us) (common ++ vs) (common.length + remaining) 0 =
    strcmpFrom signedChar (common ++ us) (common ++ vs) remaining common.length :=
  @strcmpFrom_front signedChar remaining [] common us vs noNul

/-- `strcmp` decides at the first characters that differ. -/
theorem strcmp_difference (different : c ≠ d) (noNul : 0 ∉ common)
    (room : common.length < sizeMax) :
    strcmp signedChar (common ++ c :: us) (common ++ d :: vs) =
      .ok (decided signedChar c d) := by
  obtain ⟨remaining, count⟩ := Nat.exists_eq_add_of_lt room
  rw [strcmp, count, Nat.add_assoc, strcmpFrom_zero noNul, strcmpFrom, read_front, read_front, ok_bind, ok_bind,
    Strtoul.compared_of_ne signedChar different, decided]

/-- `strcmp` ends at the NUL of equal strings. -/
theorem strcmp_equal (noNul : 0 ∉ common) (room : common.length < sizeMax) :
    strcmp signedChar (common ++ 0 :: us) (common ++ 0 :: vs) = .ok 0 := by
  obtain ⟨remaining, count⟩ := Nat.exists_eq_add_of_lt room
  have same := Strtoul.charLess_self signedChar 0
  rw [strcmp, count, Nat.add_assoc, strcmpFrom_zero noNul, strcmpFrom, read_front, read_front,
    ok_bind, ok_bind, if_neg same, if_neg same,
    if_pos rfl]

/-- `strncmp` passes over a common front. -/
theorem strncmp_front (common : List UInt8) :
    strncmp signedChar (read (front ++ (common ++ us))) (read (front ++ (common ++ vs)))
      (common.length + remaining) front.length =
    strncmp signedChar (read ((front ++ common) ++ us)) (read ((front ++ common) ++ vs)) remaining
      (front ++ common).length := by
  induction common generalizing front with
  | nil => rw [List.nil_append, List.nil_append, List.length_nil, Nat.zero_add, List.append_nil]
  | cons e common ih =>
    have count : (e :: common).length + remaining = common.length + remaining + 1 := by
      rw [List.length_cons]
      omega
    rw [count, List.cons_append, List.cons_append,
      Strtoul.strncmp_eq _ _ (read_front _ _ _) (read_front _ _ _),
      append_cons_eq front e (common ++ us), append_cons_eq front e (common ++ vs),
      length_succ front e, ih, ← append_cons_eq front e common]

/-- `strncmp` comes to the end of a common front. -/
theorem strncmp_zero :
    strncmp signedChar (read (common ++ us)) (read (common ++ vs)) (common.length + remaining) 0 =
    strncmp signedChar (read (common ++ us)) (read (common ++ vs)) remaining common.length :=
  @strncmp_front signedChar remaining [] us vs common

/-- `strncmp` decides at the first characters that differ, if it comes to them. -/
theorem strncmp_difference (different : c ≠ d) (room : common.length < n) :
    strncmp signedChar (read (common ++ c :: us)) (read (common ++ d :: vs)) n 0 =
      .ok (decided signedChar c d) := by
  obtain ⟨remaining, rfl⟩ := Nat.exists_eq_add_of_lt room
  rw [Nat.add_assoc, strncmp_zero, strncmp, read_front, read_front, ok_bind, ok_bind,
    Strtoul.compared_of_ne signedChar different, decided]

/-- `strncmp` of equal characters. -/
theorem strncmp_same (room : n ≤ common.length) :
    strncmp signedChar (read (common ++ us)) (read (common ++ vs)) n 0 = .ok 0 := by
  have count : n = (common.take n).length + 0 := by
    rw [List.length_take]
    omega
  have parts (rest : List UInt8) :
      common ++ rest = common.take n ++ (common.drop n ++ rest) := by
    rw [← List.append_assoc, List.take_append_drop]
  calc strncmp signedChar (read (common ++ us)) (read (common ++ vs)) n 0
    _ = strncmp signedChar (read (common.take n ++ (common.drop n ++ us)))
        (read (common.take n ++ (common.drop n ++ vs))) ((common.take n).length + 0) 0 := by
      rw [← parts us, ← parts vs, ← count]
    _ = .ok 0 := by
      rw [strncmp_zero]
      rfl

/-- `strncmp` of equal arrays that end before it does is undefined. -/
theorem strncmp_behind (short : common.length < n) :
    strncmp signedChar (read common) (read common) n 0 = .error .undefined := by
  obtain ⟨remaining, rfl⟩ := Nat.exists_eq_add_of_lt short
  have passed := @strncmp_zero signedChar (remaining + 1) common [] []
  rw [List.append_nil, ← Nat.add_assoc] at passed
  rw [passed, strncmp, Strtoul.read_none (List.getElem?_eq_none (Nat.le_refl _))]
  rfl

/-! ## The signs -/

/-- Equal sequences compare as zero. -/
theorem hasSign_zero (x : List UInt8) : HasSign 0 x x where
  negative := iff_of_false (Int.lt_irrefl 0) (List.lt_irrefl x)
  zero := iff_of_true rfl rfl
  positive := iff_of_false (Int.lt_irrefl 0) (List.lt_irrefl x)

/-- What two different characters come to is not zero. -/
theorem decided_ne_zero : decided signedChar c d ≠ 0 := by
  unfold decided
  split <;> decide

/-- It is negative just for the first one below the second one. -/
theorem decided_neg : decided signedChar c d < 0 ↔ charLess signedChar c d = true := by
  unfold decided
  split <;> rename_i below
  · exact iff_of_true (by decide) below
  · exact iff_of_false (by decide) below

/-- The first difference gives the sign just when its characters are on one side. -/
theorem hasSign_decided (different : c ≠ d) :
    HasSign (decided signedChar c d) (common ++ c :: xs) (common ++ d :: ys) ↔
      (signedChar = true → (c < 0x80 ↔ d < 0x80)) := by
  rw [← charLess_iff_lt different, ← decided_neg, ← lt_iff_of_difference different]
  refine ⟨HasSign.negative, fun sign => ⟨sign, ?_, ?_⟩⟩
  · exact iff_of_false decided_ne_zero (ne_of_difference different)
  · have apart : decided signedChar c d ≠ 0 := decided_ne_zero
    have above : d < c ↔ ¬ c < d := by
      rw [UInt8.not_lt]
      exact ⟨UInt8.le_of_lt, fun le => UInt8.lt_of_le_of_ne le different.symm⟩
    rw [lt_iff_of_difference different] at sign
    rw [lt_iff_of_difference different.symm, above, ← sign]
    omega

/-- Two strings that differ are on one side just when the characters are at which they do. -/
theorem sameSide_difference (different : c ≠ d) :
    SameSide signedChar (common ++ c :: xs) (common ++ d :: ys) ↔
      (signedChar = true → (c < 0x80 ↔ d < 0x80)) := by
  constructor
  · intro sides signed
    exact sides signed common c d xs ys rfl rfl different
  · intro side signed front c' d' us vs left right other
    obtain ⟨rfl, rfl⟩ := difference_unique different other left right
    exact side signed

/-- Equal strings are. -/
theorem sameSide_same (x : List UInt8) : SameSide signedChar x x := by
  intro _ front c d us vs left right other
  rw [left] at right
  exact absurd (List.cons.inj (List.append_cancel_left right)).1 other

/-- A front of a string with its NUL is shorter than the loop of `strcmp` is long. -/
theorem length_lt_sizeMax {s : CString} (front : s.chars ++ [0] = common ++ c :: xs) :
    common.length < sizeMax := by
  have object := s.object
  have total := congrArg List.length front
  rw [List.length_append, List.length_append, List.length_singleton, List.length_cons] at total
  unfold sizeMax
  omega

/-- Different strings are compared right just when the characters at which they differ are on one
side. -/
theorem compares_difference (left : a.chars ++ [0] = common ++ c :: xs)
    (right : b.chars ++ [0] = common ++ d :: ys) (different : c ≠ d) (noNul : 0 ∉ common) :
    Compares signedChar a b n ↔ (signedChar = true → (c < 0x80 ↔ d < 0x80)) := by
  have first (behind : List UInt8) : array a behind = common ++ c :: (xs ++ behind) := by
    rw [array_eq, left, List.append_assoc, List.cons_append]
  have second (behind : List UInt8) : array b behind = common ++ d :: (ys ++ behind) := by
    rw [array_eq, right, List.append_assoc, List.cons_append]
  have room := length_lt_sizeMax left
  constructor
  · intro compares
    obtain ⟨order, bounded, result, sign, -⟩ := compares [] []
    rw [first, second, strcmp_difference different noNul room] at result
    rw [left, right, ← Except.ok.inj result] at sign
    exact (hasSign_decided different).mp sign
  · intro side behindA behindB
    rw [first, second, left, right]
    refine ⟨decided signedChar c d, if common.length < n then decided signedChar c d else 0,
      strcmp_difference different noNul room, (hasSign_decided different).mpr side, ?_⟩
    by_cases reached : common.length < n
    · rw [if_pos reached, take_difference reached, take_difference reached]
      exact ⟨strncmp_difference different reached, (hasSign_decided different).mpr side,
        fun _ _ => rfl⟩
    · have short : n ≤ common.length := Nat.not_lt.mp reached
      rw [if_neg reached, List.take_append_of_le_length short, List.take_append_of_le_length short]
      refine ⟨strncmp_same short, hasSign_zero _, fun whole _ => absurd reached ?_⟩
      have total := congrArg List.length left
      rw [List.length_append, List.length_append, List.length_singleton, List.length_cons] at total
      omega

/-- A string is compared right with itself just when `strncmp` does not go on behind its NUL. -/
theorem compares_same : Compares signedChar a a n ↔ n ≤ a.chars.length + 1 := by
  have total : (a.chars ++ [0]).length = a.chars.length + 1 := by
    rw [List.length_append, List.length_singleton]
  have room : a.chars.length < sizeMax := length_lt_sizeMax (s := a) rfl
  constructor
  · intro compares
    obtain ⟨-, bounded, -, -, result, -⟩ := compares [] []
    by_contra more
    rw [array_eq, List.append_nil, strncmp_behind (by omega)] at result
    exact nomatch result
  · intro few behindA behindB
    refine ⟨0, 0, strcmp_equal a.noNul room, hasSign_zero _, ?_, hasSign_zero _, fun _ _ => rfl⟩
    rw [array_eq, array_eq]
    exact strncmp_same (by omega)

/-- Strings are compared right just when the order of `char` is that of the bytes where they differ,
and `strncmp` does not go on behind the NUL of equal ones. -/
theorem compares_iff : Compares signedChar a b n ↔
    SameSide signedChar (a.chars ++ [0]) (b.chars ++ [0]) ∧
      (a.chars = b.chars → n ≤ a.chars.length + 1) := by
  rcases eq_or_difference a.noNul b.noNul with
    same | ⟨common, c, d, xs, ys, left, right, different, noNul⟩
  · have equal : a = b := eq_of_chars same
    subst equal
    rw [compares_same]
    exact ⟨fun few => ⟨sameSide_same _, fun _ => few⟩, fun condition => condition.2 rfl⟩
  · rw [compares_difference left right different noNul, left, right, sameSide_difference different]
    refine ⟨fun side => ⟨side, fun same => ?_⟩, And.left⟩
    rw [same, right] at left
    exact absurd (List.cons.inj (List.append_cancel_left left)).1 different.symm

/-! ## The order of `strcmp` -/

/-- The values of a string's characters with the NUL. -/
def values (signedChar : Bool) (s : CString) : List Int := (s.chars ++ [0]).map (key signedChar)

/-- A string is its values. -/
theorem values_injective (signedChar : Bool) : Function.Injective (values signedChar) := by
  intro a b same
  have whole := List.map_injective_iff.mpr (key_injective signedChar) same
  exact eq_of_chars (List.append_cancel_right whole)

/-- `strcmp` orders strings as the lists of their values. -/
theorem below_iff : Below signedChar a b ↔ values signedChar a ≤ values signedChar b := by
  unfold Below
  rcases eq_or_difference a.noNul b.noNul with
    same | ⟨common, c, d, xs, ys, left, right, different, noNul⟩
  · have equal : a = b := eq_of_chars same
    subst equal
    exact iff_of_true ⟨0, Int.le_refl 0, fun _ _ => strcmp_equal a.noNul (length_lt_sizeMax rfl)⟩
      (le_refl _)
  · have result (behindA behindB : List UInt8) :
        strcmp signedChar (array a behindA) (array b behindB) = .ok (decided signedChar c d) := by
      rw [array_eq, array_eq, left, right, List.append_assoc, List.append_assoc, List.cons_append,
        List.cons_append]
      exact strcmp_difference different noNul (length_lt_sizeMax left)
    have apart : key signedChar c ≠ key signedChar d :=
      fun same => different (key_injective signedChar same)
    have order : values signedChar a < values signedChar b ↔ decided signedChar c d < 0 := by
      rw [decided_neg, charLess_iff, values, values, left, right, List.map_append, List.map_append,
        List.map_cons, List.map_cons]
      exact lt_iff_of_difference apart
    have other : values signedChar a ≠ values signedChar b := by
      intro same
      rw [values_injective signedChar same, right] at left
      exact different (List.cons.inj (List.append_cancel_left left)).1.symm
    rw [← lt_iff_le_and_ne.trans (and_iff_left other), order]
    constructor
    · rintro ⟨sign, notPositive, all⟩
      have value := Except.ok.inj ((result [] []).symm.trans (all [] []))
      exact Int.lt_iff_le_and_ne.mpr ⟨value ▸ notPositive, decided_ne_zero⟩
    · exact fun negative => ⟨decided signedChar c d, Int.le_of_lt negative, result⟩

/-- `strcmp` is a total order on strings. -/
theorem below_linear (signedChar : Bool) : IsLinearOrder CString (Below signedChar) where
  refl _ := below_iff.mpr (le_refl _)
  trans _ _ _ lower upper := below_iff.mpr ((below_iff.mp lower).trans (below_iff.mp upper))
  antisymm _ _ lower upper :=
    values_injective signedChar ((below_iff.mp lower).antisymm (below_iff.mp upper))
  total _ _ := (le_total _ _).imp below_iff.mpr below_iff.mpr

/-- `strcmp` and `strncmp` compare strings as their bytes just when the order of `char` is that of
the bytes where they differ and `strncmp` does not go on behind the NUL of equal ones; `strcmp` is
a total order either way. -/
theorem compares_all (signedChar : Bool) : IsLinearOrder CString (Below signedChar) ∧
    ∀ a b n, Compares signedChar a b n ↔ SameSide signedChar (a.chars ++ [0]) (b.chars ++ [0]) ∧
      (a.chars = b.chars → n ≤ a.chars.length + 1) :=
  ⟨below_linear signedChar, fun _ _ _ => compares_iff⟩

/-- A byte from 0x80 on is below `a` with a signed `char`, and what is behind two empty strings is
compared as well. -/
theorem compares_not :
    ¬ Compares true { chars := [0xFF], noNul := by decide, object := by decide }
      { chars := [0x61], noNul := by decide, object := by decide } 0 ∧
    ¬ Compares false { chars := [], noNul := by decide, object := by decide }
      { chars := [], noNul := by decide, object := by decide } 2 := by
  rw [compares_iff, compares_iff]
  refine ⟨fun condition => ?_, fun condition => absurd (condition.2 rfl) (by decide)⟩
  have sides := condition.1 rfl [] 0xFF 0x61 [0] [0] rfl rfl (by decide)
  revert sides
  decide

end FelineOS.Strings
