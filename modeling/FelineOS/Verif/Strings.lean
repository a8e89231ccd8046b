import FelineOS.Libc.Strings
import FelineOS.Verif.Strncmp

/-!
# Strings in arrays

Reading the array of a string character by character, up to its NUL.
-/

namespace FelineOS.Strings

open Printf (CString)
open Strtoul (read)

variable {s a b : CString} {behind : List UInt8}

/-- The character behind a front is read. -/
theorem read_front (front : List UInt8) (c : UInt8) (rest : List UInt8) :
    read (front ++ c :: rest) front.length = .ok c := by
  apply Strtoul.read_some
  rw [List.getElem?_append_right (Nat.le_refl _), Nat.sub_self]
  rfl

/-- A front longer by a character. -/
theorem append_cons_eq (front : List UInt8) (c : UInt8) (rest : List UInt8) :
    front ++ c :: rest = (front ++ [c]) ++ rest := by
  rw [List.append_assoc]
  rfl

/-- A longer front. -/
theorem length_succ (front : List UInt8) (c : UInt8) : front.length + 1 = (front ++ [c]).length := by
  rw [List.length_append, List.length_singleton]

/-- A string is the characters before its NUL. -/
theorem eq_of_chars (same : a.chars = b.chars) : a = b := by
  cases a
  cases b
  cases same
  rfl

/-- An array begins with the string and its NUL. -/
theorem array_eq (s : CString) (behind : List UInt8) :
    array s behind = (s.chars ++ [0]) ++ behind := by
  rw [List.append_assoc]
  rfl

/-- The loop of `strlen` counts the characters before the NUL. -/
theorem strlenFrom_chars (chars : List UInt8) (noNul : 0 ∉ chars) (len : Nat) :
    strlenFrom (chars ++ 0 :: behind) len = .ok (len + chars.length) := by
  induction chars generalizing len with
  | nil => rfl
  | cons c chars ih =>
    have visible : c ≠ 0 := fun nul => noNul (nul ▸ List.mem_cons_self)
    rw [List.cons_append, strlenFrom, if_neg visible,
      ih (fun member => noNul (List.mem_cons_of_mem c member)), List.length_cons]
    congr 1
    omega

/-- `strlen` is the number of characters before the NUL. -/
theorem strlen_array (s : CString) (behind : List UInt8) :
    strlen (array s behind) = .ok s.chars.length := by
  rw [strlen, array, strlenFrom_chars s.chars s.noNul, Nat.zero_add]

end FelineOS.Strings
