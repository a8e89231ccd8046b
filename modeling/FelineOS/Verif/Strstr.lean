import FelineOS.Verif.StringOrder

/-!
# What `strstr` finds

The loop of `strstr` does not advance, so it comes to an end only where it has nothing to search
for, nothing to search in, or an occurrence at the start.
-/

namespace FelineOS.Strings

open Library
open Printf (CString)
open Strtoul (read strncmp)

variable {signedChar : Bool} {haystack needle : CString} {behindH behindN : List UInt8}
  {fuel i : Nat}

/-- The needle is in the haystack behind a number of its characters. -/
def OccursAt (needle haystack : CString) (i : Nat) : Prop :=
  i ≤ haystack.chars.length ∧ needle.chars <+: haystack.chars.drop i

/-- The smallest offset at which the needle is in the haystack, or nothing when there is none. -/
def FirstOccurrence (needle haystack : CString) : Option Nat → Prop
  | some i => OccursAt needle haystack i ∧ ∀ j < i, ¬ OccursAt needle haystack j
  | none => ∀ j, ¬ OccursAt needle haystack j

/-- Whatever is behind the strings, `strstr` comes to an end and returns the first occurrence. -/
def Finds (signedChar : Bool) (haystack needle : CString) : Prop :=
  ∃ found, FirstOccurrence needle haystack found ∧ ∀ behindH behindN, ∃ fuel,
    strstr signedChar fuel (some (array haystack behindH)) (some (array needle behindN)) =
      .ok found

/-- The first character of an array with a string that is not empty. -/
theorem array_cons {s : CString} (some : s.chars ≠ []) (behind : List UInt8) :
    ∃ c rest, array s behind = c :: rest ∧ c ≠ 0 := by
  have noNul := s.noNul
  unfold array
  cases chars : s.chars with
  | nil => exact absurd chars some
  | cons c rest =>
    refine ⟨c, rest ++ 0 :: behind, rfl, fun nul => noNul ?_⟩
    rw [chars, nul]
    exact List.mem_cons_self

/-- Without a needle all of the haystack is returned. -/
theorem strstr_noNeedle (none : needle.chars = []) (haystack : Option (List UInt8)) :
    strstr signedChar fuel haystack (some (array needle behindN)) =
      .ok (haystack.map fun _ => 0) := by
  unfold array
  rw [none]
  rfl

/-- With a needle the loop is entered at the start of the haystack. -/
theorem strstr_needle (there : needle.chars ≠ []) (haystack : List UInt8) :
    strstr signedChar fuel (some haystack) (some (array needle behindN)) =
      strstrLoop signedChar haystack (array needle behindN) needle.chars.length fuel 0 := by
  obtain ⟨c, rest, chars, visible⟩ := array_cons there behindN
  have first : read (array needle behindN) 0 = .ok c := by
    rw [chars]
    rfl
  rw [strstr, first, ok_bind, if_neg visible, strlen_array, ok_bind]

/-- In an empty haystack the loop ends. -/
theorem strstrLoop_nothing (none : haystack.chars = []) (needle : List UInt8) (needleLen : Nat) :
    strstrLoop signedChar (array haystack behindH) needle needleLen (fuel + 1) 0 = .ok Option.none := by
  unfold array
  rw [none]
  rfl

/-- An iteration at the start of a haystack that is not empty. -/
theorem strstrLoop_start (there : haystack.chars ≠ []) {order : Int} {array' : List UInt8}
    {needleLen : Nat}
    (compared : strncmp signedChar (read (array haystack behindH)) (read array') needleLen 0 =
      .ok order) :
    strstrLoop signedChar (array haystack behindH) array' needleLen (fuel + 1) 0 =
      if order = 0 then .ok (some 0)
      else strstrLoop signedChar (array haystack behindH) array' needleLen fuel 0 := by
  obtain ⟨c, rest, chars, visible⟩ := array_cons there behindH
  have first : read (array haystack behindH) 0 = .ok c := by
    rw [chars]
    rfl
  have same : (fun i => read (array haystack behindH) (0 + i)) = read (array haystack behindH) := by
    funext i
    rw [Nat.zero_add]
  rw [strstrLoop, first, ok_bind, if_pos visible, same, compared, ok_bind]
  rfl

/-- A needle at the start of the haystack compares as equal. -/
theorem compared_equal (start : needle.chars <+: haystack.chars) :
    strncmp signedChar (read (array haystack behindH)) (read (array needle behindN))
      needle.chars.length 0 = .ok 0 := by
  obtain ⟨rest, chars⟩ := start
  unfold array
  rw [← chars, List.append_assoc]
  exact strncmp_same (Nat.le_refl _)

/-- Another needle compares as different, without a read behind a NUL. -/
theorem compared_different (other : ¬ needle.chars <+: haystack.chars) :
    ∃ order ≠ 0, ∀ behindH behindN,
      strncmp signedChar (read (array haystack behindH)) (read (array needle behindN))
        needle.chars.length 0 = .ok order := by
  rcases eq_or_difference haystack.noNul needle.noNul with
    same | ⟨common, c, d, xs, ys, left, right, different, -⟩
  · exact absurd (same ▸ List.prefix_refl _) other
  · have inside : common.length < needle.chars.length := by
      by_contra outside
      have total := congrArg List.length right
      rw [List.length_append, List.length_append, List.length_singleton, List.length_cons] at total
      have all : needle.chars = common :=
        List.append_inj_left right (by omega)
      have front : needle.chars <+: haystack.chars ++ [0] := ⟨c :: xs, by rw [left, all]⟩
      rcases List.prefix_concat_iff.mp front with whole | start
      · exact needle.noNul (whole ▸ List.mem_append_right _ List.mem_cons_self)
      · exact other start
    refine ⟨decided signedChar c d, decided_ne_zero, fun behindH behindN => ?_⟩
    rw [array_eq, array_eq, left, right, List.append_assoc, List.append_assoc, List.cons_append,
      List.cons_append]
    exact strncmp_difference different inside

/-- The loop never ends where the strings compare as different. -/
theorem strstrLoop_diverges (there : haystack.chars ≠ []) {order : Int} {array' : List UInt8}
    {needleLen : Nat} (different : order ≠ 0)
    (compared : strncmp signedChar (read (array haystack behindH)) (read array') needleLen 0 =
      .ok order) (fuel : Nat) :
    strstrLoop signedChar (array haystack behindH) array' needleLen fuel 0 =
      .error .divergence := by
  induction fuel with
  | zero => rfl
  | succ fuel ih => rw [strstrLoop_start there compared, if_neg different, ih]

/-- There is none before the start. -/
theorem firstOccurrence_start (start : needle.chars <+: haystack.chars) :
    FirstOccurrence needle haystack (some 0) :=
  ⟨⟨Nat.zero_le _, start⟩, fun j earlier => absurd earlier (Nat.not_lt_zero j)⟩

/-- No other needle is in an empty haystack. -/
theorem firstOccurrence_nothing (none : haystack.chars = []) (there : needle.chars ≠ []) :
    FirstOccurrence needle haystack Option.none := by
  intro j occurs
  have start := occurs.2
  rw [none, List.drop_nil] at start
  exact there (List.prefix_nil.mp start)

/-- `strstr` finds the first occurrence just when there is nothing to search for, nothing to search
in, or an occurrence at the start. -/
theorem finds_iff (signedChar : Bool) (haystack needle : CString) :
    Finds signedChar haystack needle ↔
      needle.chars = [] ∨ haystack.chars = [] ∨ needle.chars <+: haystack.chars := by
  constructor
  · rintro ⟨found, -, all⟩
    by_contra condition
    obtain ⟨there, condition⟩ := not_or.mp condition
    obtain ⟨inside, other⟩ := not_or.mp condition
    obtain ⟨order, different, compared⟩ := @compared_different signedChar haystack needle other
    obtain ⟨fuel, result⟩ := all [] []
    rw [strstr_needle there, strstrLoop_diverges inside different (compared [] [])] at result
    exact nomatch result
  · intro condition
    by_cases noNeedle : needle.chars = []
    · have start : needle.chars <+: haystack.chars := noNeedle ▸ List.nil_prefix
      exact ⟨some 0, firstOccurrence_start start, fun _ _ => ⟨0, strstr_noNeedle noNeedle _⟩⟩
    by_cases noHaystack : haystack.chars = []
    · refine ⟨none, firstOccurrence_nothing noHaystack noNeedle, fun _ _ => ⟨1, ?_⟩⟩
      rw [strstr_needle noNeedle, strstrLoop_nothing noHaystack]
    · have start := (condition.resolve_left noNeedle).resolve_left noHaystack
      refine ⟨some 0, firstOccurrence_start start, fun _ _ => ⟨1, ?_⟩⟩
      rw [strstr_needle noNeedle, strstrLoop_start noHaystack (compared_equal start), if_pos rfl]

/-- The search for `b` in `ab` does not end. -/
theorem finds_later : ¬ Finds true
    { chars := [0x61, 0x62], noNul := by decide, object := by decide }
    { chars := [0x62], noNul := by decide, object := by decide } := by
  rintro ⟨found, -, all⟩
  obtain ⟨fuel, result⟩ := all [] []
  have ends : ∀ fuel, strstr true fuel (some [0x61, 0x62, 0]) (some [0x62, 0]) =
      .error .divergence := by
    intro fuel
    show strstrLoop true _ _ 1 fuel 0 = _
    induction fuel with
    | zero => rfl
    | succ fuel ih => exact ih
  exact nomatch (ends fuel).symm.trans result

end FelineOS.Strings
