import FelineOS.Spec.Logger
import FelineOS.Verif.PrintfDigits

/-!
# Which numbers the logger formats

`ntostr` counts the powers of the base up to the number and divides by the powers for as many places,
and both loops go on with the power that is left of an overflow. The text is right exactly when the
count is not disturbed and the places behind the highest digit stay zero.
-/

namespace FelineOS.Logger

open Library

/-! ## Appending -/

/-- Room for bytes is made, unless `malloc` refuses it. -/
theorem reserve_bytes {α : Type} (v : KVector α) (malloc : Nat → Bool) {num : Nat}
    (sized : num < wordLimit) :
    (v.reserve malloc 1 num = .error .abort ∧ malloc num = false) ∨
      ∃ w, v.reserve malloc 1 num = .ok w := by
  have small : ¬uintptrMax / 1 < num := by
    rw [Nat.div_one]
    unfold uintptrMax wordLimit at *
    omega
  unfold KVector.reserve
  by_cases enough : num ≤ v.capacity
  · rw [dif_pos enough]
    exact .inr ⟨_, rfl⟩
  · rw [dif_neg enough]
    cases given : malloc num with
    | false =>
      have refused : allocate malloc 1 num = .error .abort := by
        unfold allocate
        rw [if_neg small, Nat.mul_one, given]
        rfl
      rw [refused]
      exact .inl ⟨rfl, rfl⟩
    | true =>
      have granted : allocate malloc 1 num = .ok () := by
        unfold allocate
        rw [if_neg small, Nat.mul_one, given]
        rfl
      rw [granted]
      exact .inr ⟨_, rfl⟩

/-- Copies of a character come behind the others, unless `malloc` refuses the room. -/
theorem appendCopies_bytes {α : Type} (v : KVector α) (malloc : Nat → Bool) (item : α) {count : Nat}
    (sized : v.items.length + count < wordLimit) :
    (v.appendCopies malloc 1 item count = .error .abort ∧
        malloc (v.items.length + count) = false) ∨
      ∃ w, v.appendCopies malloc 1 item count = .ok w ∧
        w.items = v.items ++ List.replicate count item := by
  have word : wrap (v.items.length + count) < wordLimit := Nat.mod_lt _ (by decide)
  unfold KVector.appendCopies
  rcases reserve_bytes v malloc word with ⟨refused, missing⟩ | ⟨⟨w, kept, room⟩, made⟩
  · rw [wrap_of_lt sized] at missing
    rw [refused]
    exact .inl ⟨rfl, missing⟩
  · have enough : (w.items ++ List.replicate count item).length ≤ w.capacity := by
      rw [List.length_append, List.length_replicate, kept, ← wrap_of_lt sized]
      exact room
    rw [made, ok_bind]
    dsimp only
    rw [dif_pos enough]
    exact .inr ⟨_, rfl, congrArg (· ++ List.replicate count item) kept⟩

/-! ## The loops of `ntostr` -/

/-- The powers go on by the base. -/
theorem power_succ (base k : Nat) : power base k * base % 2 ^ 64 = power base (k + 1) := by
  unfold power
  rw [Nat.mod_mul_mod, ← Nat.pow_succ]

/-- The loop over the powers ends at the first one above the number. -/
theorem strLen_above {num base k last fuel : Nat} (above : FirstAbove num base last)
    (before : k ≤ last) (enough : last - k < fuel) :
    strLen num base fuel (power base k) (wrap k) = .ok (wrap last) := by
  induction fuel generalizing k with
  | zero => omega
  | succ fuel ih =>
    rw [strLen]
    by_cases here : k = last
    · rw [here, if_neg (Nat.not_le_of_lt above.above)]
    · have further : k < last := Nat.lt_of_le_of_ne before here
      have next : wrap (wrap k + 1) = wrap (k + 1) := by
        unfold wrap
        rw [Nat.mod_add_mod]
      rw [if_pos (above.first k further), power_succ, next]
      exact ih further (by omega)

/-- A loop over the powers that ends has come to the first one above the number. -/
theorem strLen_ok {num base k fuel len : Nat} (below : ∀ j < k, power base j ≤ num)
    (ends : strLen num base fuel (power base k) (wrap k) = .ok len) :
    ∃ last, FirstAbove num base last ∧ len = wrap last := by
  induction fuel generalizing k with
  | zero => cases ends
  | succ fuel ih =>
    rw [strLen] at ends
    by_cases inside : power base k ≤ num
    · have next : wrap (wrap k + 1) = wrap (k + 1) := by
        unfold wrap
        rw [Nat.mod_add_mod]
      rw [if_pos inside, power_succ, next] at ends
      apply ih _ ends
      intro j before
      rcases Nat.lt_succ_iff_lt_or_eq.mp before with earlier | rfl
      · exact below j earlier
      · exact inside
    · rw [if_neg inside] at ends
      exact ⟨k, ⟨Nat.lt_of_not_le inside, below⟩, (Except.ok.inj ends).symm⟩

/-- The loop over the powers ends or goes on without end. -/
theorem strLen_cases (num base fuel n len : Nat) :
    strLen num base fuel n len = .error .divergence ∨ ∃ last, strLen num base fuel n len = .ok last := by
  induction fuel generalizing n len with
  | zero => exact .inl rfl
  | succ fuel ih =>
    rw [strLen]
    split
    · exact ih _ _
    · exact .inr ⟨len, rfl⟩

/-- The character at a place. -/
def place (num base j : Nat) : UInt8 := UInt8.ofNat (num / power base j % base) + 0x30

/-- The loop over the places writes their characters when no power is zero. -/
theorem putDigits_ok {num base offset j : Nat} {str : KVector UInt8}
    (inside : offset ≤ str.items.length) (nonzero : ∀ i < offset, power base (j + i) ≠ 0) :
    ∃ after, putDigits num base offset (power base j) str = .ok after ∧
      after.items = ((List.range' j offset).map (place num base)).reverse ++ str.items.drop offset := by
  induction offset generalizing j str with
  | zero => exact ⟨str, rfl, rfl⟩
  | succ offset ih =>
    have here : power base j ≠ 0 := nonzero 0 (Nat.succ_pos _)
    have room : ¬str.items.length ≤ offset := by omega
    have later (i : Nat) (below : i < offset) : power base (j + 1 + i) ≠ 0 := by
      rw [Nat.add_right_comm]
      exact nonzero (i + 1) (by omega)
    have kept : offset ≤ (str.modify offset fun _ => place num base j).items.length := by
      show offset ≤ (str.items.modify offset _).length
      rw [List.length_modify]
      omega
    obtain ⟨after, written, shown⟩ := ih kept later
    refine ⟨after, ?_, ?_⟩
    · rw [putDigits, if_neg here, if_neg room, power_succ]
      exact written
    · have last : (str.modify offset fun _ => place num base j).items.drop offset =
          place num base j :: str.items.drop (offset + 1) := by
        show (str.items.modify offset _).drop offset = _
        have short : (str.items.take offset).length = offset :=
          List.length_take_of_le (Nat.le_of_succ_le inside)
        rw [List.modify_eq_take_cons_drop inside, List.drop_left' short]
      rw [shown, last, List.range'_succ, List.map_cons, List.reverse_cons, List.append_assoc]
      rfl

/-- A loop over the places that ends has met no power that is zero. -/
theorem putDigits_nonzero {num base offset j : Nat} {str after : KVector UInt8}
    (ends : putDigits num base offset (power base j) str = .ok after) :
    ∀ i < offset, power base (j + i) ≠ 0 := by
  induction offset generalizing j str with
  | zero => exact fun i below => absurd below (Nat.not_lt_zero i)
  | succ offset ih =>
    rw [putDigits, power_succ] at ends
    by_cases zero : power base j = 0
    · rw [if_pos zero] at ends
      cases ends
    · rw [if_neg zero] at ends
      split at ends
      · cases ends
      · intro i below
        cases i with
        | zero => exact zero
        | succ i =>
          rw [← Nat.add_assoc, Nat.add_right_comm]
          exact ih ends i (by omega)

/-- The loop over the places stays in the string. -/
theorem putDigits_inside {num base offset todivby : Nat} {str : KVector UInt8}
    (inside : offset ≤ str.items.length) :
    putDigits num base offset todivby str ≠ .error .abort := by
  induction offset generalizing todivby str with
  | zero => exact fun same => nomatch same
  | succ offset ih =>
    have room : ¬str.items.length ≤ offset := by omega
    rw [putDigits, if_neg room]
    split
    · exact fun same => nomatch same
    · apply ih
      show offset ≤ (str.items.modify offset _).length
      rw [List.length_modify]
      omega

/-! ## The text -/

section Text

variable {num base : Nat} (word : num < 2 ^ 64) (least : 2 ≤ base) (most : base ≤ 16)

include word least

/-- The powers at the places of a number are not cut. -/
theorem power_inside {j : Nat} (inside : j < (Nat.digits base num).length) :
    power base j = base ^ j := by
  have small : base ^ j ≤ num := (Nat.lt_digits_length_iff least num).mp inside
  exact Nat.mod_eq_of_lt (Nat.lt_of_le_of_lt small word)

/-- The places of a number have its digits. -/
theorem place_digit {j : Nat} (inside : j < (Nat.digits base num).length) :
    place num base j = UInt8.ofNat (Nat.digits base num)[j] + 0x30 := by
  have digit := Nat.getD_digits num j least
  rw [List.getD_eq_getElem?_getD, List.getElem?_eq_getElem inside, Option.getD_some] at digit
  unfold place
  rw [power_inside word least inside, digit]

include most

omit word in
/-- The other places have zeros when nothing is left of the number there. -/
theorem place_zero (j : Nat) : place num base j = 0x30 ↔ num / power base j % base = 0 := by
  have zero : ∀ d < 16, UInt8.ofNat d + 0x30 = 0x30 ↔ d = 0 := by decide
  have small : num / power base j % base < 16 :=
    Nat.lt_of_lt_of_le (Nat.mod_lt _ (Nat.lt_of_lt_of_le (by decide) least)) most
  exact zero _ small

/-- As many places as the text has show it exactly when those of the leading zeros are zero. -/
theorem places_formatted {minWidth len : Nat}
    (long : len = max (Nat.digits base num).length minWidth) :
    ((List.range' 0 len).map (place num base)).reverse = formatted base minWidth num ↔
      ∀ j, (Nat.digits base num).length ≤ j → j < minWidth → num / power base j % base = 0 := by
  have forward : formatted base minWidth num =
      ((Nat.digits base num).map (fun d => UInt8.ofNat d + 0x30) ++
        List.replicate (minWidth - (Nat.digits base num).length) 0x30).reverse := by
    rw [formatted, List.reverse_append, List.reverse_replicate]
  have size : (Nat.digits base num).length + (minWidth - (Nat.digits base num).length) = len := by
    omega
  rw [forward, List.reverse_inj, ← List.range_eq_range']
  constructor
  · intro same j behind inside
    have here : ((List.range len).map (place num base))[j]? = some (place num base j) := by
      rw [List.getElem?_map, List.getElem?_range (by omega)]
      rfl
    rw [same, List.getElem?_append_right (by rw [List.length_map]; exact behind), List.length_map,
      List.getElem?_replicate_of_lt (by omega)] at here
    exact (place_zero least most j).mp (Option.some.inj here).symm
  · intro zeros
    apply List.ext_getElem
    · rw [List.length_map, List.length_range, List.length_append, List.length_map,
        List.length_replicate, size]
    · intro j left right
      rw [List.length_map, List.length_range] at left
      rw [List.getElem_map, List.getElem_range]
      by_cases inside : j < (Nat.digits base num).length
      · rw [List.getElem_append_left (by rw [List.length_map]; exact inside), List.getElem_map]
        exact place_digit word least inside
      · have behind : (Nat.digits base num).length ≤ j := Nat.le_of_not_lt inside
        rw [List.getElem_append_right (by rw [List.length_map]; exact behind),
          List.getElem_replicate]
        exact (place_zero least most j).mpr (zeros j behind (by omega))

end Text

/-! ## The function -/

/-- A text is as wide as its digits and as asked for. -/
theorem length_formatted (base minWidth num : Nat) :
    (formatted base minWidth num).length = max (Nat.digits base num).length minWidth := by
  unfold formatted
  rw [List.length_append, List.length_replicate, List.length_reverse, List.length_map]
  omega

section Function

variable {num base minWidth : Nat}

/-- The powers start with a one. -/
theorem power_zero (base : Nat) : power base 0 = 1 := by
  unfold power
  rw [Nat.pow_zero]
  exact Nat.mod_eq_of_lt (by decide)

/-- A zero is as wide as asked for, unless memory runs out. -/
theorem ntostr_zero (malloc : Nat → Bool) (fuel : Nat) (least : 2 ≤ base) (most : base ≤ 16)
    (sized : minWidth < wordLimit) :
    (ntostr malloc fuel 0 base minWidth = .error .abort ∧ malloc minWidth = false) ∨
      ∃ str, ntostr malloc fuel 0 base minWidth = .ok str ∧
        str.items = formatted base minWidth 0 := by
  have valid : ¬(base < 2 ∨ 16 < base) := by omega
  unfold ntostr
  rcases reserve_bytes KVector.empty malloc sized with ⟨refused, missing⟩ | ⟨⟨str, kept, room⟩, made⟩
  · rw [refused]
    exact .inl ⟨rfl, missing⟩
  · have none : str.items.length = 0 := congrArg List.length kept
    have total : str.items.length + minWidth < wordLimit := by omega
    rw [made, ok_bind]
    dsimp only
    rw [if_neg valid, if_pos rfl]
    rcases appendCopies_bytes str malloc 0x30 total with ⟨refused, missing⟩ | ⟨after, appended, items⟩
    · rw [none, Nat.zero_add] at missing
      exact .inl ⟨refused, missing⟩
    · refine .inr ⟨after, appended, ?_⟩
      rw [items, kept, formatted, Nat.digits_zero, List.map_nil, List.reverse_nil, List.append_nil]
      rfl

/-- A number that overflow does not disturb gets its text, unless memory runs out. -/
theorem ntostr_text (malloc : Nat → Bool) {fuel k : Nat} (word : num < 2 ^ 64) (least : 2 ≤ base)
    (most : base ≤ 16) (sized : minWidth < wordLimit) (positive : num ≠ 0)
    (above : FirstAbove num base k) (enough : k < fuel)
    (long : max (wrap k) minWidth = max (Nat.digits base num).length minWidth)
    (zeros : ∀ j, (Nat.digits base num).length ≤ j → j < minWidth →
      power base j ≠ 0 ∧ num / power base j % base = 0) :
    (ntostr malloc fuel num base minWidth = .error .abort ∧
        ∃ bytes ≤ max (Nat.digits base num).length minWidth, malloc bytes = false) ∨
      ∃ str, ntostr malloc fuel num base minWidth = .ok str ∧
        str.items = formatted base minWidth num := by
  have valid : ¬(base < 2 ∨ 16 < base) := by omega
  have counted : strLen num base fuel 1 0 = .ok (wrap k) := by
    have ends := strLen_above above (Nat.zero_le k) enough
    rw [power_zero] at ends
    exact ends
  have len : (if wrap k < minWidth then minWidth else wrap k) =
      max (Nat.digits base num).length minWidth := by
    rw [← long]
    split <;> omega
  have small : max (Nat.digits base num).length minWidth < wordLimit := by
    rw [← long]
    exact max_lt (Nat.mod_lt k (by decide)) sized
  unfold ntostr
  rcases reserve_bytes KVector.empty malloc sized with ⟨refused, missing⟩ | ⟨⟨str, kept, room⟩, made⟩
  · rw [refused]
    exact .inl ⟨rfl, minWidth, Nat.le_max_right _ _, missing⟩
  · have none : str.items.length = 0 := congrArg List.length kept
    rw [made, ok_bind]
    dsimp only
    rw [if_neg valid, if_neg positive, counted, ok_bind, len]
    have total : str.items.length + max (Nat.digits base num).length minWidth < wordLimit := by
      rw [none, Nat.zero_add]
      exact small
    rcases appendCopies_bytes str malloc 0 total with ⟨refused, missing⟩ | ⟨blank, appended, items⟩
    · rw [none, Nat.zero_add] at missing
      rw [refused]
      exact .inl ⟨rfl, _, Nat.le_refl _, missing⟩
    · have filled : blank.items.length = max (Nat.digits base num).length minWidth := by
        rw [items, List.length_append, none, Nat.zero_add, List.length_replicate]
      have nonzero (i : Nat) (inside : i < max (Nat.digits base num).length minWidth) :
          power base (0 + i) ≠ 0 := by
        rw [Nat.zero_add]
        by_cases digit : i < (Nat.digits base num).length
        · rw [power_inside word least digit]
          exact Nat.pos_iff_ne_zero.mp (Nat.pow_pos (by omega))
        · exact (zeros i (Nat.le_of_not_lt digit) (by omega)).1
      obtain ⟨after, written, shown⟩ := putDigits_ok (Nat.le_of_eq filled.symm) nonzero
      rw [power_zero] at written
      refine .inr ⟨after, ?_, ?_⟩
      · rw [appended, ok_bind]
        exact written
      · rw [shown, List.drop_of_length_le (Nat.le_of_eq filled), List.append_nil,
          places_formatted word least most rfl]
        exact fun j behind inside => (zeros j behind inside).2

/-- A number that overflow does not disturb is formatted. -/
theorem formats_of_formattable (word : num < 2 ^ 64) (least : 2 ≤ base) (most : base ≤ 16)
    (sized : minWidth < wordLimit) (formattable : Formattable num base minWidth) :
    Formats num base minWidth := by
  intro malloc
  by_cases zero : num = 0
  · rw [zero]
    exact ⟨0, (ntostr_zero malloc 0 least most sized).imp_left And.left⟩
  · obtain ⟨⟨k, above, long⟩, zeros⟩ := formattable.resolve_left zero
    have text := ntostr_text malloc word least most sized zero above (Nat.lt_succ_self k) long zeros
    exact ⟨k + 1, text.imp_left And.left⟩

/-- A text whose places all have powers below the limit of the type has fewer than 64 places. -/
theorem places_of_fits (least : 2 ≤ base) {places : Nat} (fits : base ^ places < 2 ^ 64) :
    places < 64 := by
  by_contra large
  have many : 2 ^ 64 ≤ base ^ places :=
    calc
      2 ^ 64 ≤ base ^ 64 := Nat.pow_le_pow_left least 64
      _ ≤ base ^ places := Nat.pow_le_pow_right (by omega) (Nat.le_of_not_lt large)
  omega

section Fits

variable (least : 2 ≤ base) (fits : base ^ max (Nat.digits base num).length minWidth < 2 ^ 64)

include least fits

/-- The powers at its places are not cut. -/
theorem power_of_fits {j : Nat} (inside : j ≤ max (Nat.digits base num).length minWidth) :
    power base j = base ^ j :=
  Nat.mod_eq_of_lt (Nat.lt_of_le_of_lt (Nat.pow_le_pow_right (by omega) inside) fits)

/-- The first power above the number is that behind its digits. -/
theorem firstAbove_of_fits : FirstAbove num base (Nat.digits base num).length := by
  constructor
  · rw [power_of_fits least fits (Nat.le_max_left _ _)]
    exact Nat.lt_base_pow_length_digits least
  · intro j before
    rw [power_of_fits least fits (by omega)]
    exact (Nat.lt_digits_length_iff least num).mp before

/-- Nothing is left of the number in front of its digits. -/
theorem zeros_of_fits (j : Nat) (behind : (Nat.digits base num).length ≤ j) (inside : j < minWidth) :
    power base j ≠ 0 ∧ num / power base j % base = 0 := by
  have above : num < base ^ j := Nat.lt_of_lt_of_le (Nat.lt_base_pow_length_digits least)
    (Nat.pow_le_pow_right (by omega) behind)
  rw [power_of_fits least fits (by omega)]
  refine ⟨Nat.pos_iff_ne_zero.mp (Nat.pow_pos (by omega)), ?_⟩
  rw [Nat.div_eq_of_lt above, Nat.zero_mod]

/-- The count of its digits is not cut. -/
theorem wrap_of_fits : wrap (Nat.digits base num).length = (Nat.digits base num).length := by
  have places := places_of_fits least fits
  apply wrap_of_lt
  unfold wordLimit
  omega

/-- Nothing overflows in such a text. -/
theorem formattable_of_fits : Formattable num base minWidth :=
  .inr ⟨⟨_, firstAbove_of_fits least fits, by rw [wrap_of_fits least fits]⟩,
    zeros_of_fits least fits⟩

/-- A number gets such a text, unless memory runs out. -/
theorem ntostr_of_fits (malloc : Nat → Bool) (word : num < 2 ^ 64) (most : base ≤ 16)
    (sized : minWidth < wordLimit) :
    (ntostr malloc 64 num base minWidth = .error .abort ∧
        ∃ bytes ≤ max (Nat.digits base num).length minWidth, malloc bytes = false) ∨
      ∃ str, ntostr malloc 64 num base minWidth = .ok str ∧
        str.items = formatted base minWidth num := by
  have places := places_of_fits least fits
  by_cases zero : num = 0
  · subst zero
    exact (ntostr_zero malloc 64 least most sized).imp_left fun refused =>
      ⟨refused.1, minWidth, Nat.le_max_right _ _, refused.2⟩
  · exact ntostr_text malloc word least most sized zero (firstAbove_of_fits least fits) (by omega)
      (by rw [wrap_of_fits least fits]) (zeros_of_fits least fits)

end Fits

/-- A number that gets its text when memory does not run out is not disturbed by overflow. -/
theorem formattable_of_formats (word : num < 2 ^ 64) (least : 2 ≤ base) (most : base ≤ 16)
    (sized : minWidth < wordLimit) (formats : Formats num base minWidth) :
    Formattable num base minWidth := by
  by_cases zero : num = 0
  · exact .inl zero
  · have valid : ¬(base < 2 ∨ 16 < base) := by omega
    obtain ⟨⟨str, kept, room⟩, made⟩ :=
      (reserve_bytes (KVector.empty : KVector UInt8) (fun _ => true) sized).resolve_left
        fun refused => Bool.noConfusion refused.2
    have none : str.items.length = 0 := congrArg List.length kept
    obtain ⟨fuel, outcome⟩ := formats fun _ => true
    unfold ntostr at outcome
    rw [made, ok_bind] at outcome
    dsimp only at outcome
    rw [if_neg valid, if_neg zero] at outcome
    rcases strLen_cases num base fuel 1 0 with endless | ⟨counted, ends⟩
    · rw [endless] at outcome
      rcases outcome with same | ⟨_, same, -⟩
      · cases same
      · cases same
    · have starts : strLen num base fuel (power base 0) (wrap 0) = .ok counted := by
        rw [power_zero]
        exact ends
      obtain ⟨k, above, rfl⟩ := strLen_ok (fun j before => absurd before (Nat.not_lt_zero j)) starts
      have len : (if wrap k < minWidth then minWidth else wrap k) = max (wrap k) minWidth := by
        split <;> omega
      have small : max (wrap k) minWidth < wordLimit := max_lt (Nat.mod_lt k (by decide)) sized
      have total : str.items.length + max (wrap k) minWidth < wordLimit := by
        rw [none, Nat.zero_add]
        exact small
      obtain ⟨blank, appended, items⟩ :=
        (appendCopies_bytes str (fun _ => true) 0 total).resolve_left
          fun refused => Bool.noConfusion refused.2
      have filled : blank.items.length = max (wrap k) minWidth := by
        rw [items, List.length_append, none, Nat.zero_add, List.length_replicate]
      rw [ends, ok_bind, len, appended, ok_bind] at outcome
      rcases outcome with outside | ⟨after, written, text⟩
      · exact absurd outside (putDigits_inside (Nat.le_of_eq filled.symm))
      · rw [← power_zero base] at written
        have nonzero := putDigits_nonzero written
        obtain ⟨again, same, shown⟩ := putDigits_ok (Nat.le_of_eq filled.symm) nonzero
        obtain rfl : again = after := Except.ok.inj (same.symm.trans written)
        rw [List.drop_of_length_le (Nat.le_of_eq filled), List.append_nil] at shown
        have long : max (wrap k) minWidth = max (Nat.digits base num).length minWidth := by
          have sizes := congrArg List.length (shown.symm.trans text)
          rw [List.length_reverse, List.length_map, List.length_range', length_formatted] at sizes
          exact sizes
        refine .inr ⟨⟨k, above, long⟩, fun j behind inside => ⟨?_, ?_⟩⟩
        · have places := nonzero j (by omega)
          rw [Nat.zero_add] at places
          exact places
        · exact (places_formatted word least most long).mp (shown.symm.trans text) j behind inside

/-- `ntostr` returns the text of a number, or aborts for want of memory, exactly when overflow does
not show. -/
theorem ntostr_formats_iff (word : num < 2 ^ 64) (least : 2 ≤ base) (most : base ≤ 16)
    (sized : minWidth < wordLimit) : Formats num base minWidth ↔ Formattable num base minWidth :=
  ⟨formattable_of_formats word least most sized, formats_of_formattable word least most sized⟩

end Function

/-- Four places for two hexadecimal digits. -/
theorem ntostr_formats_byte : Formats 255 16 4 := by
  have digits : (Nat.digits 16 255).length = 2 := by norm_num
  have fits : 16 ^ max (Nat.digits 16 255).length 4 < 2 ^ 64 := by
    rw [digits]
    decide
  exact (ntostr_formats_iff (by decide) (by decide) (by decide) (by decide)).mpr
    (formattable_of_fits (by decide) fits)

/-- No power is above the largest number. -/
theorem ntostr_largest : ¬Formats (2 ^ 64 - 1) 10 1 := by
  intro formats
  have formattable :=
    formattable_of_formats (by decide) (by decide) (by decide) (by decide) formats
  obtain ⟨⟨k, above, -⟩, -⟩ := formattable.resolve_left (by decide)
  have cut : power 10 k < 2 ^ 64 := Nat.mod_lt _ (by decide)
  have larger := above.above
  omega

end FelineOS.Logger
