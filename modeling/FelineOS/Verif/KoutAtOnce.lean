import FelineOS.Verif.Kout
import FelineOS.Verif.StrDebug

/-!
# Messages of the logger without allocations

The code that manages memory cannot allocate for its own messages. Its parts are written one by one,
and the numbers come out of an array on the stack that always shows sixteen digits, so that the
text is that of a collected message with wider numbers.
-/

namespace FelineOS.Kout

open Library

/-! ## Numbers -/

/-- The places of an array are filled as those of a string are. -/
theorem putPlaces_eq {num base offset todivby : Nat} {str after : KVector UInt8}
    (inside : offset ≤ str.items.length)
    (put : Logger.putDigits num base offset todivby str = .ok after) :
    putPlaces num base offset todivby str.items = .ok after.items := by
  induction offset generalizing todivby str with
  | zero => exact congrArg (Except.map KVector.items) put
  | succ offset ih =>
    rw [Logger.putDigits] at put
    by_cases zero : todivby = 0
    · rw [if_pos zero] at put
      cases put
    · have short : ¬str.items.length ≤ offset := Nat.not_le_of_lt inside
      rw [if_neg zero, if_neg short] at put
      have next := ih (by
        show offset ≤ (str.items.modify offset _).length
        rw [List.length_modify]
        omega) put
      rw [putPlaces, if_neg zero]
      have same : (str.modify offset fun _ => UInt8.ofNat (num / todivby % base) + 0x30).items =
          str.items.set offset (UInt8.ofNat (num / todivby % base) + 0x30) := by
        show str.items.modify offset _ = _
        rw [List.modify_eq_set]
      rw [same] at next
      exact next

/-- No character of a decimal number is the end of a string. -/
theorem decimal_ne_zero {minWidth num : Nat} {c : UInt8}
    (listed : c ∈ Logger.formatted 10 minWidth num) : c ≠ 0 := by
  have digits : ∀ d < 10, UInt8.ofNat d + 0x30 ≠ 0 := by decide
  obtain ⟨d, digit, rfl⟩ := Logger.mem_formatted (by decide) listed
  exact digits d digit

/-- Sixteen places hold every power that they divide by. -/
theorem sixteen_fits (n : UInt32) : 10 ^ max (Nat.digits 10 n.toNat).length 16 < 2 ^ 64 := by
  have digits := decimal_digits n
  rw [Nat.max_eq_right (by omega)]
  decide

/-- A number is in the array with sixteen digits, and behind it the end of the string. -/
theorem itostrArray_text (n : UInt32) {buf : List UInt8} (room : 17 ≤ buf.length) :
    ∃ rest, itostrArray n.toNat buf = .ok (Logger.formatted 10 16 n.toNat ++ 0 :: rest) ∧
      rest.length = buf.length - 17 := by
  have least : 2 ≤ 10 := by decide
  have fits := sixteen_fits n
  have word : n.toNat < 2 ^ 64 := Nat.lt_trans n.toNat_lt (by decide)
  have digits := decimal_digits n
  have width : 16 = max (Nat.digits 10 n.toNat).length 16 := (Nat.max_eq_right (by omega)).symm
  let str : KVector UInt8 := ⟨buf.set 16 0, _, Nat.le_refl _⟩
  have inside : 16 ≤ str.items.length := by
    show 16 ≤ (buf.set 16 0).length
    rw [List.length_set]
    omega
  have nonzero (i : Nat) (before : i < 16) : Logger.power 10 (0 + i) ≠ 0 := by
    rw [Nat.zero_add, Logger.power_of_fits least fits (by omega)]
    exact Nat.pos_iff_ne_zero.mp (Nat.pow_pos (by decide))
  have filled : ∃ after, Logger.putDigits n.toNat 10 16 (Logger.power 10 0) str = .ok after ∧
      after.items = ((List.range' 0 16).map (Logger.place n.toNat 10)).reverse ++
        str.items.drop 16 :=
    Logger.putDigits_ok inside nonzero
  obtain ⟨after, written, shown⟩ := filled
  rw [Logger.power_zero] at written
  have text : ((List.range' 0 16).map (Logger.place n.toNat 10)).reverse =
      Logger.formatted 10 16 n.toNat :=
    (Logger.places_formatted word least (by decide) width).mpr fun j behind before =>
      (Logger.zeros_of_fits least fits j behind before).2
  have back : (buf.set 16 0).drop 16 = 0 :: buf.drop 17 := by
    rw [List.drop_set, if_neg (Nat.lt_irrefl 16), List.drop_eq_getElem_cons (by omega)]
    rfl
  have placed := putPlaces_eq inside written
  rw [shown, text] at placed
  refine ⟨buf.drop 17, ?_, List.length_drop⟩
  rw [itostrArray, ntostrArray, if_neg (by decide), if_neg (by omega), ← back]
  exact placed

/-- The string in the array is the number. -/
theorem ofCString_text {ι : Type} (n : UInt32) (rest : List UInt8) :
    ofCString (ι := ι) (Logger.formatted 10 16 n.toNat ++ 0 :: rest) =
      .ok (.literal (Logger.formatted 10 16 n.toNat)) := by
  have ends : (0 : UInt8) ∈ Logger.formatted 10 16 n.toNat ++ 0 :: rest :=
    List.mem_append_right _ (List.mem_cons_self ..)
  have taken : (Logger.formatted 10 16 n.toNat ++ 0 :: rest).takeWhile (· ≠ 0) =
      Logger.formatted 10 16 n.toNat := by
    rw [List.takeWhile_append_of_pos fun c listed => decide_eq_true (decimal_ne_zero listed)]
    simp
  rw [ofCString, if_pos ends, taken]

/-! ## Parts -/

variable {ι : Type} [DecidableEq ι] {malloc : Heap ι → Nat → Option ι} {start heap : Heap ι}
  {held : List (ι × List UInt8)} {parts : List (List UInt8)} {out : Kout ι}
  {asked : Heap ι → Nat → Prop} {excuse : Prop}

/-- The object has passed parts on and keeps nothing. -/
structure Passes (start : Heap ι) (held : List (ι × List UInt8)) (parts : List (List UInt8))
    (made : Kout ι × Heap ι) : Prop where
  /-- It does not collect. -/
  alloc : made.1.alloc = false
  /-- It has no views. -/
  strings : made.1.strings = Owned.empty
  /-- It has no strings. -/
  extender : made.1.lifetimeExtender = Owned.empty
  /-- The parts are written. -/
  written : made.1.written = parts
  /-- Only others hold blocks. -/
  holding : Holding start held made.2

/-- A part is passed on. -/
theorem Passes.part (passes : Passes start held parts (out, heap)) {view : KStringView ι}
    {chars : List UInt8} (read : view.chars heap = .ok chars) :
    Settles asked malloc .abort excuse (Passes start held (parts ++ [chars]))
      (fun malloc => addPart malloc view out heap) := by
  have direct : ¬out.alloc = true := by
    rw [passes.alloc]
    decide
  unfold addPart
  simp only [if_neg direct, read, ok_bind]
  exact .done { passes with written := congrArg (· ++ [chars]) passes.written }

/-- So is a literal. -/
theorem Passes.literal (passes : Passes start held parts (out, heap)) (chars : List UInt8) :
    Settles asked malloc .abort excuse (Passes start held (parts ++ [chars]))
      (fun malloc => addPart malloc (.literal chars) out heap) :=
  passes.part rfl

/-- So is a character. -/
theorem Passes.char (passes : Passes start held parts (out, heap)) (c : UInt8) :
    Settles asked malloc .abort excuse (Passes start held (parts ++ [[c]]))
      (fun malloc => outChar malloc c out heap) := by
  have direct : ¬out.alloc = true := by
    rw [passes.alloc]
    decide
  unfold outChar
  simp only [if_neg direct]
  exact passes.literal [c]

/-- So is a string, which is then released. -/
theorem Passes.string {str : KString ι} {chars : List UInt8}
    (passes : Passes start (str.owned chars ++ held) parts (out, heap)) (has : str.Has chars) :
    Settles asked malloc .abort excuse (Passes start held (parts ++ [chars]))
      (fun malloc => outString malloc str out heap) := by
  have direct : ¬out.alloc = true := by
    rw [passes.alloc]
    decide
  unfold outString
  simp only [if_neg direct]
  apply (passes.part (has.chars_view passes.holding)).bind
  rintro ⟨out, after⟩ passes
  obtain ⟨left, destroyed, holding⟩ := KString.destroy_spec passes.holding
  simp only [destroyed, ok_bind]
  exact .done { passes with holding }

/-- There is no memory for the string of an item. -/
def Item.Refused (malloc : Heap ι → Nat → Option ι) (start : Heap ι) : Item → Prop
  | .string _ capacity _ => malloc start capacity.toNat = none
  | _ => False

/-- What is asked for the string of an item. -/
def Item.Asks (start : Heap ι) (item : Item) (heap : Heap ι) (bytes : Nat) : Prop :=
  heap = start ∧ ∃ chars capacity fits, item = .string chars capacity fits ∧ bytes = capacity.toNat

omit [DecidableEq ι] in
/-- What is asked and refused is the string of an item. -/
theorem Item.Asks.refused {item : Item} {bytes : Nat} (asks : item.Asks start heap bytes)
    (none : malloc heap bytes = none) : item.Refused malloc start := by
  obtain ⟨rfl, chars, capacity, fits, rfl, rfl⟩ := asks
  exact none

/-- An item is passed on. -/
theorem Passes.put (fresh : Fresh malloc) (item : Item) (passes : Passes start [] parts (out, heap)) :
    Settles (item.Asks start) malloc .abort False (Passes start [] (parts ++ [item.text]))
      (fun malloc => put malloc item out heap) := by
  cases item with
  | view chars => exact passes.literal chars
  | string chars capacity fits =>
    have same := passes.holding.eq_start
    dsimp only at same
    subst same
    have asks : (Item.string chars capacity fits).Asks heap heap capacity.toNat :=
      ⟨rfl, chars, capacity, fits, rfl, rfl⟩
    apply (makeString_spec fresh fits capacity.toNat_lt asks passes.holding).bind
    rintro ⟨str, made⟩ ⟨has, holding⟩
    have held : Passes heap (str.owned chars ++ []) parts (out, made) := { passes with holding }
    exact held.string has
  | char c => exact passes.char c

/-- Items are passed on one after the other. -/
theorem Passes.putAll (fresh : Fresh malloc) (items : List Item)
    (passes : Passes start [] parts (out, heap)) :
    Settles (fun heap bytes => ∃ item ∈ items, item.Asks start heap bytes) malloc .abort False
      (Passes start [] (parts ++ items.map Item.text))
      (fun malloc => putAll malloc items out heap) := by
  induction items generalizing parts out heap with
  | nil =>
    rw [List.map_nil, List.append_nil]
    exact .done passes
  | cons item items ih =>
    have first := passes.put fresh item
    apply (first.widen fun _ _ asks => ⟨item, List.mem_cons_self .., asks⟩).bind
    rintro ⟨out, after⟩ passes
    have next := ih passes
    rw [List.append_assoc] at next
    apply next.widen
    rintro heap bytes ⟨other, listed, asks⟩
    exact ⟨other, List.mem_cons_of_mem _ listed, asks⟩

/-- The constructor passes the head of the message on, and allocates nothing. -/
theorem construct_passes {fuel truncate : Nat} (level : LogLevel) {loc : SourceLocation}
    (truncated : truncate ≤ loc.fileName.length) {buf : List UInt8} (room : 17 ≤ buf.length) :
    Settles asked malloc .abort excuse (Passes start [] (headParts 16 truncate level loc))
      (fun malloc => construct malloc fuel truncate level loc false buf start) := by
  have nothing : Passes start [] [] (⟨Owned.empty, Owned.empty, false, []⟩, start) :=
    ⟨rfl, rfl, rfl, rfl, .nothing start⟩
  obtain ⟨rest, line, size⟩ := itostrArray_text loc.line room
  have again : 17 ≤ (Logger.formatted 10 16 loc.line.toNat ++ 0 :: rest).length := by
    have digits := decimal_digits loc.line
    rw [List.length_append, Logger.length_formatted, List.length_cons, Nat.max_eq_right (by omega)]
    omega
  obtain ⟨left, column, -⟩ := itostrArray_text loc.column again
  unfold construct relativePath
  simp only [if_pos truncated, ok_bind]
  apply (nothing.literal level.text).bind
  rintro ⟨out, heap⟩ passes
  apply (passes.literal _).bind
  rintro ⟨out, heap⟩ passes
  apply (passes.char _).bind
  rintro ⟨out, heap⟩ passes
  simp only [if_neg Bool.false_ne_true, line, ok_bind, ofCString_text]
  apply (passes.literal _).bind
  rintro ⟨out, heap⟩ passes
  apply (passes.char _).bind
  rintro ⟨out, heap⟩ passes
  simp only [column, ok_bind, ofCString_text]
  apply (passes.literal _).bind
  rintro ⟨out, heap⟩ passes
  apply (passes.char _).bind
  rintro ⟨out, heap⟩ passes
  apply (passes.literal _).bind
  rintro ⟨out, heap⟩ passes
  exact passes.literal _

/-- The destructor passes the end of the message on. -/
theorem Passes.destroy (passes : Passes start [] parts (out, heap)) :
    Settles asked malloc .abort excuse (fun made => made = (parts ++ [ascii "\n"], start))
      (fun malloc => destroy malloc out heap) := by
  unfold Kout.destroy
  apply (passes.literal _).bind
  rintro ⟨out, heap⟩ passes
  have direct : ¬out.alloc = true := by
    rw [passes.alloc]
    decide
  have gone : destroyMembers out heap = .ok start := by
    rw [destroyMembers, passes.extender, passes.strings, ← passes.holding.eq_start]
    rfl
  have written : out.written = parts ++ [ascii "\n"] := passes.written
  simp only [if_neg direct, ok_bind, gone, written]
  exact .done rfl

/-- A message without allocations is written part by part, in order, with numbers of sixteen digits.
It fails only when there is no memory for a string that the caller makes, and without such strings
never. -/
theorem log_writes_at_once (fresh : Fresh malloc) (fuel : Nat) {truncate : Nat} (level : LogLevel)
    {loc : SourceLocation} (truncated : truncate ≤ loc.fileName.length) {buf : List UInt8}
    (room : 17 ≤ buf.length) (items : List Item) (heap : Heap ι) :
    (log malloc fuel truncate level loc false buf items heap = .error .abort ∧
        ∃ item ∈ items, item.Refused malloc heap) ∨
      log malloc fuel truncate level loc false buf items heap =
        .ok (Kout.parts 16 truncate level loc items, heap) := by
  have settles : Settles (fun state bytes => ∃ item ∈ items, item.Asks heap state bytes) malloc
      .abort False (fun made => made = (Kout.parts 16 truncate level loc items, heap))
      (fun malloc => log malloc fuel truncate level loc false buf items heap) := by
    unfold log
    apply (construct_passes level truncated room).bind
    rintro ⟨out, made⟩ passes
    apply (passes.putAll fresh items).bind
    rintro ⟨out, made⟩ passes
    exact passes.destroy
  rcases settles.cases_of with ⟨fails, lack⟩ | ⟨made, returns, rfl⟩
  · obtain ⟨state, bytes, ⟨item, listed, asks⟩, none, -⟩ := lack.resolve_right And.left
    exact .inl ⟨fails, item, listed, asks.refused none⟩
  · exact .inr returns

/-- A message part by part. -/
theorem log_writes_at_once_example :
    log firstFree 64 0 .debug exampleLocation false (List.replicate 20 0x55) exampleItems
        (fun _ => none) =
      .ok (Kout.parts 16 0 .debug exampleLocation exampleItems, fun _ => none) := by
  have returns : (log firstFree 64 0 .debug exampleLocation false (List.replicate 20 0x55)
      exampleItems (fun _ => none)).toBool = true := by
    decide +kernel
  have room : 17 ≤ (List.replicate 20 (0x55 : UInt8)).length := by decide
  rcases log_writes_at_once fresh_firstFree 64 .debug (Nat.zero_le _) room exampleItems
    (fun _ => none) with failed | returned
  · rw [failed.1] at returns
    cases returns
  · exact returned

end FelineOS.Kout
