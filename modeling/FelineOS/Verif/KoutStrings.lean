import FelineOS.Kernel.Kout
import FelineOS.Library.Holding
import FelineOS.Library.Settles
import FelineOS.Verif.NumberText

/-!
# Strings of the logger in the heap

Each member of a string finds the blocks that its caller holds, and leaves what it made besides
them. The only way to fail is to run out of memory.
-/

namespace FelineOS.Kout

open Library

variable {ι : Type} {malloc : Heap ι → Nat → Option ι} {start heap : Heap ι}
  {held : List (ι × List UInt8)} {excuse : Prop}

/-! ## Memory -/

/-- `malloc` answers with blocks that are not allocated. -/
def Fresh (malloc : Heap ι → Nat → Option ι) : Prop :=
  ∀ heap bytes block, malloc heap bytes = some block → heap block = none

/-- Memory is asked for in a heap to which a client that starts from a given one has added its
blocks. -/
def Grown (start heap : Heap ι) (_ : Nat) : Prop :=
  ∃ held, Holding start held heap

/-- So many objects are larger than the address space. -/
def Crowded (limit : Nat) : Prop := uintptrMax / 16 < limit

/-- What a run lacks. It aborts at a request that `malloc` refuses, and does so with every `malloc`
that refuses this request, even if it grants all the others; or it has too many objects, and aborts
even if all requests are granted. -/
def Lacks {β : Type} (malloc : Heap ι → Nat → Option ι) (start : Heap ι) (limit : Nat)
    (run : (Heap ι → Nat → Option ι) → Except Fault β) : Prop :=
  FailsAt (Grown start) malloc .abort run ∨
    Crowded limit ∧ ∀ more, AnswersAll malloc more → run more = .error .abort

/-- A block with its contents, unless it is the null pointer. -/
def atBlock (items : Option ι) (chars : List UInt8) : List (ι × List UInt8) :=
  items.toList.map fun block => (block, chars)

/-- As many bytes as a word can count are not larger than the address space. -/
theorem bytes_sized {num : Nat} {excuse : Prop} (word : num < wordLimit) :
    uintptrMax / 1 < num → excuse := by
  intro large
  rw [Nat.div_one] at large
  unfold uintptrMax wordLimit at *
  omega

/-- Characters are read from a block that is held. -/
theorem chars_spec {items : Option ι} {chars : List UInt8} (present : chars ≠ [] → items.isSome)
    (holding : Holding start held heap)
    (member : ∀ entry ∈ atBlock items chars, entry ∈ held) :
    (KStringView.block items chars.length).chars heap = .ok chars := by
  rw [KStringView.chars]
  by_cases nothing : chars.length = 0
  · rw [if_pos nothing, List.eq_nil_of_length_eq_zero nothing]
  · rw [if_neg nothing]
    cases items with
    | none =>
      have absent := present fun empty => nothing (congrArg List.length empty)
      cases absent
    | some block =>
      have found := holding.inside block chars (member _ (List.mem_singleton.mpr rfl))
      rw [Option.bind_some, found]
      simp

section Updates

variable [DecidableEq ι]

/-- A new block is held besides the others. -/
theorem allocate_spec (fresh : Fresh malloc) {sizeofT count : Nat}
    {asked : Heap ι → Nat → Prop} {excuse : Prop}
    (sized : uintptrMax / sizeofT < count → excuse) (asks : asked heap (count * sizeofT))
    (holding : Holding start held heap) :
    Settles asked malloc .abort excuse
      (fun made => count ≤ uintptrMax / sizeofT ∧ Holding start ((made.1, []) :: held) made.2)
      (fun malloc => allocate malloc sizeofT count heap) := by
  unfold allocate
  by_cases large : uintptrMax / sizeofT < count
  · simp only [if_pos large]
    exact .excused (sized large) fun _ _ => rfl
  · simp only [if_neg large]
    cases answer : malloc heap (count * sizeofT) with
    | none =>
      refine .refused ⟨heap, _, asks, answer, fun more _ refuses => ?_⟩
      simp only [refuses]
    | some block =>
      refine .ended (block, Function.update heap block (some []))
        ⟨Nat.le_of_not_lt large, holding.allocate (fresh _ _ _ answer) []⟩ fun more answers => ?_
      simp only [answers _ _ _ answer]

/-- What is held is released. -/
theorem returnMemory_spec {items : Option ι} {chars : List UInt8}
    (holding : Holding start (atBlock items chars ++ held) heap) :
    ∃ after, returnMemory items heap = .ok after ∧ Holding start held after := by
  cases items with
  | none => exact ⟨heap, rfl, holding⟩
  | some block =>
    have allocated : (heap block).isSome := by
      rw [holding.first]
      rfl
    exact ⟨_, if_pos allocated, holding.release⟩

/-- A new block is filled. -/
theorem fill_spec {block : ι} (chars : List UInt8)
    (holding : Holding start ((block, []) :: held) heap) :
    ∃ after, write (some block) 0 chars heap = .ok after ∧
      Holding start ((block, chars) :: held) after := by
  unfold write
  dsimp only
  rw [holding.first]
  dsimp only
  rw [if_pos (Nat.zero_le _), List.take_zero, List.nil_append, List.drop_nil, List.append_nil]
  exact ⟨_, rfl, holding.write chars⟩

/-- Characters are written into a block that is held. -/
theorem write_spec {items : Option ι} {old chars : List UInt8} {pos : Nat}
    (present : chars ≠ [] → items.isSome) (inside : pos ≤ old.length)
    (holding : Holding start (atBlock items old ++ held) heap) :
    ∃ after, write items pos chars heap = .ok after ∧
      Holding start
        (atBlock items (old.take pos ++ chars ++ old.drop (pos + chars.length)) ++ held) after := by
  cases items with
  | none =>
    have nothing : chars = [] := by
      by_contra nonempty
      cases present nonempty
    exact ⟨heap, if_pos nothing, holding⟩
  | some block =>
    unfold write
    dsimp only
    rw [holding.first]
    dsimp only
    rw [if_pos inside]
    exact ⟨_, rfl, holding.write _⟩

end Updates

/-! ## Decimal numbers -/

/-- A number of 32 bits has at most ten decimal digits. -/
theorem decimal_digits (n : UInt32) : (Nat.digits 10 n.toNat).length ≤ 10 := by
  rw [Nat.digits_length_le_iff (by decide)]
  exact Nat.lt_trans n.toNat_lt (by decide)

/-- So has its text. -/
theorem decimal_short (n : UInt32) : max (Nat.digits 10 n.toNat).length 1 ≤ 10 :=
  max_le (decimal_digits n) (by decide)

/-- The powers at its places are not cut. -/
theorem decimal_fits (n : UInt32) : 10 ^ max (Nat.digits 10 n.toNat).length 1 < 2 ^ 64 :=
  Nat.lt_of_le_of_lt (Nat.pow_le_pow_right (by decide) (decimal_short n)) (by decide)

/-- The loop over the powers comes to the number of digits. -/
theorem decimal_length (n : UInt32) {fuel : Nat} (enough : 10 < fuel) :
    Logger.strLen n.toNat 10 fuel 1 0 = .ok (Nat.digits 10 n.toNat).length := by
  have above := Logger.firstAbove_of_fits (by decide) (decimal_fits n)
  have short := decimal_digits n
  have rest : (Nat.digits 10 n.toNat).length - 0 < fuel := by omega
  have counted := Logger.strLen_above above (Nat.zero_le _) rest
  rw [Logger.power_zero, Logger.wrap_of_fits (by decide) (decimal_fits n)] at counted
  exact counted

/-- A text of zeros stands for zero. -/
theorem formatted_zero (base minWidth : Nat) :
    Logger.formatted base minWidth 0 = List.replicate minWidth 0x30 := by
  rw [Logger.formatted, Nat.digits_zero, List.map_nil, List.reverse_nil, List.append_nil]
  rfl

/-- The longer one of two lengths. -/
theorem if_max (len minWidth : Nat) : (if len < minWidth then minWidth else len) = max len minWidth := by
  split <;> omega

/-- The loop over the places writes the text. -/
theorem putDigits_decimal (n : UInt32) (str : KVector UInt8)
    (long : str.items.length = max (Nat.digits 10 n.toNat).length 1) :
    ∃ after, Logger.putDigits n.toNat 10 (max (Nat.digits 10 n.toNat).length 1) 1 str = .ok after ∧
      after.items = Logger.formatted 10 1 n.toNat := by
  have least : 2 ≤ 10 := by decide
  have fits := decimal_fits n
  have word : n.toNat < 2 ^ 64 := Nat.lt_trans n.toNat_lt (by decide)
  have nonzero (i : Nat) (inside : i < max (Nat.digits 10 n.toNat).length 1) :
      Logger.power 10 (0 + i) ≠ 0 := by
    rw [Nat.zero_add, Logger.power_of_fits least fits (Nat.le_of_lt inside)]
    exact Nat.pos_iff_ne_zero.mp (Nat.pow_pos (by decide))
  obtain ⟨after, written, shown⟩ := Logger.putDigits_ok (Nat.le_of_eq long.symm) nonzero
  rw [Logger.power_zero] at written
  refine ⟨after, written, ?_⟩
  rw [shown, List.drop_of_length_le (Nat.le_of_eq long), List.append_nil,
    Logger.places_formatted word least (by decide) rfl]
  exact fun j behind inside => (Logger.zeros_of_fits least fits j behind inside).2

/-! ## Strings -/

namespace KString

variable {str : KString ι} {chars : List UInt8}

/-- A string has characters. -/
structure Has (str : KString ι) (chars : List UInt8) : Prop where
  /-- `num_items` is their number. -/
  number : str.numItems = chars.length
  /-- They fit. -/
  room : chars.length ≤ str.capacity
  /-- The capacity is a `size_t`. -/
  word : str.capacity < wordLimit
  /-- The places are in a block. -/
  block : str.capacity ≠ 0 → str.items.isSome

/-- The block of a string. -/
def owned (str : KString ι) (chars : List UInt8) : List (ι × List UInt8) := atBlock str.items chars

/-- A string with characters has a block. -/
theorem Has.present (has : str.Has chars) : chars ≠ [] → str.items.isSome := by
  intro nonempty
  apply has.block
  have room := has.room
  have long := List.length_pos_iff.mpr nonempty
  omega

/-- A string that was just constructed has no characters. -/
theorem has_empty : (empty : KString ι).Has [] where
  number := rfl
  room := Nat.le_refl 0
  word := Nat.pos_of_ne_zero (by decide)
  block zero := absurd rfl zero

/-- The characters of a string that is held are read. -/
theorem Has.chars_view (has : str.Has chars) (holding : Holding start (str.owned chars ++ held) heap) :
    str.view.chars heap = .ok chars := by
  unfold KString.view
  rw [has.number]
  exact chars_spec has.present holding fun entry member => List.mem_append_left _ member

variable [DecidableEq ι]

/-- Making room keeps the characters. -/
theorem Has.reserve (fresh : Fresh malloc) (has : str.Has chars) {num : Nat}
    {asked : Heap ι → Nat → Prop} {excuse : Prop} (word : num < wordLimit)
    (asks : asked heap num) (holding : Holding start (str.owned chars ++ held) heap) :
    Settles asked malloc .abort excuse
      (fun made => made.1.Has chars ∧ num ≤ made.1.capacity ∧
        Holding start (made.1.owned chars ++ held) made.2)
      (fun malloc => str.reserve malloc num heap) := by
  unfold KString.reserve
  by_cases enough : num ≤ str.capacity
  · simp only [if_pos enough]
    exact .done ⟨has, enough, holding⟩
  · simp only [if_neg enough]
    apply (allocate_spec fresh (bytes_sized word) (by rwa [Nat.mul_one]) holding).bind
    rintro ⟨newItems, grown⟩ ⟨-, granted⟩
    have room := has.room
    have read := has.chars_view (granted.perm List.perm_middle.symm)
    obtain ⟨_, written, filled⟩ := fill_spec chars granted
    obtain ⟨_, returned, left⟩ := returnMemory_spec (filled.perm List.perm_middle.symm)
    simp only [read, ok_bind, written, returned]
    refine .done ⟨⟨has.number, ?_, word, fun _ => rfl⟩, Nat.le_refl num, left⟩
    show chars.length ≤ num
    omega

/-- Copies of a character come behind the others. -/
theorem Has.append (fresh : Fresh malloc) (has : str.Has chars) (item : UInt8) {count : Nat}
    (word : chars.length + count < wordLimit)
    (holding : Holding start (str.owned chars ++ held) heap) :
    Settles (Grown start) malloc .abort excuse
      (fun made => made.1.Has (chars ++ List.replicate count item) ∧
        Holding start (made.1.owned (chars ++ List.replicate count item) ++ held) made.2)
      (fun malloc => str.append malloc item count heap) := by
  unfold KString.append
  simp only [has.number, wrap_of_lt word]
  apply (has.reserve fresh word ⟨_, holding⟩ holding).bind
  rintro ⟨str, grown⟩ ⟨has, enough, holding⟩
  have long : (chars ++ List.replicate count item).length = chars.length + count := by
    rw [List.length_append, List.length_replicate]
  have present : List.replicate count item ≠ [] → str.items.isSome := by
    intro nonempty
    apply has.block
    have some := List.length_pos_iff.mpr nonempty
    rw [List.length_replicate] at some
    exact Nat.ne_of_gt (Nat.lt_of_lt_of_le (Nat.lt_add_left _ some) enough)
  obtain ⟨after, written, contents⟩ :=
    write_spec present (Nat.le_refl chars.length) holding
  rw [List.take_length, List.drop_eq_nil_of_le (Nat.le_add_right _ _),
    List.append_nil] at contents
  dsimp only at has enough written ⊢
  simp only [has.number, if_pos enough, written, ok_bind, wrap_of_lt word]
  refine .done ⟨⟨long.symm, ?_, has.word, has.block⟩, contents⟩
  rw [long]
  exact enough

/-- A copy holds the characters once more. -/
theorem Has.copy (fresh : Fresh malloc) (has : str.Has chars)
    (holding : Holding start (str.owned chars ++ held) heap) :
    Settles (Grown start) malloc .abort excuse
      (fun made => made.1.Has chars ∧
        Holding start (made.1.owned chars ++ (str.owned chars ++ held)) made.2)
      (fun malloc => str.copy malloc heap) := by
  have word : chars.length < wordLimit := Nat.lt_of_le_of_lt has.room has.word
  unfold KString.copy
  simp only [has.number]
  apply (allocate_spec fresh (bytes_sized word) ⟨_, holding⟩ holding).bind
  rintro ⟨items, grown⟩ ⟨-, granted⟩
  have read := has.chars_view (granted.perm List.perm_middle.symm)
  obtain ⟨_, written, filled⟩ := fill_spec chars granted
  simp only [read, ok_bind, written]
  exact .done ⟨⟨rfl, Nat.le_refl _, word, fun _ => rfl⟩, filled⟩

/-- The destructor releases the block. -/
theorem destroy_spec (holding : Holding start (str.owned chars ++ held) heap) :
    ∃ after, str.destroy heap = .ok after ∧ Holding start held after :=
  returnMemory_spec holding

/-- The text of a decimal number of 32 bits. -/
theorem dec_spec (fresh : Fresh malloc) {fuel : Nat} (enough : 10 < fuel) (n : UInt32)
    (holding : Holding start held heap) :
    Settles (Grown start) malloc .abort excuse
      (fun made => made.1.Has (Logger.formatted 10 1 n.toNat) ∧
        Holding start (made.1.owned (Logger.formatted 10 1 n.toNat) ++ held) made.2)
      (fun malloc => dec malloc fuel n.toNat 1 heap) := by
  unfold dec ntostr
  apply (has_empty.reserve fresh (by decide) ⟨_, holding⟩ holding).bind
  rintro ⟨str, made⟩ ⟨has, -, holding⟩
  have based : ¬(10 < 2 ∨ 16 < 10) := by decide
  simp only [if_neg based]
  by_cases zero : n.toNat = 0
  · simp only [if_pos zero]
    rw [zero, formatted_zero]
    have word : ([] : List UInt8).length + 1 < wordLimit := by decide
    exact has.append fresh 0x30 word holding
  · have least : 2 ≤ 10 := by decide
    have fits := decimal_fits n
    have long : max (Nat.digits 10 n.toNat).length 1 < wordLimit :=
      Nat.lt_of_le_of_lt (decimal_short n) (by decide)
    simp only [if_neg zero, decimal_length n enough, ok_bind, if_max]
    apply (has.append fresh 0 (by rwa [List.length_nil, Nat.zero_add]) holding).bind
    rintro ⟨blank, grown⟩ ⟨has, holding⟩
    rw [List.nil_append] at has holding
    obtain ⟨digits, put, text⟩ := putDigits_decimal n
      (full (List.replicate (max (Nat.digits 10 n.toNat).length 1) 0))
      List.length_replicate
    have size : digits.items.length = max (Nat.digits 10 n.toNat).length 1 := by
      rw [text, Logger.length_formatted]
    have present : digits.items ≠ [] → blank.items.isSome := by
      intro nonempty
      apply has.present
      intro none
      have count := congrArg List.length none
      rw [List.length_replicate, ← size] at count
      exact nonempty (List.eq_nil_of_length_eq_zero count)
    obtain ⟨after, written, contents⟩ := write_spec present (Nat.zero_le _) holding
    have all : List.drop (0 + digits.items.length)
        (List.replicate (max (Nat.digits 10 n.toNat).length 1) (0 : UInt8)) = [] :=
      List.drop_eq_nil_of_le (by rw [List.length_replicate, size, Nat.zero_add])
    rw [List.take_zero, List.nil_append, all, List.append_nil, text] at contents
    simp only [has.chars_view holding, ok_bind, put, written]
    refine .done ⟨⟨?_, ?_, has.word, has.block⟩, contents⟩
    · rw [has.number, List.length_replicate, Logger.length_formatted]
    · have room := has.room
      rw [List.length_replicate] at room
      rw [Logger.length_formatted]
      exact room

end KString

end FelineOS.Kout
