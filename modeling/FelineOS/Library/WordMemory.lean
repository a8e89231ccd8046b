import Mathlib.Data.BitVec

/-!
# Words in a memory of bytes

The memory of a machine with 32-bit addresses, as a function from addresses to bytes, with the
little-endian words in it. Addresses wrap around, so whether two words overlap is a question about
the distance between them in both directions.
-/

namespace Library

/-- The bytes of a machine with 32-bit addresses. -/
abbrev Memory : Type := BitVec 32 → BitVec 8

namespace Memory

variable {m other : Memory} {a b base word : BitVec 32} {length : Nat}

/-- The word at an address, with the lowest byte first. -/
def load (m : Memory) (a : BitVec 32) : BitVec 32 := 
  m (a + 3#32) ++ m (a + 2#32) ++ m (a + 1#32) ++ m a

/-- The word at an address is replaced. -/
def store (m : Memory) (a word : BitVec 32) : Memory := fun b =>
  if (b - a).toNat < 4 then word.extractLsb' (8 * (b - a).toNat) 8 else m b

/-- Two words that have no byte in common. -/
def Apart (a b : BitVec 32) : Prop := 4 ≤ (a - b).toNat ∧ 4 ≤ (b - a).toNat

instance : Decidable (Apart a b) := inferInstanceAs (Decidable (_ ∧ _))

/-- Two areas that have no byte in common. -/
def AreasApart (a : BitVec 32) (size : Nat) (b : BitVec 32) (length : Nat) : Prop :=
  ∀ i < size, ∀ j < length, a + BitVec.ofNat 32 i ≠ b + BitVec.ofNat 32 j

instance {size : Nat} : Decidable (AreasApart a size b length) :=
  inferInstanceAs (Decidable (∀ i < size, ∀ j < length, _))

/-- Two memories with the same bytes in an area. -/
def Same (m other : Memory) (base : BitVec 32) (length : Nat) : Prop :=
  ∀ i < length, m (base + BitVec.ofNat 32 i) = other (base + BitVec.ofNat 32 i)

instance : Decidable (Same m other base length) :=
  inferInstanceAs (Decidable (∀ i < length, _))

/-- A word is what its four bytes are. -/
theorem bytes_append (word : BitVec 32) :
    word.extractLsb' 24 8 ++ word.extractLsb' 16 8 ++ word.extractLsb' 8 8 ++
      word.extractLsb' 0 8 = word := by
  apply BitVec.eq_of_getLsbD_eq
  intro i inside
  simp only [BitVec.getLsbD_append, BitVec.getLsbD_extractLsb']
  by_cases first : i < 8
  · simp [first]
  · by_cases second : i - 8 < 8
    · have place : 8 + (i - 8) = i := by omega
      simp [first, second, place]
    · by_cases third : i - 8 - 8 < 8
      · have place : 16 + (i - 8 - 8) = i := by omega
        simp [first, second, third, place]
      · have last : i - 8 - 8 - 8 < 8 := by omega
        have place : 24 + (i - 8 - 8 - 8) = i := by omega
        simp [first, second, third, last, place]

/-- The word that was stored is there. -/
@[simp] theorem load_store (m : Memory) (a word : BitVec 32) : (m.store a word).load a = word := by
  have distance (i : BitVec 32) : a + i - a = i := by rw [BitVec.add_comm, BitVec.add_sub_cancel]
  simp only [load, store, distance, BitVec.sub_self]
  exact bytes_append word

/-- A byte outside of the word that was stored. -/
theorem store_outside (outside : 4 ≤ (b - a).toNat) : m.store a word b = m b :=
  if_neg (Nat.not_lt_of_le outside)

/-- A store leaves the words that are apart from it. -/
theorem load_store_apart (apart : Apart a b) : (m.store b word).load a = m.load a := by
  have far := apart.1
  have near := apart.2
  have byte (i : BitVec 32) (small : i.toNat < 4) : m.store b word (a + i) = m (a + i) := by
    apply store_outside
    bv_omega
  have first : m.store b word a = m a := store_outside far
  simp only [load, first, byte 1#32 (by decide), byte 2#32 (by decide),
    byte 3#32 (by decide)]

/-- Being apart is mutual. -/
theorem Apart.symm (apart : Apart a b) : Apart b a := ⟨apart.2, apart.1⟩

/-- Whether two words of one area are apart is a question about their offsets. -/
theorem apart_offsets (base i j : BitVec 32) : Apart (base + i) (base + j) ↔ Apart i j := by
  have left : base + i - (base + j) = i - j := by bv_omega
  have right : base + j - (base + i) = j - i := by bv_omega
  unfold Apart
  rw [left, right]

/-- Words in two areas that are apart. -/
theorem AreasApart.words {size i j : Nat} (apart : AreasApart a size b length)
    (first : i + 4 ≤ size) (second : j + 4 ≤ length) :
    Apart (a + BitVec.ofNat 32 i) (b + BitVec.ofNat 32 j) := by
  -- an overlap would be a common byte
  have common (k l : Nat) (left : k < 4) (right : l < 4) :
      a + BitVec.ofNat 32 i + BitVec.ofNat 32 k ≠ b + BitVec.ofNat 32 j + BitVec.ofNat 32 l := by
    rw [BitVec.add_assoc, BitVec.add_assoc, ← BitVec.ofNat_add, ← BitVec.ofNat_add]
    exact apart (i + k) (by omega) (j + l) (by omega)
  have reached (x y : BitVec 32) : y + BitVec.ofNat 32 (x - y).toNat = x := by
    rw [BitVec.ofNat_toNat, BitVec.setWidth_eq, BitVec.add_comm, BitVec.sub_add_cancel]
  constructor
  · by_contra near
    apply common 0 _ (by decide) (Nat.lt_of_not_le near)
    rw [reached, BitVec.add_zero]
  · by_contra near
    apply common _ 0 (Nat.lt_of_not_le near) (by decide)
    rw [reached, BitVec.add_zero]

/-- A memory with the same bytes has the same words. -/
theorem Same.load (same : Same m other base length) {i : Nat} (inside : i + 4 ≤ length) :
    m.load (base + BitVec.ofNat 32 i) = other.load (base + BitVec.ofNat 32 i) := by
  have byte (k : Nat) (small : k < 4) : m (base + BitVec.ofNat 32 i + BitVec.ofNat 32 k) =
      other (base + BitVec.ofNat 32 i + BitVec.ofNat 32 k) := by
    rw [BitVec.add_assoc, ← BitVec.ofNat_add]
    exact same (i + k) (by omega)
  have first := byte 0 (by decide)
  rw [BitVec.add_zero] at first
  unfold Memory.load
  rw [first, byte 1 (by decide), byte 2 (by decide), byte 3 (by decide)]

/-- Nothing has changed. -/
theorem Same.refl (m : Memory) (base : BitVec 32) (length : Nat) : Same m m base length :=
  fun _ _ => rfl

/-- What changed twice and stayed the same stayed the same. -/
theorem Same.trans {last : Memory} (first : Same m other base length)
    (second : Same other last base length) : Same m last base length :=
  fun i inside => (first i inside).trans (second i inside)

/-! ## Areas -/

/-- One memory has in an area what another one has in an area elsewhere. -/
def Copied (m : Memory) (a : BitVec 32) (later : Memory) (b : BitVec 32) (length : Nat) : Prop :=
  ∀ i < length, later (b + BitVec.ofNat 32 i) = m (a + BitVec.ofNat 32 i)

instance {later : Memory} : Decidable (Copied m a later b length) :=
  inferInstanceAs (Decidable (∀ i < length, _))

/-- A copy has the same words. -/
theorem Copied.load {later : Memory} (copied : Copied m a later b length) {i : Nat}
    (inside : i + 4 ≤ length) :
    later.load (b + BitVec.ofNat 32 i) = m.load (a + BitVec.ofNat 32 i) := by
  have byte (k : Nat) (small : k < 4) : later (b + BitVec.ofNat 32 i + BitVec.ofNat 32 k) =
      m (a + BitVec.ofNat 32 i + BitVec.ofNat 32 k) := by
    rw [BitVec.add_assoc, BitVec.add_assoc, ← BitVec.ofNat_add]
    exact copied (i + k) (by omega)
  have first := byte 0 (by decide)
  rw [BitVec.add_zero, BitVec.add_zero] at first
  unfold Memory.load
  rw [first, byte 1 (by decide), byte 2 (by decide), byte 3 (by decide)]

/-- What stays where it is is a copy. -/
theorem Same.copied {later : Memory} (same : Same later m base length) :
    Copied m base later base length := same

/-- A part of an area that stays. -/
theorem Same.part {i n : Nat} (same : Same m other base length) (inside : i + n ≤ length) :
    Same m other (base + BitVec.ofNat 32 i) n := by
  intro j small
  rw [BitVec.add_assoc, ← BitVec.ofNat_add]
  exact same (i + j) (by omega)

/-- A part of one of two areas that are apart. -/
theorem AreasApart.part {size i n : Nat} (apart : AreasApart a size b length)
    (inside : i + n ≤ length) : AreasApart a size (b + BitVec.ofNat 32 i) n := by
  intro k first j second
  rw [BitVec.add_assoc, ← BitVec.ofNat_add]
  exact apart k first (i + j) (by omega)

/-- Areas that are apart are so in both orders. -/
theorem AreasApart.symm {size : Nat} (apart : AreasApart a size b length) :
    AreasApart b length a size := fun i first j second same => apart j second i first same.symm

/-- An area that is apart from another one is smaller than the memory. -/
theorem AreasApart.size_lt {size : Nat} (apart : AreasApart a size b length)
    (present : 0 < length) : size < 0x100000000 := by
  by_contra large
  have reached : a + BitVec.ofNat 32 (b - a).toNat = b + BitVec.ofNat 32 0 := by
    rw [BitVec.ofNat_toNat, BitVec.setWidth_eq]
    bv_omega
  exact apart _ (Nat.lt_of_lt_of_le (b - a).isLt (Nat.le_of_not_lt large)) 0 present reached

/-- A word that is stored outside of an area leaves it. -/
theorem Same.store (same : Same m other base length) (apart : AreasApart base length a 4) :
    Same (m.store a word) other base length := by
  intro i inside
  rw [store_outside]
  · exact same i inside
  · -- otherwise the byte would be one of the word
    by_contra near
    apply apart i inside _ (Nat.lt_of_not_le near)
    rw [BitVec.ofNat_toNat, BitVec.setWidth_eq, BitVec.add_comm a, BitVec.sub_add_cancel]

/-! ## Consecutive words -/

/-- Some words from an address on are replaced. -/
def storeWords (m : Memory) (base : BitVec 32) : List (BitVec 32) → Memory
  | [] => m
  | word :: rest => (m.store base word).storeWords (base + 4#32) rest

/-- Some words from an address on. -/
def loadWords (m : Memory) (base : BitVec 32) (n : Nat) : List (BitVec 32) :=
  (List.range n).map fun i => m.load (base + BitVec.ofNat 32 (4 * i))

/-- The number of words. -/
@[simp] theorem length_loadWords (m : Memory) (base : BitVec 32) (n : Nat) :
    (m.loadWords base n).length = n := by
  rw [loadWords, List.length_map, List.length_range]

/-- The words of an area that has not changed. -/
theorem Same.loadWords {later : Memory} {i n : Nat} (same : Same later m base length)
    (inside : i + 4 * n ≤ length) :
    later.loadWords (base + BitVec.ofNat 32 i) n = m.loadWords (base + BitVec.ofNat 32 i) n := by
  apply List.map_congr_left
  intro k member
  have small := List.mem_range.mp member
  rw [BitVec.add_assoc, ← BitVec.ofNat_add]
  exact same.load (by omega)

/-- A word outside stays. -/
theorem load_storeWords_apart (words : List (BitVec 32)) (m : Memory) (base : BitVec 32)
    (apart : ∀ i < words.length, Apart a (base + BitVec.ofNat 32 (4 * i))) :
    (m.storeWords base words).load a = m.load a := by
  induction words generalizing m base with
  | nil => rfl
  | cons word rest ih =>
    have first := apart 0 (Nat.zero_lt_succ _)
    rw [Nat.mul_zero, BitVec.add_zero] at first
    rw [storeWords, ih, load_store_apart first]
    intro i inside
    have next := apart (i + 1) (Nat.succ_lt_succ inside)
    rwa [Nat.mul_succ, Nat.add_comm, BitVec.ofNat_add, ← BitVec.add_assoc] at next

/-- The words that were stored are there, if they do not wrap around the whole memory. -/
theorem load_storeWords (words : List (BitVec 32)) (m : Memory) (base : BitVec 32)
    (fits : 4 * words.length ≤ 2 ^ 32) {i : Nat} (inside : i < words.length) :
    (m.storeWords base words).load (base + BitVec.ofNat 32 (4 * i)) = words[i] := by
  induction words generalizing m base i with
  | nil => exact absurd inside (Nat.not_lt_zero _)
  | cons word rest ih =>
    rw [List.length_cons] at fits
    cases i with
    | zero =>
      rw [storeWords, Nat.mul_zero, BitVec.add_zero, load_storeWords_apart, load_store]
      · rfl
      · intro i later
        unfold Apart
        bv_omega
    | succ i =>
      have step : base + BitVec.ofNat 32 (4 * (i + 1)) =
          base + 4#32 + BitVec.ofNat 32 (4 * i) := by
        rw [Nat.mul_succ, Nat.add_comm, BitVec.ofNat_add, ← BitVec.add_assoc]
      rw [storeWords, step, ih (m.store base word) (base + 4#32) (by omega)
        (Nat.lt_of_succ_lt_succ inside)]
      rfl

/-- Words that are stored outside of an area leave it. -/
theorem Same.storeWords (words : List (BitVec 32)) {first : BitVec 32}
    (same : Same m other base length)
    (apart : AreasApart base length first (4 * words.length)) :
    Same (m.storeWords first words) other base length := by
  induction words generalizing m first with
  | nil => exact same
  | cons word rest ih =>
    rw [List.length_cons] at apart
    have here := apart.part (i := 0) (n := 4) (by omega)
    have behind := apart.part (i := 4) (n := 4 * rest.length) (by omega)
    rw [BitVec.add_zero] at here
    exact ih (same.store here) behind

/-- The words that were stored are those from there on, if they do not wrap around. -/
theorem loadWords_storeWords (words : List (BitVec 32)) (m : Memory) (base : BitVec 32)
    (fits : 4 * words.length ≤ 2 ^ 32) :
    (m.storeWords base words).loadWords base words.length = words := by
  apply List.ext_getElem
  · rw [length_loadWords]
  · intro i first second
    simp only [loadWords, List.getElem_map, List.getElem_range]
    exact load_storeWords words m base fits second

/-- The words of a copy. -/
theorem Copied.loadWords {later : Memory} {n : Nat} (copied : Copied m a later b length)
    (inside : 4 * n ≤ length) : later.loadWords b n = m.loadWords a n := by
  apply List.map_congr_left
  intro k member
  have small := List.mem_range.mp member
  exact copied.load (by omega)

/-! ## Words on a stack -/

/-- Some words are pushed one after the other. -/
def pushWords (m : Memory) (esp : BitVec 32) : List (BitVec 32) → Memory
  | [] => m
  | word :: rest => (m.store (esp - 4#32) word).pushWords (esp - 4#32) rest

/-- A word outside of the stack stays. -/
theorem load_pushWords_apart (words : List (BitVec 32)) (m : Memory) (esp : BitVec 32)
    (apart : ∀ i < words.length, Apart a (esp - BitVec.ofNat 32 (4 * (i + 1)))) :
    (m.pushWords esp words).load a = m.load a := by
  induction words generalizing m esp with
  | nil => rfl
  | cons word rest ih =>
    have first := apart 0 (Nat.zero_lt_succ _)
    rw [pushWords, ih, load_store_apart first]
    intro i inside
    have next := apart (i + 1) (Nat.succ_lt_succ inside)
    have place : esp - 4#32 - BitVec.ofNat 32 (4 * (i + 1)) =
        esp - BitVec.ofNat 32 (4 * (i + 1 + 1)) := by bv_omega
    rwa [place]

/-- The words that were pushed are there, if they do not wrap around the whole memory. -/
theorem load_pushWords (words : List (BitVec 32)) (m : Memory) (esp : BitVec 32)
    (fits : 4 * words.length ≤ 2 ^ 32) {i : Nat} (inside : i < words.length) :
    (m.pushWords esp words).load (esp - BitVec.ofNat 32 (4 * (i + 1))) = words[i] := by
  induction words generalizing m esp i with
  | nil => exact absurd inside (Nat.not_lt_zero _)
  | cons word rest ih =>
    rw [List.length_cons] at fits
    cases i with
    | zero =>
      have place : esp - BitVec.ofNat 32 (4 * (0 + 1)) = esp - 4#32 := rfl
      rw [place, pushWords, load_pushWords_apart, load_store]
      · rfl
      · intro i later
        unfold Apart
        bv_omega
    | succ i =>
      have place : esp - BitVec.ofNat 32 (4 * (i + 1 + 1)) =
          esp - 4#32 - BitVec.ofNat 32 (4 * (i + 1)) := by bv_omega
      rw [place, pushWords, ih (m.store (esp - 4#32) word) (esp - 4#32) (by omega)
        (Nat.lt_of_succ_lt_succ inside)]
      rfl

/-- The words that were pushed, one of which may be missing. -/
theorem load_pushWords_getD (words : List (BitVec 32)) (m : Memory) (esp : BitVec 32)
    (fits : 4 * words.length ≤ 2 ^ 32) {i : Nat} (inside : i < words.length) :
    (m.pushWords esp words).load (esp - BitVec.ofNat 32 (4 * (i + 1))) = words.getD i 0 := by
  rw [load_pushWords words m esp fits inside, List.getD_eq_getElem?_getD,
    List.getElem?_eq_getElem inside, Option.getD_some]

/-- Words that are pushed outside of an area leave it. -/
theorem Same.pushWords (words : List (BitVec 32)) {esp : BitVec 32} (same : Same m other base length)
    (apart : AreasApart base length (esp - BitVec.ofNat 32 (4 * words.length)) (4 * words.length)) :
    Same (m.pushWords esp words) other base length := by
  induction words generalizing m esp with
  | nil => exact same
  | cons word rest ih =>
    rw [List.length_cons] at apart
    have top := apart.part (i := 4 * rest.length) (n := 4) (by omega)
    have below := apart.part (i := 0) (n := 4 * rest.length) (by omega)
    have topPlace : esp - BitVec.ofNat 32 (4 * (rest.length + 1)) +
        BitVec.ofNat 32 (4 * rest.length) = esp - 4#32 := by
      rw [Nat.mul_succ, BitVec.ofNat_add]
      bv_omega
    have belowPlace : esp - BitVec.ofNat 32 (4 * (rest.length + 1)) =
        esp - 4#32 - BitVec.ofNat 32 (4 * rest.length) := by
      rw [Nat.mul_succ, BitVec.ofNat_add]
      bv_omega
    rw [topPlace] at top
    rw [BitVec.add_zero, belowPlace] at below
    exact ih (same.store top) below

/-- Words that are pushed behind others. -/
theorem pushWords_append (first second : List (BitVec 32)) (m : Memory) (esp : BitVec 32) :
    m.pushWords esp (first ++ second) =
      (m.pushWords esp first).pushWords (esp - BitVec.ofNat 32 (4 * first.length)) second := by
  induction first generalizing m esp with
  | nil => simp [pushWords]
  | cons word rest ih =>
    have place : esp - 4#32 - BitVec.ofNat 32 (4 * rest.length) =
        esp - BitVec.ofNat 32 (4 * (rest.length + 1)) := by
      rw [Nat.mul_succ, BitVec.ofNat_add]
      bv_omega
    rw [List.cons_append, pushWords, pushWords, ih, place]
    rfl

/-- What is above the stack pointer is apart from what is below it. -/
theorem apart_below (esp : BitVec 32) {n size : Nat} (fits : size + n ≤ 2 ^ 32) :
    AreasApart esp n (esp - BitVec.ofNat 32 size) size := by
  intro i first j second same
  have above : (BitVec.ofNat 32 i).toNat = i := by
    rw [BitVec.toNat_ofNat]
    omega
  bv_omega

end Memory

end Library
