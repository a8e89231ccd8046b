import FelineOS.Library.WordMemory

/-!
# Tables of words in memory

A table has a word in each of its slots. A store into one slot changes no other, and what lies
behind the table is not touched. The fields that a machine takes out of a word by shifting and
masking are quotients and remainders of its number.
-/

namespace Library

namespace Memory

variable {m : Memory} {base word : BitVec 32} {k n : Nat}

/-- More slots than these have no address of their own. -/
def slotLimit : Nat := 0x40000000

/-- The address of a slot. -/
def slot (base : BitVec 32) (n : Nat) : BitVec 32 := base + BitVec.ofNat 32 (4 * n)

/-- The word in a slot. -/
def entry (m : Memory) (base : BitVec 32) (n : Nat) : BitVec 32 := m.load (slot base n)

/-- Two slots are apart. -/
theorem slots_apart (first : k < slotLimit) (second : n < slotLimit) (other : k ≠ n) :
    Apart (slot base k) (slot base n) := by
  unfold slotLimit at first second
  unfold slot
  rw [apart_offsets]
  unfold Apart
  rw [BitVec.toNat_sub, BitVec.toNat_sub, BitVec.toNat_ofNat, BitVec.toNat_ofNat]
  omega

/-- A store changes one slot. -/
theorem entry_store (first : k < slotLimit) (second : n < slotLimit) :
    (m.store (slot base k) word).entry base n = if n = k then word else m.entry base n := by
  unfold entry
  by_cases same : n = k
  · rw [if_pos same, same, load_store]
  · rw [if_neg same, load_store_apart (slots_apart second first same)]

/-- Slots are counted on from one to another. -/
theorem slot_slot (base : BitVec 32) (k n : Nat) : slot (slot base k) n = slot base (k + n) := by
  unfold slot
  rw [BitVec.add_assoc, ← BitVec.ofNat_add, Nat.mul_add]

/-- Consecutive stores change as many slots. -/
theorem entry_storeWords (words : List (BitVec 32)) (m : Memory)
    (first : k + words.length ≤ slotLimit) (second : n < slotLimit) :
    (m.storeWords (slot base k) words).entry base n =
      if k ≤ n ∧ n < k + words.length then words.getD (n - k) 0 else m.entry base n := by
  induction words generalizing m k with
  | nil =>
    rw [List.length_nil, Nat.add_zero, if_neg (by omega)]
    rfl
  | cons word rest ih =>
    rw [List.length_cons] at first ⊢
    have next : slot base k + 4#32 = slot base (k + 1) := slot_slot base k 1
    rw [storeWords, next, ih (m.store (slot base k) word) (by omega)]
    by_cases here : n = k
    · rw [if_neg (by omega), if_pos (by omega), entry_store (by omega) second, if_pos here, here,
        Nat.sub_self]
      rfl
    · by_cases behind : k ≤ n ∧ n < k + (rest.length + 1)
      · have later : n - k = n - (k + 1) + 1 := by omega
        rw [if_pos (by omega), if_pos behind, later]
        rfl
      · rw [if_neg (by omega), if_neg behind, entry_store (by omega) second, if_neg here]

/-- Two memories differ at most in the slots of a table. -/
def Beyond (size : Nat) (base : BitVec 32) (m later : Memory) : Prop :=
  ∀ a, 4 * size ≤ (a - base).toNat → later a = m a

/-- Nothing has changed. -/
theorem Beyond.refl (size : Nat) (base : BitVec 32) (m : Memory) : Beyond size base m m :=
  fun _ _ => rfl

/-- One table after the other. -/
theorem Beyond.trans {size : Nat} {first second third : Memory}
    (before : Beyond size base first second) (after : Beyond size base second third) :
    Beyond size base first third := fun a outside => (after a outside).trans (before a outside)

/-- A store into a slot. -/
theorem beyond_store {size : Nat} (m : Memory) (word : BitVec 32) (inside : k < size)
    (small : size ≤ slotLimit) : Beyond size base m (m.store (slot base k) word) := by
  intro a outside
  apply store_outside
  unfold slotLimit at small
  unfold slot
  have distance : a - (base + BitVec.ofNat 32 (4 * k)) = a - base - BitVec.ofNat 32 (4 * k) := by
    bv_omega
  have range := (a - base).isLt
  rw [distance, BitVec.toNat_sub, BitVec.toNat_ofNat]
  omega

/-- Consecutive stores into slots. -/
theorem beyond_storeWords {size : Nat} (words : List (BitVec 32)) (m : Memory)
    (inside : k + words.length ≤ size) (small : size ≤ slotLimit) :
    Beyond size base m (m.storeWords (slot base k) words) := by
  induction words generalizing m k with
  | nil => exact .refl size base m
  | cons word rest ih =>
    rw [List.length_cons] at inside
    have next : slot base k + 4#32 = slot base (k + 1) := slot_slot base k 1
    rw [storeWords, next]
    exact (beyond_store m word (by omega) small).trans (ih _ (by omega))

end Memory

/-! ## Fields of words -/

/-- A word shifted to the right. -/
theorem toNat_shiftRight (word : BitVec 32) (k : Nat) : (word >>> k).toNat = word.toNat / 2 ^ k := by
  rw [BitVec.toNat_ushiftRight, Nat.shiftRight_eq_div_pow]

/-- The low bits of a word. -/
theorem toNat_lowBits (word : BitVec 32) (k : Nat) (small : k ≤ 32) :
    (word &&& BitVec.ofNat 32 (2 ^ k - 1)).toNat = word.toNat % 2 ^ k := by
  have fits : 2 ^ k - 1 < 2 ^ 32 := by
    have less := Nat.pow_le_pow_right (n := 2) (by decide) small
    have one := Nat.two_pow_pos k
    omega
  rw [BitVec.toNat_and, BitVec.toNat_ofNat, Nat.mod_eq_of_lt fits, Nat.and_two_pow_sub_one_eq_mod]

/-- A word without its low bits. -/
theorem toNat_highBits (word : BitVec 32) (k : Nat) :
    (word >>> k <<< k).toNat = word.toNat / 2 ^ k * 2 ^ k := by
  have below : word.toNat / 2 ^ k * 2 ^ k < 2 ^ 32 :=
    Nat.lt_of_le_of_lt (Nat.div_mul_le_self ..) word.isLt
  rw [BitVec.toNat_shiftLeft, toNat_shiftRight, Nat.shiftLeft_eq, Nat.mod_eq_of_lt below]

/-- A bit of a number. -/
theorem getLsbD_number (number : Nat) {k : Nat} (small : k < 32) :
    (BitVec.ofNat 32 number).getLsbD k = decide (number / 2 ^ k % 2 = 1) := by
  rw [BitVec.getLsbD_ofNat, Nat.testBit_eq_decide_div_mod_eq, decide_eq_true small, Bool.true_and]

/-- Bits that are set below a multiple of a power of two are added. -/
theorem toNat_setLow (word low : BitVec 32) {k : Nat} (aligned : 2 ^ k ∣ word.toNat)
    (small : low.toNat < 2 ^ k) : (word ||| low).toNat = word.toNat + low.toNat := by
  rw [BitVec.toNat_or]
  have multiple := aligned.choose_spec
  rw [multiple]
  exact (Nat.two_pow_add_eq_or_of_lt small _).symm

/-- Numbers below the sign bit are compared as they are. -/
theorem slt_small {x y : BitVec 32} (first : x.toNat < 0x80000000) (second : y.toNat < 0x80000000) :
    x.slt y = true ↔ x.toNat < y.toNat := by
  rw [BitVec.slt_iff_toInt_lt, BitVec.toInt_eq_toNat_of_lt (by omega),
    BitVec.toInt_eq_toNat_of_lt (by omega)]
  omega

/-- The other comparison. -/
theorem sle_small {x y : BitVec 32} (first : x.toNat < 0x80000000) (second : y.toNat < 0x80000000) :
    x.sle y = true ↔ x.toNat ≤ y.toNat := by
  rw [BitVec.sle_iff_toInt_le, BitVec.toInt_eq_toNat_of_lt (by omega),
    BitVec.toInt_eq_toNat_of_lt (by omega)]
  omega

end Library
