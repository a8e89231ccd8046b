import Mathlib.Algebra.Group.Int.Defs
import Mathlib.Algebra.Group.Nat.Defs
import Mathlib.Algebra.GroupWithZero.Nat
import Mathlib.Data.Nat.Basic
import Mathlib.Tactic.Common

/-!
# Words of the 32-bit targets

Both targets have 32-bit `uintptr_t` and `size_t`. Words are naturals here and every
operation that can leave the word range reduces explicitly. `PHYS_MEM_CHUNK_SIZE` is an
`unsigned long long`, so a sum with it is computed in 64 bits and cut when it is stored;
cutting once at the end gives the same word as cutting after every operation.
-/

namespace FelineOS

/-- How a modelled call can fail to return. -/
inductive Fault where
  /-- A failed `assert`. -/
  | assertion
  /-- An explicit `std::abort` of the modelled function. -/
  | abort
  /-- The `std::abort` inside the `page` operators. -/
  | pageRange
  /-- A pointer was followed that points at no object of its type. -/
  | undefined
  /-- A loop never ends. -/
  | divergence
  /-- Memory was overwritten that is read again. -/
  | overwritten
  deriving DecidableEq, Repr

/-- A successful first computation hands its value on. -/
@[simp] theorem ok_bind {ε α β : Type} (value : α) (next : α → Except ε β) :
    ((Except.ok value : Except ε α) >>= next) = next value := rfl

/-- A failed first computation is the result. -/
@[simp] theorem error_bind {ε α β : Type} (fault : ε) (next : α → Except ε β) :
    ((Except.error fault : Except ε α) >>= next) = Except.error fault := rfl

/-- Taking a pair apart and putting it together does nothing. -/
theorem bind_pair {ε α β : Type} (outcome : Except ε (α × β)) :
    (do
      let (first, second) ← outcome
      pure (first, second)) = outcome := by
  cases outcome <;> rfl

/-- A sequence that returned had both of its parts return. -/
theorem of_bind_ok {ε α β : Type} {first : Except ε α} {next : α → Except ε β} {result : β}
    (returns : (first >>= next) = .ok result) :
    ∃ value, first = .ok value ∧ next value = .ok result := by
  cases first with
  | error fault => cases returns
  | ok value => exact ⟨value, rfl, returns⟩

/-- A computation that does not fail has a value. -/
theorem of_toBool {ε α : Type} {outcome : Except ε α} (returns : outcome.toBool = true) :
    ∃ value, outcome = .ok value := by
  cases outcome with
  | error fault => cases returns
  | ok value => exact ⟨value, rfl⟩

/-- `assert(condition)` of a build without `NDEBUG`. The Release presets define it by the default
flags of CMake; a build with it is not modelled. -/
def assert (condition : Bool) : Except Fault Unit :=
  if condition then .ok () else .error .assertion

/-- A true condition lets the call continue. -/
@[simp] theorem assert_true : assert true = .ok () := rfl

/-- A condition that `assert` let pass. -/
theorem assert_ok {condition : Bool} {α : Type} {next : Except Fault α} {value : α}
    (passes : (assert condition >>= fun _ => next) = .ok value) :
    condition = true ∧ next = .ok value := by
  cases condition with
  | false => cases passes
  | true => exact ⟨rfl, passes⟩

/-- One more than the largest word. -/
def wordLimit : Nat := 0x100000000

/-- The conversion to a 32-bit unsigned word. -/
def wrap (n : Nat) : Nat := n % wordLimit

/-- The difference of two words, in the word range. -/
def wrapSub (a b : Nat) : Nat := wrap (a + wordLimit - wrap b)

/-- Below the limit the conversion keeps the value. -/
theorem wrap_of_lt {n : Nat} (small : n < wordLimit) : wrap n = n := Nat.mod_eq_of_lt small

/-- Every conversion is a word. -/
theorem wrap_lt (n : Nat) : wrap n < wordLimit := Nat.mod_lt n (by decide)

/-- A difference that does not go below zero is the difference. -/
theorem wrapSub_of_le {a b : Nat} (ordered : b ≤ a) (small : a < wordLimit) :
    wrapSub a b = a - b := by
  unfold wrapSub
  rw [wrap_of_lt (Nat.lt_of_le_of_lt ordered small)]
  unfold wrap wordLimit at *
  omega

/-- `PHYS_MEM_CHUNK_SIZE`. -/
def pageSize : Nat := 4096

/-- `UINTPTR_MAX`. -/
def uintptrMax : Nat := 0xFFFFFFFF

/-- The constructor `page(uintptr_t)`: the address with its offset bits cleared. -/
def pageFloor (addr : Nat) : Nat := addr / pageSize * pageSize

/-- Clearing the low bits of a machine word rounds it down. -/
theorem clearLow_toNat (addr mask : UInt32) (k : Nat) (small : k ≤ 32)
    (high : mask.toNat = (2 ^ (32 - k) - 1) <<< k) :
    (addr &&& mask).toNat = addr.toNat / 2 ^ k * 2 ^ k := by
  rw [UInt32.toNat_and, high, ← Nat.shiftRight_eq_div_pow, ← Nat.shiftLeft_eq]
  apply Nat.eq_of_testBit_eq
  intro i
  rw [Nat.testBit_and, Nat.testBit_shiftLeft, Nat.testBit_shiftLeft, Nat.testBit_shiftRight,
    Nat.testBit_two_pow_sub_one]
  by_cases low : i < k
  · simp [show ¬ k ≤ i by omega]
  · by_cases inside : i < 32
    · simp [show k ≤ i by omega, show i - k < 32 - k by omega]
    · have clear : addr.toNat.testBit i = false :=
        Nat.testBit_lt_two_pow (Nat.lt_of_lt_of_le addr.toNat_lt
          (Nat.pow_le_pow_right (by decide) (by omega)))
      simp [clear, show k + (i - k) = i by omega]

/-- Clearing the offset bits of a machine word is the rounding of the model. -/
theorem pageFloor_eq_mask (addr : UInt32) :
    (addr &&& ~~~(4096 - 1)).toNat = pageFloor addr.toNat :=
  clearLow_toNat addr _ 12 (by decide) rfl

/-- The page of an address. -/
theorem pageFloor_ofNat {addr : Nat} (word : addr < wordLimit) :
    (UInt32.ofNat addr &&& ~~~0xfff).toNat = pageFloor addr := by
  have masked := pageFloor_eq_mask (UInt32.ofNat addr)
  rw [UInt32.toNat_ofNat_of_lt' word] at masked
  exact masked

/-- A mask selects from both sides of a union of bits. -/
theorem or_and_mask (a b mask : UInt32) : (a ||| b) &&& mask = (a &&& mask) ||| (b &&& mask) := by
  apply UInt32.toBitVec_inj.mp
  simp only [UInt32.toBitVec_and, UInt32.toBitVec_or]
  exact BitVec.and_or_distrib_right

/-- Rounding down never passes the address. -/
theorem pageFloor_le (addr : Nat) : pageFloor addr ≤ addr := Nat.div_mul_le_self _ _

/-- Rounding down loses less than a page. -/
theorem lt_pageFloor_add (addr : Nat) : addr < pageFloor addr + pageSize :=
  Nat.lt_div_mul_add (by decide)

/-- A rounded address is a multiple of the page size. -/
theorem pageSize_dvd_pageFloor (addr : Nat) : pageSize ∣ pageFloor addr := Nat.dvd_mul_left _ _

/-- Rounding keeps a multiple of the page size. -/
theorem pageFloor_of_dvd {addr : Nat} (aligned : pageSize ∣ addr) : pageFloor addr = addr :=
  Nat.div_mul_cancel aligned

/-- Rounding down keeps the order. -/
theorem pageFloor_mono {a b : Nat} (ordered : a ≤ b) : pageFloor a ≤ pageFloor b :=
  Nat.mul_le_mul_right _ (Nat.div_le_div_right ordered)

/-- `round_up_to_page`: the sum is cut to a word before the mask, so a length in the last
page of the address space becomes zero. -/
def roundUpToPage (len : Nat) : Nat := pageFloor (wrap (len + (pageSize - 1)))

/-- The lengths that `round_up_to_page` can round: the next one up wraps to zero. -/
def roundLimit : Nat := 0xFFFFF000

/-- The sum of the rounding does not leave the word range then. -/
theorem wrap_roundUp {len : Nat} (small : len ≤ roundLimit) :
    wrap (len + (pageSize - 1)) = len + (pageSize - 1) := by
  apply wrap_of_lt
  unfold roundLimit at small
  unfold wordLimit pageSize
  omega

/-- A length that can be rounded is rounded up to a page multiple, by less than a page. -/
theorem roundUpToPage_spec {len : Nat} (small : len ≤ roundLimit) :
    pageSize ∣ roundUpToPage len ∧ len ≤ roundUpToPage len ∧ roundUpToPage len < len + pageSize := by
  unfold roundUpToPage
  rw [wrap_roundUp small]
  refine ⟨pageSize_dvd_pageFloor _, ?_, ?_⟩
  · have close := lt_pageFloor_add (len + (pageSize - 1))
    unfold pageSize at *
    omega
  · have below := pageFloor_le (len + (pageSize - 1))
    unfold pageSize at *
    omega

/-- Every rounded length is a page multiple, also after a wrap. -/
theorem pageSize_dvd_roundUpToPage (len : Nat) : pageSize ∣ roundUpToPage len :=
  pageSize_dvd_pageFloor _

/-- A length that fits under a page multiple still fits after rounding. -/
theorem roundUpToPage_le {len bound : Nat} (small : len ≤ roundLimit) (aligned : pageSize ∣ bound)
    (fits : len ≤ bound) : roundUpToPage len ≤ bound := by
  obtain ⟨⟨up, eq⟩, -, close⟩ := roundUpToPage_spec small
  obtain ⟨pages, rfl⟩ := aligned
  rw [eq] at close ⊢
  unfold pageSize at *
  omega

/-- `page::operator+`: aborts when the sum would reach `UINTPTR_MAX`. -/
def pageAdd (a b : Nat) : Except Fault Nat :=
  if a < uintptrMax - b then .ok (a + b) else .error .pageRange

/-- `page::operator-`: aborts when the difference would be negative. -/
def pageSub (a b : Nat) : Except Fault Nat :=
  if b ≤ a then .ok (a - b) else .error .pageRange

/-- Sums of pages below the last word are exact. -/
theorem pageAdd_ok {a b : Nat} (small : a + b < uintptrMax) : pageAdd a b = .ok (a + b) := by
  unfold pageAdd
  rw [if_pos (by omega)]

/-- Differences of ordered pages are exact. -/
theorem pageSub_ok {a b : Nat} (ordered : b ≤ a) : pageSub a b = .ok (a - b) := if_pos ordered

/-- A sum of pages that returned is exact. -/
theorem pageAdd_eq {a b c : Nat} (returned : pageAdd a b = .ok c) : c = a + b := by
  unfold pageAdd at returned
  split at returned
  · cases returned
    rfl
  · cases returned

/-- A difference of pages that returned is exact. -/
theorem pageSub_eq {a b c : Nat} (returned : pageSub a b = .ok c) : b ≤ a ∧ c = a - b := by
  unfold pageSub at returned
  split at returned
  · rename_i ordered
    cases returned
    exact ⟨ordered, rfl⟩
  · cases returned

end FelineOS
