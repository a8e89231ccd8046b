import FelineOS.Kernel.BootArm
import Mathlib.Tactic.IntervalCases

/-!
# What the first translation table of the ARM maps

Each loop stores the sections that its counter comes to, and the counter of the first one starts at
the first byte of the kernel and not at the start of its section. The sections of the identity
mapping are in front of those of the kernel.
-/

namespace FelineOS.Arm.Boot

open Library Library.Memory

/-- The bits of a section that are not its address: cached, fully accessible, a section. -/
def sectionBits : Nat := 0b110000001010

/-! ## The descriptor -/

/-- The descriptor is the section of the first byte with these bits. -/
theorem descriptor_eq (s : Symbols) :
    (descriptor s).toNat = s.physKernelStart.toNat / 0x100000 * 0x100000 + sectionBits := by
  have even : s.physKernelStart[0] = false := by
    have aligned := s.aligned
    rw [BitVec.getElem_eq_testBit_toNat, Nat.testBit_zero, decide_eq_false]
    omega
  have same : descriptor s = s.physKernelStart >>> 20 <<< 20 ||| BitVec.ofNat 32 sectionBits := by
    apply BitVec.eq_of_getLsbD_eq
    intro i inside
    unfold descriptor bic sectionBits
    interval_cases i <;> simp [even]
  have multiple : 2 ^ 20 ∣ (s.physKernelStart >>> 20 <<< 20).toNat := by
    rw [toNat_highBits]
    exact Nat.dvd_mul_left _ _
  rw [same, toNat_setLow _ _ multiple (by decide), toNat_highBits]
  rfl

/-! ## The loops -/

/-- Descriptors of consecutive sections. -/
def sections (first : BitVec 32) : Nat → List (BitVec 32)
  | 0 => []
  | count + 1 => first :: sections (first + 0x100000#32) count

/-- The number of sections. -/
theorem length_sections (first : BitVec 32) (count : Nat) :
    (sections first count).length = count := by
  induction count generalizing first with
  | zero => rfl
  | succ count ih => rw [sections, List.length_cons, ih]

/-- One of the sections. -/
theorem sections_getD (first : BitVec 32) {count i : Nat} (inside : i < count) :
    (sections first count).getD i 0 = first + BitVec.ofNat 32 (0x100000 * i) := by
  induction count generalizing first i with
  | zero => omega
  | succ count ih =>
    cases i with
    | zero => exact (BitVec.add_zero first).symm
    | succ i =>
      have next := ih (first + 0x100000#32) (Nat.lt_of_succ_lt_succ inside)
      rw [sections, List.getD_cons_succ, next, Nat.mul_succ, Nat.add_comm (0x100000 * i),
        BitVec.ofNat_add, BitVec.add_assoc]

/-- A loop stores a section for every mebibyte that its counter comes to. -/
theorem mapSections_spec {r4 : BitVec 32} {base : BitVec 32} {steps fuel counter k : Nat}
    (r7 : BitVec 32) (m : Memory) (count : (r4.toNat - counter) / 0x100000 = steps)
    (small : counter ≤ 0x10000000) (bounded : r4.toNat ≤ 0x10000000) (enough : steps < fuel) :
    mapSections r4 fuel (BitVec.ofNat 32 counter) r7 (slot base k) m =
      some (m.storeWords (slot base k) (sections r7 (steps + 1)),
        r7 + BitVec.ofNat 32 (0x100000 * (steps + 1))) := by
  induction steps generalizing counter fuel k r7 m with
  | zero =>
    have next : BitVec.ofNat 32 counter + 0x100000#32 = BitVec.ofNat 32 (counter + 0x100000) :=
      (BitVec.ofNat_add ..).symm
    have number : (BitVec.ofNat 32 (counter + 0x100000)).toNat = counter + 0x100000 := by
      rw [BitVec.toNat_ofNat]
      omega
    have last : ¬(BitVec.ofNat 32 (counter + 0x100000)).sle r4 = true := by
      rw [sle_small (by omega) (by omega), number]
      omega
    obtain ⟨fuel, rfl⟩ : ∃ less, fuel = less + 1 := ⟨fuel - 1, by omega⟩
    rw [mapSections, next, if_neg last]
    rfl
  | succ steps ih =>
    have next : BitVec.ofNat 32 counter + 0x100000#32 = BitVec.ofNat 32 (counter + 0x100000) :=
      (BitVec.ofNat_add ..).symm
    have number : (BitVec.ofNat 32 (counter + 0x100000)).toNat = counter + 0x100000 := by
      rw [BitVec.toNat_ofNat]
      omega
    have further : (BitVec.ofNat 32 (counter + 0x100000)).sle r4 = true := by
      rw [sle_small (by omega) (by omega), number]
      omega
    have nextSlot : slot base k + 4#32 = slot base (k + 1) := slot_slot base k 1
    obtain ⟨fuel, rfl⟩ : ∃ less, fuel = less + 1 := ⟨fuel - 1, by omega⟩
    have front : sections r7 (steps + 1 + 1) = r7 :: sections (r7 + 0x100000#32) (steps + 1) := rfl
    rw [mapSections, next, if_pos further, nextSlot,
      ih (r7 + 0x100000#32) (m.store (slot base k) r7) (by omega) (by omega) (by omega),
      front, storeWords, nextSlot, BitVec.add_assoc, ← BitVec.ofNat_add, Nat.add_comm 0x100000,
      ← Nat.mul_succ]

/-! ## The table -/

/-- The physical address of the table. -/
def table (s : Symbols) : BitVec 32 := s.translationTable0 - vaOffset

/-- The last section of the identity mapping. -/
def lastIdentity (s : Symbols) : Nat := (s.pagedStart - vaOffset).toNat / 0x100000

/-- How many sections the kernel has behind its first one. -/
def lastKernel (s : Symbols) : Nat :=
  (s.physKernelEnd.toNat - s.physKernelStart.toNat) / 0x100000

/-- The section that the first byte of the kernel is in. -/
def firstSection (s : Symbols) : Nat := s.physKernelStart.toNat / 0x100000

/-- The section that a slot of the table should have. -/
def sectionAt (s : Symbols) (n : Nat) : Option Nat :=
  if n ≤ lastIdentity s then some n
  else if 3840 ≤ n ∧ n ≤ 3840 + lastKernel s then some (firstSection s + (n - 3840))
  else none

/-- The descriptor in a slot. -/
def sectionWord : Option Nat → BitVec 32
  | some number => BitVec.ofNat 32 (number * 0x100000 + sectionBits)
  | none => 0

/-- The number of a section with its bits. -/
theorem section_number {first : BitVec 32} {number : Nat} (i : Nat)
    (same : first.toNat = number * 0x100000 + sectionBits) :
    first + BitVec.ofNat 32 (0x100000 * i) = sectionWord (some (number + i)) := by
  apply BitVec.eq_of_toNat_eq
  unfold sectionWord sectionBits at *
  rw [BitVec.toNat_add, BitVec.toNat_ofNat, BitVec.toNat_ofNat, same]
  omega

/-- The counters come to few sections. -/
theorem counts_small (s : Symbols) : lastIdentity s ≤ 256 ∧ firstSection s + lastKernel s ≤ 256 := by
  have bounded := s.bounded
  have code := s.codeInside
  have behind := s.tableBehind
  have before := s.tableInside
  unfold lastIdentity lastKernel firstSection
  omega

/-- What the first loop leaves in `%r7` has the bits of the descriptor. -/
theorem rest_bits (s : Symbols) (count : Nat) :
    (descriptor s + BitVec.ofNat 32 (0x100000 * count)) &&& 0xfffff#32 =
      BitVec.ofNat 32 sectionBits := by
  have low := toNat_lowBits (descriptor s + BitVec.ofNat 32 (0x100000 * count)) 20 (by decide)
  have number := descriptor_eq s
  apply BitVec.eq_of_toNat_eq
  unfold sectionBits at *
  rw [BitVec.toNat_add, BitVec.toNat_ofNat, number] at low
  refine low.trans ?_
  rw [BitVec.toNat_ofNat]
  omega

/-- The address of the table has nothing in the bits that are cleared. -/
theorem table_aligned (s : Symbols) :
    bic (table s) 0b11111#32 = table s ∧ table s >>> 14 <<< 14 = table s := by
  have aligned : (table s).toNat % 0x4000 = 0 := s.tableAligned
  have whole : table s >>> 14 <<< 14 = table s := by
    apply BitVec.eq_of_toNat_eq
    rw [toNat_highBits]
    omega
  refine ⟨?_, whole⟩
  rw [← whole]
  generalize table s = word
  apply BitVec.eq_of_getLsbD_eq
  intro i inside
  unfold bic
  interval_cases i <;> simp

/-- The table has its sections. -/
theorem start_entry (s : Symbols) {m : Memory} (clear : ∀ n < 4096, m.entry (table s) n = 0)
    {fuel : Nat} (enough : 256 < fuel) :
    ∃ after, start fuel s m = some (after, table s) ∧
      (∀ n < 4096, after.entry (table s) n = sectionWord (sectionAt s n)) ∧
      Beyond 0x8000 (table s) m after := by
  have bounded := s.bounded
  have code := s.codeInside
  have small := counts_small s
  have behind := s.tableBehind
  have before := s.tableInside
  have counter : BitVec.ofNat 32 s.physKernelStart.toNat = s.physKernelStart := by
    rw [BitVec.ofNat_toNat, BitVec.setWidth_eq]
  have kernel : mapSections s.physKernelEnd fuel (BitVec.ofNat 32 s.physKernelStart.toNat)
      (descriptor s) (slot (table s) 3840) m =
      some (m.storeWords (slot (table s) 3840) (sections (descriptor s) (lastKernel s + 1)),
        descriptor s + BitVec.ofNat 32 (0x100000 * (lastKernel s + 1))) :=
    mapSections_spec (descriptor s) m rfl (by omega) (by omega) (by omega)
  have identity (later : Memory) : mapSections (s.pagedStart - vaOffset) fuel (BitVec.ofNat 32 0)
      (BitVec.ofNat 32 sectionBits) (slot (table s) 0) later =
      some (later.storeWords (slot (table s) 0)
          (sections (BitVec.ofNat 32 sectionBits) (lastIdentity s + 1)),
        BitVec.ofNat 32 sectionBits + BitVec.ofNat 32 (0x100000 * (lastIdentity s + 1))) :=
    mapSections_spec _ later rfl (by omega) (by omega) (by omega)
  have front : slot (table s) 0 = table s := BitVec.add_zero _
  have runs : start fuel s m = some ((m.storeWords (slot (table s) 3840)
      (sections (descriptor s) (lastKernel s + 1))).storeWords (slot (table s) 0)
        (sections (BitVec.ofNat 32 sectionBits) (lastIdentity s + 1)), table s) := by
    have place : s.translationTable0 - vaOffset + 0xF0000000#32 / 0x40000#32 =
        slot (table s) 3840 := rfl
    have here : s.translationTable0 - vaOffset = slot (table s) 0 := front.symm
    rw [counter] at kernel
    unfold start
    dsimp only
    rw [place, here, kernel, Option.bind_eq_bind, Option.bind_some]
    dsimp only
    rw [rest_bits]
    have second := identity (m.storeWords (slot (table s) 3840)
      (sections (descriptor s) (lastKernel s + 1)))
    rw [show (0 : BitVec 32) = BitVec.ofNat 32 0 from rfl, second, Option.bind_some, front,
      (table_aligned s).1]
    rfl
  have beyond (later : Memory) (first : BitVec 32) {count k : Nat} (fits : k + count ≤ 0x8000) :
      Beyond 0x8000 (table s) later (later.storeWords (slot (table s) k) (sections first count)) :=
    beyond_storeWords _ later (by rw [length_sections]; exact fits) (by decide)
  refine ⟨_, runs, fun n inside => ?_,
    (beyond m _ (by omega)).trans (beyond _ _ (by omega))⟩
  have number := descriptor_eq s
  have bits : (BitVec.ofNat 32 sectionBits).toNat = 0 * 0x100000 + sectionBits := by
    rw [Nat.zero_mul, Nat.zero_add]
    rfl
  rw [entry_storeWords _ _ (by rw [length_sections]; unfold slotLimit; omega)
      (by unfold slotLimit; omega),
    entry_storeWords _ _ (by rw [length_sections]; unfold slotLimit; omega)
      (by unfold slotLimit; omega), length_sections, length_sections]
  unfold sectionAt
  by_cases low : n ≤ lastIdentity s
  · rw [if_pos ⟨Nat.zero_le n, by omega⟩, if_pos low, sections_getD _ (by omega),
      section_number _ bits, Nat.zero_add, Nat.sub_zero]
  · rw [if_neg (by omega), if_neg low]
    by_cases high : 3840 ≤ n ∧ n ≤ 3840 + lastKernel s
    · rw [if_pos (by omega), if_pos high, sections_getD _ (by omega), section_number _ number]
      rfl
    · rw [if_neg (by omega), if_neg high, clear n inside]
      rfl

/-! ## Translation -/

/-- Where an address should lead. -/
def mapped (s : Symbols) (virt : BitVec 32) : Option (BitVec 32) :=
  (sectionAt s (virt.toNat / 0x100000)).map fun number =>
    BitVec.ofNat 32 (number * 0x100000 + virt.toNat % 0x100000)

/-- The sections are followed to their place. -/
theorem translate_section {m : Memory} {s : Symbols} {virt : BitVec 32} {found : Option Nat}
    (entry : m.entry (table s) (virt.toNat / 0x100000) = sectionWord found)
    (small : ∀ number, found = some number → number < 4096) :
    translate m (table s) virt = found.map fun number =>
      (BitVec.ofNat 32 (number * 0x100000 + virt.toNat % 0x100000),
        BitVec.ofNat 32 sectionBits) := by
  have index : virt >>> 20 * 4#32 = BitVec.ofNat 32 (4 * (virt.toNat / 0x100000)) := by
    apply BitVec.eq_of_toNat_eq
    rw [BitVec.toNat_mul, toNat_shiftRight, BitVec.toNat_ofNat, Nat.mul_comm]
    rfl
  have word : m.load (table s + BitVec.ofNat 32 (4 * (virt.toNat / 0x100000))) =
      sectionWord found := entry
  unfold translate
  rw [(table_aligned s).2, index, word]
  dsimp only
  cases found with
  | none => rfl
  | some number =>
    have fits := small number rfl
    have value : (sectionWord (some number)).toNat = number * 0x100000 + sectionBits := by
      unfold sectionWord sectionBits
      rw [BitVec.toNat_ofNat]
      omega
    have kind : sectionWord (some number) &&& 3#32 = 2#32 := by
      apply BitVec.eq_of_toNat_eq
      refine (toNat_lowBits _ 2 (by decide)).trans ?_
      rw [value]
      unfold sectionBits
      rw [BitVec.toNat_ofNat]
      omega
    have bits : sectionWord (some number) &&& 0xfffff#32 = BitVec.ofNat 32 sectionBits := by
      apply BitVec.eq_of_toNat_eq
      refine (toNat_lowBits _ 20 (by decide)).trans ?_
      rw [value]
      unfold sectionBits
      rw [BitVec.toNat_ofNat]
      omega
    have low : (virt &&& 0xfffff#32).toNat = virt.toNat % 2 ^ 20 := toNat_lowBits virt 20 (by decide)
    have phys : sectionWord (some number) >>> 20 <<< 20 + (virt &&& 0xfffff#32) =
        BitVec.ofNat 32 (number * 0x100000 + virt.toNat % 0x100000) := by
      apply BitVec.eq_of_toNat_eq
      rw [BitVec.toNat_add, toNat_highBits, low, value, BitVec.toNat_ofNat]
      unfold sectionBits
      omega
    rw [if_pos kind, phys, bits]
    rfl

/-- The sections that are mapped have addresses. -/
theorem sectionAt_small {s : Symbols} {n number : Nat} (found : sectionAt s n = some number) :
    number < 4096 := by
  have small := counts_small s
  unfold sectionAt at found
  split at found
  · have same := Option.some.inj found
    omega
  · split at found
    · have same := Option.some.inj found
      omega
    · cases found

/-- A byte of the kernel is mapped where it is linked when its section is counted and the kernel
starts in the first one. -/
theorem mapped_kernel (s : Symbols) {phys : BitVec 32} (inside : phys.toNat < s.physKernelEnd.toNat) :
    mapped s (phys + vaOffset) = some phys ↔
      firstSection s = 0 ∧ phys.toNat / 0x100000 ≤ lastKernel s := by
  have small := counts_small s
  have bounded := s.bounded
  have linked : (phys + vaOffset).toNat = phys.toNat + 0xF0000000 := by
    rw [BitVec.toNat_add, show vaOffset.toNat = 0xF0000000 from rfl]
    omega
  have slot : (phys + vaOffset).toNat / 0x100000 = 3840 + phys.toNat / 0x100000 := by omega
  have offset : (phys + vaOffset).toNat % 0x100000 = phys.toNat % 0x100000 := by omega
  unfold mapped
  rw [slot, offset]
  unfold sectionAt
  rw [if_neg (by omega), Nat.add_sub_cancel_left]
  by_cases counted : phys.toNat / 0x100000 ≤ lastKernel s
  · rw [if_pos ⟨Nat.le_add_right .., Nat.add_le_add_left counted _⟩, Option.map_some]
    constructor
    · intro same
      have number := congrArg BitVec.toNat (Option.some.inj same)
      rw [BitVec.toNat_ofNat] at number
      exact ⟨by omega, counted⟩
    · intro first
      apply congrArg some
      apply BitVec.eq_of_toNat_eq
      rw [BitVec.toNat_ofNat, first.1]
      omega
  · rw [if_neg (by omega)]
    exact ⟨fun none => (nomatch none), fun both => absurd both.2 counted⟩

/-- The boot code maps whole sections: those of the identity mapping up to the code that follows, and
from `VA_OFFSET` on as many as the length of the kernel counts. All of the kernel is mapped where it
is linked exactly if it starts in the first section and its last byte is in a section that is
counted, which fails for a kernel that ends shortly behind the start of a section. -/
theorem start_maps_kernel_iff (s : Symbols) {m : Memory}
    (clear : ∀ n < 4096, m.entry (table s) n = 0) {fuel : Nat} (enough : 256 < fuel) :
    ∃ after, start fuel s m = some (after, table s) ∧
      (∀ virt, translate after (table s) virt =
        (mapped s virt).map fun phys => (phys, BitVec.ofNat 32 sectionBits)) ∧
      (∀ a, 0x20000 ≤ (a - table s).toNat → after a = m a) ∧
      ((∀ phys : BitVec 32, s.physKernelStart.toNat ≤ phys.toNat →
          phys.toNat < s.physKernelEnd.toNat →
          translate after (table s) (phys + vaOffset) =
            some (phys, BitVec.ofNat 32 sectionBits)) ↔
        s.physKernelStart.toNat < 0x100000 ∧
          (s.physKernelEnd.toNat - 1) / 0x100000 ≤
            (s.physKernelEnd.toNat - s.physKernelStart.toNat) / 0x100000) := by
  obtain ⟨after, runs, entries, beyond⟩ := start_entry s clear enough
  have translated (virt : BitVec 32) : translate after (table s) virt =
      (mapped s virt).map fun phys => (phys, BitVec.ofNat 32 sectionBits) := by
    have range := virt.isLt
    rw [translate_section (entries (virt.toNat / 0x100000) (by omega)) fun _ => sectionAt_small]
    unfold mapped
    rw [Option.map_map]
    rfl
  have kernel (phys : BitVec 32) (inside : phys.toNat < s.physKernelEnd.toNat) :
      translate after (table s) (phys + vaOffset) = some (phys, BitVec.ofNat 32 sectionBits) ↔
        firstSection s = 0 ∧ phys.toNat / 0x100000 ≤ lastKernel s := by
    rw [translated, ← mapped_kernel s inside]
    cases mapped s (phys + vaOffset) with
    | none => exact ⟨fun none => (nomatch none), fun none => (nomatch none)⟩
    | some found =>
      constructor
      · exact fun same => congrArg some (Prod.mk.inj (Option.some.inj same)).1
      · exact fun same => congrArg (Option.map _) same
  have behind := s.tableBehind
  have before := s.tableInside
  refine ⟨after, runs, translated, fun a outside => beyond a outside, ?_, ?_⟩
  · intro all
    have last : (BitVec.ofNat 32 (s.physKernelEnd.toNat - 1)).toNat = s.physKernelEnd.toNat - 1 := by
      have range := s.physKernelEnd.isLt
      rw [BitVec.toNat_ofNat]
      omega
    have ends := (kernel _ (by rw [last]; omega)).mp (all _ (by rw [last]; omega) (by rw [last]; omega))
    rw [last] at ends
    unfold firstSection at ends
    exact ⟨by omega, ends.2⟩
  · intro fits phys _ inside
    apply (kernel phys inside).mpr
    unfold firstSection lastKernel
    have order : phys.toNat / 0x100000 ≤ (s.physKernelEnd.toNat - 1) / 0x100000 :=
      Nat.div_le_div_right (by omega)
    exact ⟨Nat.div_eq_of_lt fits.1, Nat.le_trans order fits.2⟩

/-- A kernel that starts behind the first page of code and ends at a given address. -/
def exampleSymbols (last : BitVec 32) (behind : 0x30000 ≤ last.toNat)
    (bounded : last.toNat ≤ 0x10000000) : Symbols where
  physKernelStart := 0x9000#32
  physKernelEnd := last
  translationTable0 := 0xF0010000#32
  pagedStart := 0xF0009000#32
  aligned := by decide
  bounded := bounded
  tableAligned := by decide
  tableBehind := by decide
  tableInside := behind
  codeInside := Nat.lt_of_lt_of_le (by decide) behind

/-- A kernel of half a mebibyte is mapped as a whole, and one that ends a page behind the first
mebibyte is not. -/
theorem start_maps_kernel_iff_example :
    (∃ after, start 300 (exampleSymbols 0x80000#32 (by decide) (by decide)) (fun _ => 0) =
        some (after, 0x10000#32) ∧
      ∀ phys : BitVec 32, 0x9000 ≤ phys.toNat → phys.toNat < 0x80000 →
        translate after 0x10000#32 (phys + vaOffset) =
          some (phys, BitVec.ofNat 32 sectionBits)) ∧
    ∃ after, start 300 (exampleSymbols 0x101000#32 (by decide) (by decide)) (fun _ => 0) =
        some (after, 0x10000#32) ∧
      ¬∀ phys : BitVec 32, 0x9000 ≤ phys.toNat → phys.toNat < 0x101000 →
        translate after 0x10000#32 (phys + vaOffset) =
          some (phys, BitVec.ofNat 32 sectionBits) := by
  have clear (base : BitVec 32) (n : Nat) (_ : n < 4096) : Memory.entry (fun _ => 0) base n = 0 := by
    show 0#8 ++ 0#8 ++ 0#8 ++ 0#8 = 0#32
    decide
  constructor
  · obtain ⟨after, runs, -, -, whole⟩ := start_maps_kernel_iff
      (exampleSymbols 0x80000#32 (by decide) (by decide)) (clear _) (by decide : 256 < 300)
    exact ⟨after, runs, whole.mpr (by decide)⟩
  · obtain ⟨after, runs, -, -, whole⟩ := start_maps_kernel_iff
      (exampleSymbols 0x101000#32 (by decide) (by decide)) (clear _) (by decide : 256 < 300)
    exact ⟨after, runs, fun all => absurd (whole.mp all) (by decide)⟩

end FelineOS.Arm.Boot
