import FelineOS.Library.WordTable

/-!
# The first translation table of the ARM

`_start` of `arch/arm/boot/boot.S` up to the branch to `paged_start`: the sections of the kernel from
`VA_OFFSET` on and those of the identity mapping, one descriptor for each mebibyte. The image has
its translation table cleared.
-/

namespace FelineOS.Arm.Boot

open Library

/-- `VA_OFFSET`. -/
def vaOffset : BitVec 32 := 0xF0000000#32

/-- Where the linker put what the code names. -/
structure Symbols where
  /-- `_phys_kernel_start`. -/
  physKernelStart : BitVec 32
  /-- `_phys_kernel_end`. -/
  physKernelEnd : BitVec 32
  /-- `translation_table_0`. -/
  translationTable0 : BitVec 32
  /-- `paged_start`. -/
  pagedStart : BitVec 32
  /-- The kernel starts with a page. -/
  aligned : physKernelStart.toNat % 4096 = 0
  /-- The kernel ends below the top of the address space. -/
  bounded : physKernelEnd.toNat ≤ 0x10000000
  /-- The table is aligned. -/
  tableAligned : (translationTable0 - vaOffset).toNat % 0x4000 = 0
  /-- The table is behind the start of the kernel. -/
  tableBehind : physKernelStart.toNat ≤ (translationTable0 - vaOffset).toNat
  /-- The table is a part of the kernel. -/
  tableInside : (translationTable0 - vaOffset).toNat + 0x20000 ≤ physKernelEnd.toNat
  /-- So is the code that follows. -/
  codeInside : (pagedStart - vaOffset).toNat < physKernelEnd.toNat

/-- `bic`. -/
def bic (register bits : BitVec 32) : BitVec 32 := register &&& ~~~bits

/-- The descriptor that `%r7` has before the first loop. -/
def descriptor (s : Symbols) : BitVec 32 :=
  let r7 := s.physKernelStart
  let r7 := bic r7 0b10000000000000000000#32
  let r7 := bic r7 0b1000000000000000000#32
  let r7 := bic r7 0b100000000000000000#32
  let r7 := bic r7 0b10000000000000000#32
  let r7 := bic r7 0b1000000000000000#32
  let r7 := bic r7 0b111000000000000#32
  let r7 := r7 ||| 0b110000000000#32
  let r7 := bic r7 0b1000000000#32
  let r7 := bic r7 0b111100000#32
  let r7 := bic r7 0b10000#32
  let r7 := r7 ||| 0b1000#32
  let r7 := bic r7 0b100#32
  r7 ||| 0b10#32

/-- The two loops over sections, with `%r4`, `%r5`, `%r7` and `%r8`; what is left in `%r7` comes with
the memory. -/
def mapSections (r4 : BitVec 32) :
    Nat → BitVec 32 → BitVec 32 → BitVec 32 → Memory → Option (Memory × BitVec 32)
  | 0, _, _, _, _ => none
  | fuel + 1, r5, r7, r8, m =>
    let m := m.store r8 r7
    let r7 := r7 + 0x100000#32
    let r8 := r8 + 4#32
    let r5 := r5 + 0x100000#32
    if r5.sle r4 then mapSections r4 fuel r5 r7 r8 m else some (m, r7)

/-- The table that `%r8` has the address of in the end, with the memory. -/
def start (fuel : Nat) (s : Symbols) (m : Memory) : Option (Memory × BitVec 32) := do
  let table := s.translationTable0 - vaOffset
  let (m, r7) ← mapSections s.physKernelEnd fuel s.physKernelStart (descriptor s)
    (table + 0xF0000000#32 / 0x40000#32) m
  let r7 := r7 &&& 0xfffff#32
  let (m, _) ← mapSections (s.pagedStart - vaOffset) fuel 0 r7 table m
  return (m, bic table 0b11111#32)

/-- The physical address and the other bits of the section that the processor finds for an
address. -/
def translate (m : Memory) (ttbr0 virt : BitVec 32) : Option (BitVec 32 × BitVec 32) :=
  let found := m.load (ttbr0 >>> 14 <<< 14 + virt >>> 20 * 4#32)
  if found &&& 3#32 = 2#32 then
    some (found >>> 20 <<< 20 + (virt &&& 0xfffff#32), found &&& 0xfffff#32)
  else none

end FelineOS.Arm.Boot
