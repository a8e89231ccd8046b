import FelineOS.Library.WordTable

/-!
# The first page tables of the i386

`_start` of `arch/i386/boot/boot.S`, from the entry to the stack of the initial thread: the loop that
fills four page tables, the entries of the page directory, and the stores through the new mapping
that take the identity mapping away again. The loader has cleared the tables.
-/

namespace FelineOS.I386.Boot

open Library

/-- `VA_OFFSET`. -/
def vaOffset : BitVec 32 := 0xF0000000#32

/-- `identity_map_from_here`, where the linker script starts. -/
def identityMapFromHere : BitVec 32 := 0x100000#32

/-- Where the linker put what the code names. -/
structure Symbols where
  /-- `_phys_kernel_end`. -/
  physKernelEnd : BitVec 32
  /-- `boot_page_directory`; the four page tables are behind it. -/
  bootPageDirectory : BitVec 32
  /-- The page directory is aligned. -/
  aligned : (bootPageDirectory - vaOffset).toNat % 4096 = 0
  /-- It is behind the start of the image. -/
  behind : 0x100000 ≤ (bootPageDirectory - vaOffset).toNat
  /-- The tables are a part of the kernel. -/
  inside : (bootPageDirectory - vaOffset).toNat + 5 * 4096 ≤ physKernelEnd.toNat
  /-- The kernel ends below the top of the address space. -/
  bounded : physKernelEnd.toNat ≤ 0x10000000

/-- `boot_page_table1` and the others. -/
def Symbols.bootPageTable (s : Symbols) (number : Nat) : BitVec 32 :=
  s.bootPageDirectory + BitVec.ofNat 32 (4096 * number)

/-- The loop over the pages with `%ecx`, `%esi` and `%edi`; `loop` ends it with the last one. -/
def mapPages (s : Symbols) : Nat → BitVec 32 → BitVec 32 → Memory → Memory
  | 0, _, _, m => m
  | ecx + 1, esi, edi, m =>
    if esi.slt identityMapFromHere then
      mapPages s ecx (esi + 4096#32) (edi + 4#32) m
    else if s.physKernelEnd.sle esi then m
    else mapPages s ecx (esi + 4096#32) (edi + 4#32) (m.store edi (esi ||| 0x003#32))

/-- The directory entries of the four page tables. -/
def directoryEntries (s : Symbols) : List (BitVec 32) :=
  [s.bootPageTable 1 - vaOffset + 0x003#32, s.bootPageTable 2 - vaOffset + 0x003#32,
    s.bootPageTable 3 - vaOffset + 0x003#32, s.bootPageTable 4 - vaOffset + 0x003#32]

/-- `PD_OFFSET`. -/
def pdOffset : BitVec 32 := vaOffset >>> 22

/-- The tables when paging is turned on. -/
def pageTables (s : Symbols) (m : Memory) : Memory :=
  let m := mapPages s 4096 0 (s.bootPageTable 1 - vaOffset) m
  let m := m.storeWords (s.bootPageDirectory - vaOffset) (directoryEntries s)
  m.storeWords (s.bootPageDirectory - vaOffset + pdOffset * 4#32) (directoryEntries s)

/-- The address that `%cr3` gets. -/
def cr3 (s : Symbols) : BitVec 32 := s.bootPageDirectory - vaOffset

/-- How the processor translates an address, and whether it may write there. -/
def translate (m : Memory) (cr3 virt : BitVec 32) : Option (BitVec 32 × Bool) :=
  let pde := m.load (cr3 >>> 12 <<< 12 + virt >>> 22 * 4#32)
  let pte := m.load (pde >>> 12 <<< 12 + (virt >>> 12 &&& 1023#32) * 4#32)
  if pde.getLsbD 0 ∧ pte.getLsbD 0 then
    some (pte >>> 12 <<< 12 + (virt &&& 4095#32), pde.getLsbD 1 && pte.getLsbD 1)
  else none

/-- A store of the kernel through the page tables, with the write-protect bit set. -/
def storeVirtual (m : Memory) (cr3 virt word : BitVec 32) : Option Memory :=
  match translate m cr3 virt with
  | some (phys, true) => some (m.store phys word)
  | _ => none

/-- The entries of the identity mapping are cleared. -/
def unmapIdentity (s : Symbols) (m : Memory) : Option Memory := do
  let m ← storeVirtual m (cr3 s) s.bootPageDirectory 0
  let m ← storeVirtual m (cr3 s) (s.bootPageDirectory + 4#32) 0
  let m ← storeVirtual m (cr3 s) (s.bootPageDirectory + 8#32) 0
  storeVirtual m (cr3 s) (s.bootPageDirectory + 12#32) 0

/-- The memory with which the stack is set up. -/
def start (s : Symbols) (m : Memory) : Option Memory := unmapIdentity s (pageTables s m)

end FelineOS.I386.Boot
