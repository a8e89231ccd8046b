import FelineOS.Kernel.BootI386

/-!
# What the first page tables of the i386 map

The loop leaves an entry for every page from the start of the image to the end of the kernel, as far
as the four page tables reach, and none for the others. While paging is being turned on the image is
mapped twice, where it is and where it is linked; the tables themselves are a part of it, so the
stores that take the first mapping away go through the second one.
-/

namespace FelineOS.I386.Boot

open Library Library.Memory

/-- The page of a physical address is mapped: it is in the image, and the tables reach it. -/
def Mapped (s : Symbols) (phys : BitVec 32) : Prop :=
  0x100000 ≤ phys.toNat ∧ phys.toNat / 4096 * 4096 < s.physKernelEnd.toNat ∧
    phys.toNat < 0x1000000

instance (s : Symbols) (phys : BitVec 32) : Decidable (Mapped s phys) :=
  inferInstanceAs (Decidable (_ ∧ _ ∧ _))

/-- Which entry a page of the image should have. -/
def PageOf (s : Symbols) (page : Nat) : Prop :=
  page < 4096 ∧ 0x100000 ≤ 4096 * page ∧ 4096 * page < s.physKernelEnd.toNat

instance (s : Symbols) (page : Nat) : Decidable (PageOf s page) :=
  inferInstanceAs (Decidable (_ ∧ _ ∧ _))

/-! ## The loop -/

/-- The loop fills the entries of the pages that are in the image. -/
theorem mapPages_entry (s : Symbols) {ecx page n : Nat} (m : Memory) (pages : page + ecx = 4096)
    (small : n < slotLimit) :
    (mapPages s ecx (BitVec.ofNat 32 (4096 * page)) (slot (cr3 s) (1024 + page)) m).entry (cr3 s) n =
      if 1024 + page ≤ n ∧ PageOf s (n - 1024) then BitVec.ofNat 32 (4096 * (n - 1024) + 3)
      else m.entry (cr3 s) n := by
  induction ecx generalizing page m with
  | zero =>
    rw [mapPages, if_neg]
    unfold PageOf
    omega
  | succ ecx ih =>
    have bounded := s.bounded
    have number : (BitVec.ofNat 32 (4096 * page)).toNat = 4096 * page := by
      rw [BitVec.toNat_ofNat]
      omega
    have first : (BitVec.ofNat 32 (4096 * page)).slt identityMapFromHere = true ↔
        4096 * page < 0x100000 := by
      rw [slt_small (by omega) (by decide), number]
      rfl
    have last : s.physKernelEnd.sle (BitVec.ofNat 32 (4096 * page)) = true ↔
        s.physKernelEnd.toNat ≤ 4096 * page := by
      rw [sle_small (by omega) (by omega), number]
    have nextPage : BitVec.ofNat 32 (4096 * page) + 4096#32 = BitVec.ofNat 32 (4096 * (page + 1)) := by
      rw [Nat.mul_succ, BitVec.ofNat_add]
    have nextSlot : slot (cr3 s) (1024 + page) + 4#32 = slot (cr3 s) (1024 + (page + 1)) :=
      slot_slot (cr3 s) (1024 + page) 1
    rw [mapPages, nextPage, nextSlot]
    by_cases early : 4096 * page < 0x100000
    · -- the page is in front of the image
      rw [if_pos (first.mpr early), ih m (by omega)]
      by_cases here : n = 1024 + page
      · rw [if_neg (by omega), if_neg]
        unfold PageOf
        omega
      · exact if_congr (and_congr_left' (by omega)) rfl rfl
    · rw [if_neg (fun less => early (first.mp less))]
      by_cases late : s.physKernelEnd.toNat ≤ 4096 * page
      · -- the kernel ends here
        rw [if_pos (last.mpr late), if_neg]
        unfold PageOf
        omega
      · rw [if_neg (fun less => late (last.mp less)), ih _ (by omega),
          entry_store (by unfold slotLimit; omega) small]
        by_cases here : n = 1024 + page
        · have inside : 1024 + page ≤ n ∧ PageOf s (n - 1024) := by
            unfold PageOf
            omega
          rw [if_neg (by omega), if_pos here, if_pos inside, here, Nat.add_sub_cancel_left]
          apply BitVec.eq_of_toNat_eq
          rw [toNat_setLow (k := 12) _ _ (by rw [number]; exact Nat.dvd_mul_right _ _) (by decide),
            number]
          simp only [BitVec.toNat_ofNat]
          omega
        · rw [if_neg here]
          exact if_congr (and_congr_left' (by omega)) rfl rfl

/-- The loop writes into the tables only. -/
theorem mapPages_beyond (s : Symbols) {ecx page : Nat} (esi : BitVec 32) (m : Memory)
    (pages : page + ecx = 4096) :
    Beyond 5120 (cr3 s) m (mapPages s ecx esi (slot (cr3 s) (1024 + page)) m) := by
  induction ecx generalizing page esi m with
  | zero => exact .refl 5120 (cr3 s) m
  | succ ecx ih =>
    have next : slot (cr3 s) (1024 + page) + 4#32 = slot (cr3 s) (1024 + (page + 1)) :=
      slot_slot (cr3 s) (1024 + page) 1
    rw [mapPages, next]
    split
    · exact ih _ m (by omega)
    · split
      · exact .refl 5120 (cr3 s) m
      · exact (beyond_store m _ (by omega) (by decide)).trans (ih _ _ (by omega))

/-! ## The tables -/

/-- The directory entry of a page table. -/
def tableEntry (s : Symbols) (table : Nat) : BitVec 32 :=
  BitVec.ofNat 32 ((cr3 s).toNat + 4096 * (table + 1) + 3)

/-- The entries are those of the four page tables. -/
theorem directoryEntries_eq (s : Symbols) {table : Nat} (four : table < 4) :
    (directoryEntries s).getD table 0 = tableEntry s table := by
  have place (number : Nat) :
      s.bootPageTable (number + 1) - vaOffset + 0x003#32 = tableEntry s number := by
    unfold Symbols.bootPageTable tableEntry cr3
    rw [BitVec.ofNat_add, BitVec.ofNat_add, BitVec.ofNat_toNat, BitVec.setWidth_eq]
    generalize BitVec.ofNat 32 (4096 * (number + 1)) = distance
    bv_omega
  match table, four with
  | 0, _ => exact place 0
  | 1, _ => exact place 1
  | 2, _ => exact place 2
  | 3, _ => exact place 3

/-- The stores go into slots of one table. -/
theorem pageTables_slots (s : Symbols) (m : Memory) : pageTables s m =
    ((mapPages s 4096 (BitVec.ofNat 32 (4096 * 0)) (slot (cr3 s) (1024 + 0)) m).storeWords
      (slot (cr3 s) 0) (directoryEntries s)).storeWords (slot (cr3 s) 960) (directoryEntries s) := by
  have firstTable : s.bootPageTable 1 - vaOffset = slot (cr3 s) (1024 + 0) := by
    unfold Symbols.bootPageTable slot cr3
    bv_omega
  have front : slot (cr3 s) 0 = s.bootPageDirectory - vaOffset := BitVec.add_zero _
  rw [front, ← firstTable]
  rfl

/-- What the tables have when paging is turned on. -/
theorem pageTables_entry (s : Symbols) (m : Memory) {n : Nat} (small : n < slotLimit) :
    (pageTables s m).entry (cr3 s) n =
      if 960 ≤ n ∧ n < 964 then tableEntry s (n - 960)
      else if n < 4 then tableEntry s n
      else if 1024 ≤ n ∧ PageOf s (n - 1024) then BitVec.ofNat 32 (4096 * (n - 1024) + 3)
      else m.entry (cr3 s) n := by
  have four : (directoryEntries s).length = 4 := rfl
  have filled := mapPages_entry s m (by decide : 0 + 4096 = 4096) small
  rw [pageTables_slots, entry_storeWords _ _ (by rw [four]; decide) small,
    entry_storeWords _ _ (by rw [four]; decide) small, four]
  by_cases high : 960 ≤ n ∧ n < 964
  · rw [if_pos high, if_pos high, directoryEntries_eq s (by omega)]
  · rw [if_neg high, if_neg high]
    by_cases low : n < 4
    · rw [if_pos ⟨Nat.zero_le n, low⟩, if_pos low, directoryEntries_eq s (by omega), Nat.sub_zero]
    · rw [if_neg (fun inside => low inside.2), if_neg low]
      exact filled

/-- The tables are all that changes. -/
theorem pageTables_beyond (s : Symbols) (m : Memory) :
    Beyond 5120 (cr3 s) m (pageTables s m) := by
  have four : (directoryEntries s).length = 4 := rfl
  rw [pageTables_slots]
  exact ((mapPages_beyond s _ m (by decide)).trans
    (beyond_storeWords _ _ (by rw [four]; decide) (by decide))).trans
    (beyond_storeWords _ _ (by rw [four]; decide) (by decide))

/-! ## Translation -/

/-- The page directory is a multiple of the page size. -/
theorem cr3_aligned (s : Symbols) : cr3 s >>> 12 <<< 12 = cr3 s := by
  have aligned : (cr3 s).toNat % 4096 = 0 := s.aligned
  apply BitVec.eq_of_toNat_eq
  rw [toNat_highBits]
  omega

/-- The processor looks into the slot of an address. -/
theorem directory_slot (s : Symbols) (virt : BitVec 32) :
    cr3 s >>> 12 <<< 12 + virt >>> 22 * 4#32 = slot (cr3 s) (virt.toNat / 0x400000) := by
  have index : virt >>> 22 * 4#32 = BitVec.ofNat 32 (4 * (virt.toNat / 0x400000)) := by
    apply BitVec.eq_of_toNat_eq
    rw [BitVec.toNat_mul, toNat_shiftRight, BitVec.toNat_ofNat, Nat.mul_comm]
    rfl
  rw [cr3_aligned, index]
  rfl

/-- Then it looks into a slot of the page table. -/
theorem table_slot (s : Symbols) (virt : BitVec 32) {table : Nat} (four : table < 4) :
    tableEntry s table >>> 12 <<< 12 + (virt >>> 12 &&& 1023#32) * 4#32 =
      slot (cr3 s) (1024 * (table + 1) + virt.toNat / 4096 % 1024) := by
  have aligned : (cr3 s).toNat % 4096 = 0 := s.aligned
  have inside := s.inside
  have bounded := s.bounded
  have small : (cr3 s).toNat + 5 * 4096 ≤ 0x10000000 := Nat.le_trans inside bounded
  have page : tableEntry s table >>> 12 <<< 12 = slot (cr3 s) (1024 * (table + 1)) := by
    apply BitVec.eq_of_toNat_eq
    unfold tableEntry slot
    rw [toNat_highBits, BitVec.toNat_add, BitVec.toNat_ofNat, BitVec.toNat_ofNat]
    omega
  have index : (virt >>> 12 &&& 1023#32) * 4#32 =
      BitVec.ofNat 32 (4 * (virt.toNat / 4096 % 1024)) := by
    have low : (virt >>> 12 &&& 1023#32).toNat = (virt >>> 12).toNat % 2 ^ 10 :=
      toNat_lowBits _ 10 (by decide)
    apply BitVec.eq_of_toNat_eq
    rw [BitVec.toNat_mul, low, toNat_shiftRight, BitVec.toNat_ofNat, Nat.mul_comm]
    rfl
  rw [page, index, ← slot_slot]
  rfl

/-- Without a directory entry nothing is mapped. -/
theorem translate_none {m : Memory} {s : Symbols} {virt : BitVec 32}
    (missing : m.entry (cr3 s) (virt.toNat / 0x400000) = 0) : translate m (cr3 s) virt = none := by
  unfold translate
  rw [directory_slot]
  have pde : m.load (slot (cr3 s) (virt.toNat / 0x400000)) = 0 := missing
  dsimp only
  rw [pde, if_neg fun present => Bool.noConfusion present.1]

/-- A directory entry is present and writeable. -/
theorem tableEntry_bits (s : Symbols) (table : Nat) :
    (tableEntry s table).getLsbD 0 = true ∧ (tableEntry s table).getLsbD 1 = true := by
  have aligned : (cr3 s).toNat % 4096 = 0 := s.aligned
  unfold tableEntry
  rw [getLsbD_number _ (by decide), getLsbD_number _ (by decide)]
  exact ⟨decide_eq_true (by omega), decide_eq_true (by omega)⟩

/-- A page table of the boot code is looked into. -/
theorem translate_table {m : Memory} {s : Symbols} {virt pte : BitVec 32} {table : Nat}
    (four : table < 4) (pde : m.entry (cr3 s) (virt.toNat / 0x400000) = tableEntry s table)
    (found : m.entry (cr3 s) (1024 * (table + 1) + virt.toNat / 4096 % 1024) = pte) :
    translate m (cr3 s) virt =
      if pte.getLsbD 0 then some (pte >>> 12 <<< 12 + (virt &&& 4095#32), pte.getLsbD 1)
      else none := by
  have bits := tableEntry_bits s table
  have first : m.load (slot (cr3 s) (virt.toNat / 0x400000)) = tableEntry s table := pde
  have second :
      m.load (slot (cr3 s) (1024 * (table + 1) + virt.toNat / 4096 % 1024)) = pte := found
  unfold translate
  rw [directory_slot]
  dsimp only
  rw [first, table_slot s virt four, second, bits.1, bits.2, Bool.true_and]
  exact if_congr (and_iff_right rfl) rfl rfl

/-- The entry of a page leads to its place. -/
theorem translate_page {m : Memory} {s : Symbols} {virt : BitVec 32} {table page : Nat}
    (four : table < 4) (number : page = 1024 * table + virt.toNat / 4096 % 1024)
    (pde : m.entry (cr3 s) (virt.toNat / 0x400000) = tableEntry s table)
    (pte : m.entry (cr3 s) (1024 + page) =
      if PageOf s page then BitVec.ofNat 32 (4096 * page + 3) else 0) :
    translate m (cr3 s) virt =
      if PageOf s page then some (BitVec.ofNat 32 (4096 * page + virt.toNat % 4096), true)
      else none := by
  have place : 1024 * (table + 1) + virt.toNat / 4096 % 1024 = 1024 + page := by omega
  rw [← place] at pte
  rw [translate_table four pde pte]
  by_cases mapped : PageOf s page
  · have small := mapped.1
    have present : (BitVec.ofNat 32 (4096 * page + 3)).getLsbD 0 = true := by
      rw [getLsbD_number _ (by decide)]
      exact decide_eq_true (by omega)
    have writeable : (BitVec.ofNat 32 (4096 * page + 3)).getLsbD 1 = true := by
      rw [getLsbD_number _ (by decide)]
      exact decide_eq_true (by omega)
    have low : (virt &&& 4095#32).toNat = virt.toNat % 2 ^ 12 := toNat_lowBits virt 12 (by decide)
    have number : (BitVec.ofNat 32 (4096 * page + 3)).toNat = 4096 * page + 3 := by
      rw [BitVec.toNat_ofNat]
      omega
    have phys : BitVec.ofNat 32 (4096 * page + 3) >>> 12 <<< 12 + (virt &&& 4095#32) =
        BitVec.ofNat 32 (4096 * page + virt.toNat % 4096) := by
      apply BitVec.eq_of_toNat_eq
      rw [BitVec.toNat_add, toNat_highBits, low, number, BitVec.toNat_ofNat]
      omega
    rw [if_pos mapped, if_pos mapped, present, writeable, phys]
    rfl
  · rw [if_neg mapped, if_neg mapped]
    rfl

/-- The tables map the image where it is linked, and some of the first page tables map it where it
is. -/
structure Maps (s : Symbols) (identity : Nat → Bool) (m : Memory) : Prop where
  /-- The directory entries of the kernel. -/
  high : ∀ table < 4, m.entry (cr3 s) (960 + table) = tableEntry s table
  /-- Those of the identity mapping. -/
  low : ∀ table < 4, m.entry (cr3 s) table = if identity table then tableEntry s table else 0
  /-- There are no others. -/
  others : ∀ n < 1024, 4 ≤ n → ¬(960 ≤ n ∧ n < 964) → m.entry (cr3 s) n = 0
  /-- The page tables. -/
  pages : ∀ page < 4096, m.entry (cr3 s) (1024 + page) =
    if PageOf s page then BitVec.ofNat 32 (4096 * page + 3) else 0

/-- A physical address is mapped if its page is. -/
theorem pageOf_iff (s : Symbols) {virt phys : BitVec 32} {page : Nat} (low : phys.toNat < 0x1000000)
    (same : 4096 * page + virt.toNat % 4096 = phys.toNat) : PageOf s page ↔ Mapped s phys := by
  unfold PageOf Mapped
  omega

/-- What such tables translate. -/
theorem Maps.translate {s : Symbols} {identity : Nat → Bool} {m : Memory}
    (maps : Maps s identity m) (virt : BitVec 32) :
    translate m (cr3 s) virt =
      if Mapped s virt ∧ identity (virt.toNat / 0x400000) then some (virt, true)
      else if Mapped s (virt - vaOffset) then some (virt - vaOffset, true)
      else none := by
  have range := virt.isLt
  have offset : vaOffset.toNat = 0xF0000000 := rfl
  have distance : (virt - vaOffset).toNat = (2 ^ 32 - 0xF0000000 + virt.toNat) % 2 ^ 32 := by
    rw [BitVec.toNat_sub, offset]
  by_cases low : virt.toNat / 0x400000 < 4
  · -- the address is in the identity mapping
    have apart : ¬Mapped s (virt - vaOffset) := by
      unfold Mapped
      omega
    have same : 4096 * (virt.toNat / 4096) + virt.toNat % 4096 = virt.toNat := by omega
    have number : virt.toNat / 4096 =
        1024 * (virt.toNat / 0x400000) + virt.toNat / 4096 % 1024 := by omega
    have mapped : PageOf s (virt.toNat / 4096) ↔ Mapped s virt := pageOf_iff s (by omega) same
    have entry := maps.low _ low
    rw [if_neg apart]
    cases live : identity (virt.toNat / 0x400000) with
    | false =>
      rw [live, if_neg Bool.false_ne_true] at entry
      rw [translate_none entry, if_neg fun both => Bool.noConfusion both.2]
    | true =>
      rw [live, if_pos rfl] at entry
      rw [translate_page low number entry (maps.pages _ (by omega)), same, BitVec.ofNat_toNat,
        BitVec.setWidth_eq]
      exact if_congr (mapped.trans (and_iff_left rfl).symm) rfl rfl
  · have high : ¬Mapped s virt := by
      unfold Mapped
      omega
    rw [if_neg fun both => high both.1]
    by_cases inside : 960 ≤ virt.toNat / 0x400000 ∧ virt.toNat / 0x400000 < 964
    · -- the address is one of the kernel
      have table : 960 + (virt.toNat / 0x400000 - 960) = virt.toNat / 0x400000 := by omega
      have entry := maps.high (virt.toNat / 0x400000 - 960) (by omega)
      have same : 4096 * ((virt - vaOffset).toNat / 4096) + virt.toNat % 4096 =
          (virt - vaOffset).toNat := by omega
      have mapped := pageOf_iff s (by omega) same
      rw [table] at entry
      rw [translate_page (by omega) (by omega) entry
        (maps.pages ((virt - vaOffset).toNat / 4096) (by omega)), same, BitVec.ofNat_toNat,
        BitVec.setWidth_eq]
      exact if_congr mapped rfl rfl
    · have apart : ¬Mapped s (virt - vaOffset) := by
        unfold Mapped
        omega
      rw [translate_none (maps.others _ (by omega) (by omega) inside), if_neg apart]

/-- The tables that paging is turned on with map the image twice. -/
theorem pageTables_maps (s : Symbols) {m : Memory}
    (clear : ∀ n < 5120, m.entry (cr3 s) n = 0) : Maps s (fun _ => true) (pageTables s m) := by
  constructor
  · intro table four
    rw [pageTables_entry s m (by unfold slotLimit; omega), if_pos (by omega),
      Nat.add_sub_cancel_left]
  · intro table four
    rw [pageTables_entry s m (by unfold slotLimit; omega), if_neg (by omega), if_pos four, if_pos rfl]
  · intro n small behind apart
    rw [pageTables_entry s m (by unfold slotLimit; omega), if_neg apart, if_neg (by omega),
      if_neg (by omega), clear n (by omega)]
  · intro page small
    rw [pageTables_entry s m (by unfold slotLimit; omega), if_neg (by omega), if_neg (by omega),
      Nat.add_sub_cancel_left, clear (1024 + page) (by omega)]
    exact if_congr (and_iff_right (Nat.le_add_right ..)) rfl rfl

/-- A store through the mapping of the kernel takes an identity mapping away. -/
theorem Maps.unmap {s : Symbols} {identity : Nat → Bool} {m : Memory} (maps : Maps s identity m)
    (reached : (cr3 s).toNat + 4096 ≤ 0x1000000) {table : Nat} (four : table < 4) :
    ∃ after, storeVirtual m (cr3 s) (s.bootPageDirectory + BitVec.ofNat 32 (4 * table)) 0 =
        some after ∧
      Maps s (fun other => identity other && other != table) after ∧
      Beyond 5120 (cr3 s) m after := by
  have behind : 0x100000 ≤ (cr3 s).toNat := s.behind
  have inside : (cr3 s).toNat + 5 * 4096 ≤ s.physKernelEnd.toNat := s.inside
  have aligned : (cr3 s).toNat % 4096 = 0 := s.aligned
  have offset : vaOffset.toNat = 0xF0000000 := rfl
  have phys : s.bootPageDirectory + BitVec.ofNat 32 (4 * table) - vaOffset = slot (cr3 s) table := by
    unfold slot cr3
    generalize BitVec.ofNat 32 (4 * table) = distance
    bv_omega
  have place : (slot (cr3 s) table).toNat = (cr3 s).toNat + 4 * table := by
    unfold slot
    rw [BitVec.toNat_add, BitVec.toNat_ofNat]
    omega
  have mapped : Mapped s (slot (cr3 s) table) := by
    unfold Mapped
    omega
  have linked : ¬Mapped s (s.bootPageDirectory + BitVec.ofNat 32 (4 * table)) := by
    have distance := congrArg BitVec.toNat phys
    have range := (s.bootPageDirectory + BitVec.ofNat 32 (4 * table)).isLt
    rw [BitVec.toNat_sub, offset] at distance
    unfold Mapped
    omega
  have through : I386.Boot.translate m (cr3 s) (s.bootPageDirectory + BitVec.ofNat 32 (4 * table)) =
      some (slot (cr3 s) table, true) := by
    rw [maps.translate, if_neg fun both => linked both.1, phys, if_pos mapped]
  have changed (n : Nat) (small : n < 5120) : (m.store (slot (cr3 s) table) 0).entry (cr3 s) n =
      if n = table then 0 else m.entry (cr3 s) n :=
    entry_store (by unfold slotLimit; omega) (by unfold slotLimit; omega)
  refine ⟨m.store (slot (cr3 s) table) 0, ?_, ?_, beyond_store m 0 (by omega) (by decide)⟩
  · unfold storeVirtual
    rw [through]
  · constructor
    · intro other small
      rw [changed _ (by omega), if_neg (by omega), maps.high other small]
    · intro other small
      rw [changed _ (by omega), maps.low other small]
      by_cases same : other = table
      · rw [if_pos same, same, bne_self_eq_false, Bool.and_false, if_neg Bool.false_ne_true]
      · rw [if_neg same, bne_iff_ne.mpr same, Bool.and_true]
    · intro n small last apart
      rw [changed _ (by omega), if_neg (by omega), maps.others n small last apart]
    · intro page small
      rw [changed _ (by omega), if_neg (by omega), maps.pages page small]

/-- The four stores leave the mapping of the kernel alone. -/
theorem start_spec (s : Symbols) {m : Memory} (clear : ∀ n < 5120, m.entry (cr3 s) n = 0)
    (reached : (cr3 s).toNat + 4096 ≤ 0x1000000) :
    ∃ after, start s m = some after ∧ Maps s (fun _ => false) after ∧
      Beyond 5120 (cr3 s) m after := by
  obtain ⟨m₁, first, maps₁, beyond₁⟩ := (pageTables_maps s clear).unmap reached (by decide : 0 < 4)
  obtain ⟨m₂, second, maps₂, beyond₂⟩ := maps₁.unmap reached (by decide : 1 < 4)
  obtain ⟨m₃, third, maps₃, beyond₃⟩ := maps₂.unmap reached (by decide : 2 < 4)
  obtain ⟨m₄, fourth, maps₄, beyond₄⟩ := maps₃.unmap reached (by decide : 3 < 4)
  rw [Nat.mul_zero, BitVec.add_zero] at first
  refine ⟨m₄, ?_, ⟨maps₄.high, ?_, maps₄.others, maps₄.pages⟩,
    ((((pageTables_beyond s m).trans beyond₁).trans beyond₂).trans beyond₃).trans beyond₄⟩
  · have next : storeVirtual m₁ (cr3 s) (s.bootPageDirectory + 4#32) 0 = some m₂ := second
    have later : storeVirtual m₂ (cr3 s) (s.bootPageDirectory + 8#32) 0 = some m₃ := third
    have last : storeVirtual m₃ (cr3 s) (s.bootPageDirectory + 12#32) 0 = some m₄ := fourth
    unfold start unmapIdentity
    rw [first, Option.bind_eq_bind, Option.bind_some, next, Option.bind_some, later,
      Option.bind_some, last]
  · intro table four
    rw [maps₄.low table four]
    match table, four with
    | 0, _ => rfl
    | 1, _ => rfl
    | 2, _ => rfl
    | 3, _ => rfl

/-- The boot code turns paging on with the image mapped where it is and where it is linked, so the
code runs on; then it takes the first mapping away through the second one, and from there on exactly
the pages of the image that the page tables reach are mapped, writeable and where they are linked.
It writes into the tables only. -/
theorem start_maps_kernel (s : Symbols) {m : Memory} (clear : ∀ n < 5120, m.entry (cr3 s) n = 0)
    (reached : (cr3 s).toNat + 4096 ≤ 0x1000000) :
    (∀ virt, translate (pageTables s m) (cr3 s) virt =
      if Mapped s virt then some (virt, true)
      else if Mapped s (virt - vaOffset) then some (virt - vaOffset, true) else none) ∧
    ∃ after, start s m = some after ∧
      (∀ virt, translate after (cr3 s) virt =
        if Mapped s (virt - vaOffset) then some (virt - vaOffset, true) else none) ∧
      ∀ a, 5 * 4096 ≤ (a - cr3 s).toNat → after a = m a := by
  obtain ⟨after, runs, maps, beyond⟩ := start_spec s clear reached
  refine ⟨fun virt => ?_, after, runs, fun virt => ?_, fun a outside => beyond a outside⟩
  · rw [(pageTables_maps s clear).translate virt]
    exact if_congr (and_iff_left rfl) rfl rfl
  · rw [maps.translate virt, if_neg fun both => Bool.noConfusion both.2]

/-- A kernel of two megabytes. -/
def exampleSymbols : Symbols where
  physKernelEnd := 0x300000#32
  bootPageDirectory := 0xF0200000#32
  aligned := by decide
  behind := by decide
  inside := by decide
  bounded := by decide

/-- Its tables, in a memory that is clear. -/
theorem start_maps_kernel_example : ∃ after, start exampleSymbols (fun _ => 0) = some after ∧
    translate after (cr3 exampleSymbols) 0xF0123456#32 = some (0x123456#32, true) ∧
    translate after (cr3 exampleSymbols) 0x123456#32 = none := by
  have clear (n : Nat) (_ : n < 5120) :
      Memory.entry (fun _ => 0) (cr3 exampleSymbols) n = 0 := by
    show 0#8 ++ 0#8 ++ 0#8 ++ 0#8 = 0#32
    decide
  have reached : (cr3 exampleSymbols).toNat + 4096 ≤ 0x1000000 := by decide
  obtain ⟨-, after, runs, maps, -⟩ := start_maps_kernel exampleSymbols clear reached
  refine ⟨after, runs, ?_, ?_⟩
  · rw [maps]
    decide
  · rw [maps]
    decide

end FelineOS.I386.Boot
