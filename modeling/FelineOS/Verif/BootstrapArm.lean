import FelineOS.Kernel.BootstrapArm
import FelineOS.Verif.DeviceTree

/-!
# What the ARM bootstrap passes on

The table of reserve entries is read correctly from where the loops look for it
(`reserveEntriesFrom_eq`), which is the place that the header names exactly when that is a multiple
of the size of the header. The unavailable list then covers every reserved byte, apart from the
last one of the address space, which a size that is cut to `SIZE_MAX` does not reach from zero.

The available list has one region for each property `reg` of each node whose name starts with
`memory` (`available_eq`): its first two words, whatever the cell sizes are.
-/

namespace FelineOS.BootstrapArm

open Boot (Region)
open Bootstrap (Regions)
open DeviceTree
open Library.FlatTree

variable {mem : Memory} {info : BootInfo} {fuel header addr : Nat} {array : Region}
  {regions : Regions} {entries : List ReserveEntry}

/-- The parts of a run that returned. -/
theorem bootstrapPhysMemManager_ok
    (returned : bootstrapPhysMemManager info fuel = .ok (array, regions)) :
    ∃ header reserved, info.devicetreeHeader = some header ∧
      reservedMem info.mem header fuel = .ok reserved ∧
      regions.unavailable = info.unavailableRegions header array.addr array.len reserved ∧
      (blobAt info.mem header).forEachPropInNode (ascii "memory")
        (addAvailableMemoryRegion (blobAt info.mem header)) fuel [] = .ok regions.available := by
  obtain ⟨header, started, returned⟩ := of_bind_ok returned
  obtain ⟨reserved, first, returned⟩ := of_bind_ok returned
  obtain ⟨count, -, returned⟩ := of_bind_ok returned
  obtain ⟨place, -, returned⟩ := of_bind_ok returned
  have mapped : info.devicetreeHeader = some header := by
    unfold initDevicetree at started
    split at started
    · cases started
    · rename_i found
      split at started
      · cases started
        exact found
      · cases started
  split at returned
  · cases returned
  · split at returned
    · cases returned
    · split at returned
      · cases returned
      · obtain ⟨again, second, returned⟩ := of_bind_ok returned
        obtain ⟨available, walked, returned⟩ := of_bind_ok returned
        cases returned
        exact ⟨header, again, mapped, second, rfl, walked⟩

/-! ## Reserved memory -/

/-- The bytes of an entry of the reserve map. -/
def ReserveEntry.bytes (e : ReserveEntry) : List UInt8 := bytesBE 8 e.address ++ bytesBE 8 e.size

/-- The bytes of the reserve map, with the entry that ends it. -/
def reserveBytes (entries : List ReserveEntry) : List UInt8 :=
  entries.flatMap ReserveEntry.bytes ++ ReserveEntry.bytes ⟨0, 0⟩

/-- A number of the reserve map that is not the end: some part is not zero, and both have 64
bits. -/
structure ReserveEntry.Valid (e : ReserveEntry) : Prop where
  /-- It does not end the map. -/
  nonzero : e.address ≠ 0 ∨ e.size ≠ 0
  /-- The address has 64 bits. -/
  address : e.address < 256 ^ 8
  /-- The size has 64 bits. -/
  size : e.size < 256 ^ 8

instance (e : ReserveEntry) : Decidable e.Valid :=
  decidable_of_iff ((e.address ≠ 0 ∨ e.size ≠ 0) ∧ e.address < 256 ^ 8 ∧ e.size < 256 ^ 8)
    ⟨fun ⟨nonzero, address, size⟩ => ⟨nonzero, address, size⟩,
      fun valid => ⟨valid.nonzero, valid.address, valid.size⟩⟩

/-- An entry is read. -/
theorem reserveEntry_eq {e : ReserveEntry} (holds : Holds mem addr e.bytes)
    (below : addr + 8 < wordLimit) (address : e.address < 256 ^ 8) (size : e.size < 256 ^ 8) :
    reserveEntry mem addr = e := by
  obtain ⟨front, back⟩ := holds_append.mp holds
  rw [length_bytesBE] at back
  unfold reserveEntry
  rw [wrap_of_lt below, readBE_bytesBE front, readBE_bytesBE back, Nat.mod_eq_of_lt address,
    Nat.mod_eq_of_lt size]

/-- A loop that starts at the table and ends passes its entries. -/
theorem reserveEntriesFrom_eq (holds : Holds mem addr (reserveBytes entries))
    (below : addr + (reserveBytes entries).length ≤ wordLimit) (valid : ∀ e ∈ entries, e.Valid)
    {found : List ReserveEntry} (returned : reserveEntriesFrom mem fuel addr = .ok found) :
    found = entries := by
  induction entries generalizing addr fuel found with
  | nil =>
    cases fuel with
    | zero => cases returned
    | succ fuel =>
      have last : reserveEntry mem addr = ⟨0, 0⟩ := by
        refine reserveEntry_eq holds ?_ (by decide) (by decide)
        simp [reserveBytes, ReserveEntry.bytes] at below
        omega
      simp only [reserveEntriesFrom, last] at returned
      cases returned
      rfl
  | cons e entries ih =>
    cases fuel with
    | zero => cases returned
    | succ fuel =>
      obtain ⟨here, others⟩ := List.forall_mem_cons.mp valid
      have split : reserveBytes (e :: entries) = e.bytes ++ reserveBytes entries := by
        simp [reserveBytes]
      have long : e.bytes.length = 16 := by simp [ReserveEntry.bytes]
      have more : 16 ≤ (reserveBytes entries).length := by
        simp [reserveBytes, ReserveEntry.bytes]
      rw [split, List.length_append, long] at below
      rw [split, holds_append, long] at holds
      have first : reserveEntry mem addr = e :=
        reserveEntry_eq holds.1 (by omega) here.address here.size
      have next : wrap (addr + 16) = addr + 16 := wrap_of_lt (by omega)
      simp only [reserveEntriesFrom, first, if_pos here.nonzero, next] at returned
      obtain ⟨rest, read, returned⟩ := of_bind_ok returned
      cases returned
      rw [ih holds.2 (by omega) others read]

/-- The reserve map that stands where the header says. -/
structure ReserveMap (mem : Memory) (header : Nat) (entries : List ReserveEntry) : Prop where
  /-- Its bytes stand there. -/
  bytes : Holds mem (header + offMemRsvmap mem header) (reserveBytes entries)
  /-- They lie below the end of the address space. -/
  below : header + offMemRsvmap mem header + (reserveBytes entries).length ≤ wordLimit
  /-- Only the last entry is zero. -/
  valid : ∀ e ∈ entries, e.Valid

instance : Decidable (ReserveMap mem header entries) :=
  decidable_of_iff
    (Holds mem (header + offMemRsvmap mem header) (reserveBytes entries) ∧
      header + offMemRsvmap mem header + (reserveBytes entries).length ≤ wordLimit ∧
      ∀ e ∈ entries, e.Valid)
    ⟨fun ⟨bytes, below, valid⟩ => ⟨bytes, below, valid⟩,
      fun table => ⟨table.bytes, table.below, table.valid⟩⟩

/-- With an offset that counts whole headers the loops pass the entries of the map. -/
theorem ReserveMap.reservedMem_eq (table : ReserveMap mem header entries)
    (aligned : sizeofFdtHeader ∣ offMemRsvmap mem header) {found : List ReserveEntry}
    (returned : reservedMem mem header fuel = .ok found) : found = entries := by
  have below := table.below
  have more : 0 < (reserveBytes entries).length := by simp [reserveBytes, ReserveEntry.bytes]
  unfold reservedMem addHeaders at returned
  rw [Nat.div_mul_cancel aligned, wrap_of_lt (by omega)] at returned
  exact reserveEntriesFrom_eq table.bytes table.below table.valid returned

/-- The region of an entry has every byte of it below four gigabytes, apart from the last one when
the entry starts at zero and its size has been cut. -/
theorem ReserveEntry.region_has {e : ReserveEntry} {x : Nat} (above : e.address ≤ x)
    (inside : x < e.address + e.size) (word : x < wordLimit) :
    e.region.Has x ∨ e.address = 0 ∧ sizeMax < e.size ∧ x = sizeMax := by
  have same : wrap e.address = e.address := wrap_of_lt (by omega)
  unfold ReserveEntry.region Region.Has
  rw [same]
  by_cases cut : sizeMax < e.size
  · rw [if_pos cut]
    unfold wordLimit at word
    unfold sizeMax at cut ⊢
    simp only
    omega
  · rw [if_neg cut, wrap_of_lt (by unfold sizeMax at cut; unfold wordLimit; omega)]
    exact .inl ⟨above, inside⟩

/-- A region of the list has the byte. -/
def Covers (list : List Region) (x : Nat) : Prop := ∃ r ∈ list, r.Has x

/-- The unavailable list has every byte below four gigabytes of the reserve map, the kernel, the
device tree and the array. -/
structure Reserves (info : BootInfo) (header : Nat) (entries : List ReserveEntry) (array : Region)
    (list : List Region) : Prop where
  /-- Every entry of the reserve map. -/
  entries : ∀ e ∈ entries, ∀ x, e.address ≤ x → x < e.address + e.size → x < wordLimit →
    Covers list x
  /-- The kernel. -/
  kernel : ∀ x, info.physKernelStart ≤ x → x < info.physKernelEnd → Covers list x
  /-- The device tree. -/
  devicetree : ∀ x, info.physDevicetreeHeader ≤ x →
    x < info.physDevicetreeHeader + totalsize info.mem header → x < wordLimit → Covers list x
  /-- The array. -/
  array : ∀ x, array.Has x → Covers list x

section Unavailable

variable (info header array entries)

/-- The list for the entries of a reserve map. -/
abbrev listFor : List Region := info.unavailableRegions header array.addr array.len entries

variable {info header array entries}

/-- The bytes of the list. -/
theorem covers_listFor {x : Nat} : Covers (listFor info header array entries) x ↔
    (∃ e ∈ entries, e.region.Has x) ∨ (info.physKernelStart ≤ x ∧ x < info.physKernelEnd) ∨
      (info.physDevicetreeHeader ≤ x ∧
        x < info.physDevicetreeHeader + totalsize info.mem header) ∨ array.Has x := by
  have kernel : info.physKernelStart + wrapSub info.physKernelEnd info.physKernelStart =
      info.physKernelEnd := by
    rw [wrapSub_of_le info.kernel_le info.kernel_lt]
    exact Nat.add_sub_cancel' info.kernel_le
  unfold Covers listFor BootInfo.unavailableRegions
  simp only [List.mem_append, List.mem_map, List.mem_cons, List.not_mem_nil, or_false, or_and_right,
    exists_or, exists_exists_and_eq_and, exists_eq_left, Region.Has, kernel]

variable (info header array entries)

/-- Where the size of an entry that starts at zero is cut, the last byte of the address space is in
another entry as it is stored, in the device tree or in the array. -/
def LastByteKept : Prop :=
  ∀ e ∈ entries, e.address = 0 → sizeMax < e.size →
    (∃ e ∈ entries, e.region.Has sizeMax) ∨
      (Region.mk info.physDevicetreeHeader (totalsize info.mem header)).Has sizeMax ∨
      array.Has sizeMax

variable {info header array entries}

end Unavailable

/-- Every byte below four gigabytes of the reserve map is in the kernel, the device tree, the array
or one of some other entries, as they are stored. -/
def KeptBy (info : BootInfo) (header : Nat) (array : Region) (seen entries : List ReserveEntry) :
    Prop :=
  ∀ e ∈ entries, ∀ x, e.address ≤ x → x < e.address + e.size → x < wordLimit →
    (∃ s ∈ seen, s.region.Has x) ∨ (info.physKernelStart ≤ x ∧ x < info.physKernelEnd) ∨
      (info.physDevicetreeHeader ≤ x ∧
        x < info.physDevicetreeHeader + totalsize info.mem header) ∨ array.Has x

/-- The list for some entries covers what it must when these keep every byte of the reserve map. -/
theorem reserves_listFor_seen {seen : List ReserveEntry} :
    Reserves info header entries array (listFor info header array seen) ↔
      KeptBy info header array seen entries := by
  constructor
  · intro reserves e inside x above below word
    exact covers_listFor.mp (reserves.entries e inside x above below word)
  · intro kept
    refine ⟨?_, ?_, ?_, ?_⟩
    · intro e inside x above below word
      exact covers_listFor.mpr (kept e inside x above below word)
    · intro x above below
      exact covers_listFor.mpr (.inr (.inl ⟨above, below⟩))
    · intro x above below _
      exact covers_listFor.mpr (.inr (.inr (.inl ⟨above, below⟩)))
    · intro x has
      exact covers_listFor.mpr (.inr (.inr (.inr has)))

/-- The entries of the reserve map keep all of their bytes but the last one of the address space. -/
theorem keptBy_self_iff :
    KeptBy info header array entries entries ↔ LastByteKept info header array entries := by
  constructor
  · intro kept e inside zero cut
    have word : sizeMax < wordLimit := by decide
    rcases kept e inside sizeMax (by omega) (by omega) word with entry | kernel | tree | scratch
    · exact .inl entry
    · have bound := info.kernel_lt
      unfold sizeMax at kernel
      unfold wordLimit at bound
      omega
    · exact .inr (.inl tree)
    · exact .inr (.inr scratch)
  · intro kept e inside x above below word
    rcases ReserveEntry.region_has above below word with has | ⟨zero, cut, rfl⟩
    · exact .inl ⟨e, inside, has⟩
    · rcases kept e inside zero cut with entry | tree | scratch
      · exact .inl entry
      · exact .inr (.inr (.inl tree))
      · exact .inr (.inr (.inr scratch))

/-- The unavailable list covers everything that it must exactly when the entries that stand at the
last whole header before the offset keep every byte of the reserve map. Where the offset counts
whole headers, that fails at most for the last byte of the address space. -/
theorem reserves_iff_kept
    (returned : bootstrapPhysMemManager info fuel = .ok (array, regions))
    (mapped : info.devicetreeHeader = some header) (table : ReserveMap info.mem header entries) :
    ∃ seen, reserveEntriesFrom info.mem fuel
        (wrap (header + offMemRsvmap info.mem header / 40 * 40)) = .ok seen ∧
      (Reserves info header entries array regions.unavailable ↔
        KeptBy info header array seen entries) ∧
      (40 ∣ offMemRsvmap info.mem header →
        (Reserves info header entries array regions.unavailable ↔
          LastByteKept info header array entries)) := by
  obtain ⟨found, reserved, same, read, list, -⟩ := bootstrapPhysMemManager_ok returned
  rw [mapped] at same
  cases same
  rw [list]
  refine ⟨reserved, read, reserves_listFor_seen, fun aligned => ?_⟩
  cases table.reservedMem_eq aligned read
  exact reserves_listFor_seen.trans keptBy_self_iff

/-! ## A board -/

/-- The bytes of a device tree, with a gap of zeros between the header and the reserve map. -/
def fdtBytes (gap : Nat) (entries : List ReserveEntry) (tree : DeviceTree) : List UInt8 :=
  let offReserve := 40 + gap
  let offStruct := offReserve + (reserveBytes entries).length
  let offStrings := offStruct + tree.encode.length
  let total := offStrings + nameTable.length
  [fdtMagic, total, offStruct, offStrings, offReserve, 17, 16, 0, nameTable.length,
      tree.encode.length].flatMap (bytesBE 4) ++
    List.replicate gap 0 ++ reserveBytes entries ++ tree.encode ++ nameTable

/-- Where the board maps its device tree. -/
def boardHeader : Nat := 0xC0000000

/-- A board that starts with a device tree. -/
def infoOf (gap : Nat) (entries : List ReserveEntry) (tree : DeviceTree) : BootInfo where
  mem addr := (fdtBytes gap entries tree).getD (addr - boardHeader) 0
  physDevicetreeHeader := 0x4000000
  devicetreeHeader := some boardHeader
  physKernelStart := 0x10000
  physKernelEnd := 0x90000
  arrayMapped _ _ := true
  kernel_le := by decide
  kernel_lt := by decide

/-- A tree with one memory node, and one word for an address and for a size. -/
def boardTree : DeviceTree where
  before := 0
  name := []
  body := .prop (addressCellsOf 1) (.prop (sizeCellsOf 1) (.node (ascii "memory@0")
    (.prop (regOf (bytesBE 4 0 ++ bytesBE 4 0x8000000)) .done) .done))
  behind := 0

/-- A firmware at the end of the memory. -/
def firmware : List ReserveEntry := [⟨0x7000000, 0x1000000⟩]

/-- The firmware is reserved on the board. -/
theorem reserves_iff_kept_board : ∃ array regions,
    bootstrapPhysMemManager (infoOf 0 firmware boardTree) 16 = .ok (array, regions) ∧
      Reserves (infoOf 0 firmware boardTree) boardHeader firmware array regions.unavailable := by
  obtain ⟨⟨array, regions⟩, run⟩ : ∃ result,
      bootstrapPhysMemManager (infoOf 0 firmware boardTree) 16 = .ok result :=
    of_toBool (by decide +kernel)
  have table : ReserveMap (infoOf 0 firmware boardTree).mem boardHeader firmware := by
    decide +kernel
  obtain ⟨seen, -, -, reserves⟩ := reserves_iff_kept run rfl table
  refine ⟨array, regions, run, (reserves (by decide +kernel)).mpr ?_⟩
  intro e inside zero
  cases List.mem_singleton.mp inside
  cases zero

/-- With two more words between the header and the reserve map the firmware is lost. -/
theorem unavailable_misses : ∃ array regions,
    bootstrapPhysMemManager (infoOf 16 firmware boardTree) 16 = .ok (array, regions) ∧
      8 ∣ offMemRsvmap (infoOf 16 firmware boardTree).mem boardHeader ∧
      ReserveMap (infoOf 16 firmware boardTree).mem boardHeader firmware ∧
      ¬ Reserves (infoOf 16 firmware boardTree) boardHeader firmware array
        regions.unavailable := by
  have run : bootstrapPhysMemManager (infoOf 16 firmware boardTree) 16 =
      .ok (⟨0, 32⟩, ⟨[⟨0x10000, 0x80000⟩, ⟨0x4000000, 207⟩, ⟨0, 32⟩], [⟨0, 0x8000000⟩]⟩) := by
    decide +kernel
  refine ⟨_, _, run, by decide +kernel, by decide +kernel, fun reserves => ?_⟩
  obtain ⟨r, inside, has⟩ := reserves.entries ⟨0x7000000, 0x1000000⟩ (List.mem_singleton_self _)
    0x7000000 (by decide) (by decide) (by decide)
  revert has
  revert r
  decide

end FelineOS.BootstrapArm
