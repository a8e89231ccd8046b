import FelineOS.Verif.Bootstrap

/-!
# The place of the scratch array on i386

The search of `bootstrap_phys_mem_manager` takes the start of the first entry that passes its tests.
Two of the tests are meant to keep the array apart from the kernel and from the memory map, but they
compare with the addresses of variables and of the mapped copy, look at the whole entry, and count
with the wrong sign: `overlapping_data` is set when nothing overlaps. So nothing keeps the array
apart; it is where the entry starts.
-/

namespace FelineOS.Bootstrap

open Boot

variable {info : BootInfo} {mbmp : Nat} {e : MmapEntry}

/-- No byte of the array is in the range. -/
def BootInfo.ArrayApart (info : BootInfo) (foundSpace start stop : Nat) : Prop :=
  ∀ x, info.InArray foundSpace x → ¬ (start ≤ x ∧ x < stop)

/-- The array lies in available memory below 4 GiB and covers neither the kernel nor the memory
map. -/
structure BootInfo.ScratchPlaced (info : BootInfo) (foundSpace : Nat) : Prop where
  /-- It lies in one available entry. -/
  within : ∃ e ∈ info.entries, e.available = true ∧ e.addr ≤ foundSpace ∧
    foundSpace + info.sortedLength ≤ e.addr + e.len
  /-- It ends at 4 GiB at the latest. -/
  below : foundSpace + info.sortedLength ≤ wordLimit
  /-- It has no byte of the kernel. -/
  kernel : info.ArrayApart foundSpace info.physKernelStart info.physKernelEnd
  /-- It has no byte of the memory map. -/
  memoryMap : info.ArrayApart foundSpace info.mmapAddr (info.mmapAddr + info.mbmpLen)

/-- The entry is taken: it is available, long and low enough, and it holds the address of the variable
`phys_kernel_end`, or reaches to the mapped copy of the map. The last two are what the tests are
meant to refuse. -/
structure BootInfo.Takes (info : BootInfo) (mbmp : Nat) (e : MmapEntry) : Prop where
  /-- It is available. -/
  available : e.available = true
  /-- The array is not longer than it. -/
  long : info.sortedLength ≤ e.len
  /-- The end of the array, in 64 bits, is below the last word. -/
  low : add64 e.addr info.sortedLength < wordLimit - 1
  /-- It holds the address of the variable, or reaches to the copy. -/
  touches : (e.addr ≤ info.endVariable ∧ info.endVariable ≤ e.stop) ∨
    wrap e.addr ≤ wrap (mbmp + info.numMapped * 24) ∧ mbmp ≤ wrap e.stop

/-- As many bytes from `front` on as the array has end before the kernel or begin behind it, and the
same with the memory map. -/
structure BootInfo.Spares (info : BootInfo) (front : Nat) : Prop where
  /-- The kernel, unless it is empty. -/
  kernel : info.physKernelStart < info.physKernelEnd →
    front + info.sortedLength ≤ info.physKernelStart ∨ info.physKernelEnd ≤ front
  /-- The memory map, unless it is empty. -/
  memoryMap : 0 < info.mbmpLen →
    front + info.sortedLength ≤ info.mmapAddr ∨ info.mmapAddr + info.mbmpLen ≤ front

/-- The first bytes of the entry, as many as the array has, do not wrap and spare the kernel and the
memory map; or they end with the 64 bits, and what they wrap to, the last bytes below 4 GiB, is
available and spares both. -/
def BootInfo.FrontFree (info : BootInfo) (e : MmapEntry) : Prop :=
  (e.addr + info.sortedLength < doubleLimit ∧ info.Spares e.addr) ∨
    (e.addr + info.sortedLength = doubleLimit ∧ info.sortedLength ≤ wordLimit ∧
      (∃ f ∈ info.entries, f.available = true ∧ f.addr ≤ wordLimit - info.sortedLength ∧
        wordLimit ≤ f.addr + f.len) ∧ info.Spares (wordLimit - info.sortedLength))

/-- The array has a byte. -/
theorem sortedLength_pos (info : BootInfo) : 0 < info.sortedLength := by
  unfold BootInfo.sortedLength
  omega

/-- The tests of the search, as they come out. -/
theorem usable_iff : info.usable mbmp e = true ↔ info.Takes mbmp e := by
  unfold BootInfo.usable
  simp only [Bool.and_eq_true, Bool.not_eq_true', Bool.and_eq_false_iff, Bool.or_eq_false_iff,
    decide_eq_true_eq, decide_eq_false_iff_not, Nat.not_lt]
  constructor
  · rintro ⟨⟨⟨available, long⟩, low⟩, touches⟩
    exact ⟨available, long, low, touches⟩
  · rintro ⟨available, long, low, touches⟩
    exact ⟨⟨⟨available, long⟩, low⟩, touches⟩

/-- The array is apart from a range when it ends before it or begins behind it. -/
theorem arrayApart_iff {foundSpace start stop : Nat} :
    info.ArrayApart foundSpace start stop ↔
      (start < stop → foundSpace + info.sortedLength ≤ start ∨ stop ≤ foundSpace) := by
  have positive := sortedLength_pos info
  constructor
  · intro apart filled
    -- The first byte that both could have.
    have first := apart (max foundSpace start)
    unfold BootInfo.InArray at first
    omega
  · intro beside x array inside
    have sides := beside (Nat.lt_of_le_of_lt inside.1 inside.2)
    unfold BootInfo.InArray at array
    omega

/-- The array spares the kernel and the memory map when it is apart from both. -/
theorem spares_iff {foundSpace : Nat} :
    info.Spares foundSpace ↔
      info.ArrayApart foundSpace info.physKernelStart info.physKernelEnd ∧
        info.ArrayApart foundSpace info.mmapAddr (info.mmapAddr + info.mbmpLen) := by
  rw [arrayApart_iff, arrayApart_iff]
  constructor
  · rintro ⟨kernel, memoryMap⟩
    exact ⟨kernel, fun filled => memoryMap (by omega)⟩
  · rintro ⟨kernel, memoryMap⟩
    exact ⟨kernel, fun filled => memoryMap (by omega)⟩

/-- A search that gets past the loop has taken an entry. -/
theorem exists_taken (past : info.foundSpace mbmp ≠ info.startVariable) :
    ∃ e, info.visited.find? (info.usable mbmp) = some e ∧ info.foundSpace mbmp = wrap e.addr := by
  unfold BootInfo.foundSpace at past ⊢
  cases found : info.visited.find? (info.usable mbmp) with
  | none =>
    rw [found] at past
    exact absurd rfl past
  | some e => exact ⟨e, rfl, rfl⟩

/-- The array at the start of an entry that is taken is placed well exactly when the front of the
entry is free. -/
theorem scratchPlaced_iff_frontFree (listed : e ∈ info.entries) (taken : info.Takes mbmp e) :
    info.ScratchPlaced (wrap e.addr) ↔ info.FrontFree e := by
  have positive := sortedLength_pos info
  have start := e.addr_lt
  have length := e.len_lt
  have long := taken.long
  have low := taken.low
  unfold BootInfo.FrontFree
  unfold add64 at low
  by_cases fits : e.addr + info.sortedLength < doubleLimit
  · rw [Nat.mod_eq_of_lt fits] at low
    have same : wrap e.addr = e.addr := wrap_of_lt (by omega)
    rw [same]
    constructor
    · intro placed
      exact .inl ⟨fits, spares_iff.mpr ⟨placed.kernel, placed.memoryMap⟩⟩
    · rintro (⟨-, spares⟩ | ⟨whole, -⟩)
      · obtain ⟨kernel, memoryMap⟩ := spares_iff.mp spares
        exact ⟨⟨e, listed, taken.available, Nat.le_refl _, by omega⟩, by omega, kernel, memoryMap⟩
      · omega
  · have last : wrap e.addr + info.sortedLength ≤ wordLimit ↔
        e.addr + info.sortedLength = doubleLimit ∧ info.sortedLength ≤ wordLimit := by
      unfold wrap wordLimit doubleLimit at *
      omega
    have place : e.addr + info.sortedLength = doubleLimit → info.sortedLength ≤ wordLimit →
        wrap e.addr = wordLimit - info.sortedLength := by
      unfold wrap wordLimit doubleLimit at *
      omega
    constructor
    · intro placed
      obtain ⟨whole, word⟩ := last.mp placed.below
      obtain ⟨f, member, free, before, behind⟩ := placed.within
      have spares := spares_iff.mpr ⟨placed.kernel, placed.memoryMap⟩
      rw [place whole word] at spares before behind
      exact .inr ⟨whole, word, ⟨f, member, free, before, by omega⟩, spares⟩
    · rintro (⟨short, -⟩ | ⟨whole, word, ⟨f, member, free, before, behind⟩, spares⟩)
      · exact absurd short fits
      · obtain ⟨kernel, memoryMap⟩ := spares_iff.mp spares
        rw [place whole word]
        exact ⟨⟨f, member, free, before, by omega⟩, by omega, kernel, memoryMap⟩

/-- When the search gets past its loop, the array is placed well exactly when the map has no entry
that is taken, with none taken before it, whose front is not free. -/
theorem scratch_placed_iff (past : info.foundSpace mbmp ≠ info.startVariable) :
    info.ScratchPlaced (info.foundSpace mbmp) ↔
      ∀ before e after, info.entries = before ++ e :: after → (∀ b ∈ before, ¬ info.Takes mbmp b) →
        info.Takes mbmp e → info.FrontFree e := by
  obtain ⟨e, found, place⟩ := exists_taken past
  rw [visited_eq] at found
  have taken := usable_iff.mp (List.find?_some found)
  obtain ⟨-, before, after, split, none⟩ := List.find?_eq_some_iff_append.mp found
  have refused : ∀ b ∈ before, ¬ info.Takes mbmp b := fun b member takes => by
    have usable := none b member
    rw [usable_iff.mpr takes] at usable
    contradiction
  rw [place, scratchPlaced_iff_frontFree (List.mem_of_find?_eq_some found) taken]
  constructor
  · intro free before' e' after' split' refused' taken'
    -- Both are the first entry that is taken.
    have other : info.entries.find? (info.usable mbmp) = some e' := by
      refine List.find?_eq_some_iff_append.mpr
        ⟨usable_iff.mpr taken', before', after', split', fun b member => ?_⟩
      rw [Bool.not_eq_true', ← Bool.not_eq_true, usable_iff]
      exact refused' b member
    rw [found] at other
    cases other
    exact free
  · exact fun every => every before e after split refused taken

/-- The memory below the hole. -/
def lowEntry : MmapEntry := ⟨20, 0, 0x9FC00, 1, by decide, by decide, by decide⟩

/-- The memory below the hole is taken, and neither the kernel nor the memory map begins there. -/
theorem scratch_placed_low : (BootInfo.pc [lowEntry]).foundSpace 0x1000 = 0 ∧
    (BootInfo.pc [lowEntry]).ScratchPlaced 0 := by
  have place : (BootInfo.pc [lowEntry]).foundSpace 0x1000 = 0 := by decide
  have past : (BootInfo.pc [lowEntry]).foundSpace 0x1000 ≠
      (BootInfo.pc [lowEntry]).startVariable := by decide
  have placed := scratch_placed_iff past
  rw [place] at placed
  refine ⟨place, placed.mpr fun before e after split _ _ => ?_⟩
  obtain rfl : e = lowEntry := by
    have member : e ∈ (BootInfo.pc [lowEntry]).entries := by simp [split]
    exact List.mem_singleton.mp member
  exact .inl ⟨by decide, ⟨fun _ => .inl (by decide), fun _ => .inl (by decide)⟩⟩

/-- A machine with memory up to the variables of the kernel, and the kernel at the start of it. -/
def fullMachine : BootInfo :=
  { BootInfo.pc [⟨20, 0x100000, 0xF0100000, 1, by decide, by decide, by decide⟩] with
    physKernelStart := 0x100000 }

/-- The array is put over the kernel. -/
theorem scratch_over_kernel : fullMachine.foundSpace 0x1000 = 0x100000 ∧
    fullMachine.foundSpace 0x1000 ≠ fullMachine.startVariable ∧
    ¬ fullMachine.ScratchPlaced (fullMachine.foundSpace 0x1000) := by
  have place : fullMachine.foundSpace 0x1000 = 0x100000 := by decide
  refine ⟨place, by decide, fun placed => ?_⟩
  rw [place] at placed
  exact placed.kernel 0x100000 ⟨by decide, by decide⟩ ⟨by decide, by decide⟩

end FelineOS.Bootstrap
