import FelineOS.Kernel.Bootstrap
import Mathlib.Data.List.Range

/-!
# What the bootstrap reserves and gives out

The unavailable list names the variables that hold the kernel's bounds and not the kernel. The
first pass over the map loses bytes where it cuts numbers to a word, where a merge computes the
length after it has moved the address, and where the two counters of the array have drifted
apart. `SafeEntry` says of one entry that none of this happens; when every entry is safe, the
list names exactly its first three regions and the entries, and the kernel is reserved only if
its bytes are among those.

The second pass cuts the addresses of the available entries to a word without a test, so an
entry above 4 GiB becomes a region below.
-/

namespace FelineOS.Bootstrap

open Boot

/-- The byte lies in the entry. -/
def MmapEntry.Has (e : MmapEntry) (x : Nat) : Prop := e.addr ≤ x ∧ x < e.addr + e.len

instance (e : MmapEntry) (x : Nat) : Decidable (e.Has x) := inferInstanceAs (Decidable (_ ∧ _))

/-- The byte lies in a counted region. -/
def Scratch.Covers (s : Scratch) (x : Nat) : Prop := ∃ i < s.numUnavailable, (s.slots i).Has x

/-- The counted regions are the ones of the list. -/
theorem Scratch.covers_iff (s : Scratch) (x : Nat) : s.Covers x ↔ ∃ r ∈ s.regions, r.Has x := by
  simp [Scratch.Covers, Scratch.regions]

/-! ## The passes visit the whole map -/

/-- A limit less than one entry short of the end stops no pass early. -/
theorem visit_eq (limit offset : Nat) (entries : List MmapEntry)
    (close : offset + (entries.map fun e => e.size + 4).sum < limit + 24) :
    visit limit offset entries = entries := by
  induction entries generalizing offset with
  | nil => rfl
  | cons e rest ih =>
    simp only [List.map_cons, List.sum_cons] at close
    have complete := e.complete
    unfold visit
    rw [if_pos (by omega), ih _ (by omega)]

/-- Each pass visits every entry. -/
theorem visited_eq (info : BootInfo) : info.visited = info.entries := by
  apply visit_eq
  have last := Nat.mod_lt info.mbmpLen (show 24 > 0 by decide)
  have whole := Nat.div_add_mod info.mbmpLen 24
  unfold BootInfo.numMapped
  show 0 + info.mbmpLen < _
  omega

/-! ## The array -/

/-- The first slot with a property is a counted slot that has it. -/
theorem firstSlot_some {s : Scratch} {p : Region → Bool} {i : Nat} (found : s.firstSlot p = some i) :
    i < s.numUnavailable ∧ p (s.slots i) := by
  unfold Scratch.firstSlot at found
  have holds := List.find?_some found
  exact ⟨List.mem_range.mp (List.mem_of_find?_eq_some found), holds⟩

/-- Moving back copies every slot behind the index to the next one. -/
theorem moveBack_apply (index num : Nat) (slots : Nat → Region) (k : Nat) :
    moveBack index num slots k =
      if index < k ∧ k ≤ num then slots (k - 1) else slots k := by
  induction num generalizing slots with
  | zero =>
    rw [if_neg (by omega)]
    rfl
  | succ moved ih =>
    unfold moveBack
    by_cases behind : index < moved + 1
    · rw [if_pos behind, ih]
      by_cases here : k = moved + 1
      · subst here
        simp [behind]
      · have previous : index < k ∧ k ≤ moved → k - 1 ≠ moved + 1 := by omega
        by_cases inside : index < k ∧ k ≤ moved
        · rw [if_pos inside, if_pos (by omega), Function.update_of_ne (previous inside)]
        · rw [if_neg inside, if_neg (by omega), Function.update_of_ne here]
    · rw [if_neg behind, if_neg (by omega)]

/-- Writing one counted slot replaces its bytes. -/
theorem covers_update (s : Scratch) {i : Nat} (counted : i < s.numUnavailable) (r : Region) (x : Nat) :
    ({ s with slots := Function.update s.slots i r } : Scratch).Covers x ↔
      r.Has x ∨ ∃ j < s.numUnavailable, j ≠ i ∧ (s.slots j).Has x := by
  constructor
  · rintro ⟨j, inside, has⟩
    by_cases same : j = i
    · subst same
      simp only [Function.update_self] at has
      exact .inl has
    · simp only [Function.update_of_ne same] at has
      exact .inr ⟨j, inside, same, has⟩
  · rintro (has | ⟨j, inside, other, has⟩)
    · exact ⟨i, counted, by simpa using has⟩
    · exact ⟨j, inside, by simpa [Function.update_of_ne other] using has⟩

/-- Inserting a region keeps the others and adds its bytes. -/
theorem covers_insert (s : Scratch) {i : Nat} (counted : i < s.numUnavailable) (r : Region) (x : Nat) :
    ({ s with
        slots := Function.update (moveBack i s.numUnavailable s.slots) i r
        numUnavailable := s.numUnavailable + 1 } : Scratch).Covers x ↔ s.Covers x ∨ r.Has x := by
  constructor
  · rintro ⟨j, inside, has⟩
    by_cases same : j = i
    · subst same
      simp only [Function.update_self] at has
      exact .inr has
    · simp only [Function.update_of_ne same, moveBack_apply] at has
      simp only at inside
      split at has
      · exact .inl ⟨j - 1, by omega, has⟩
      · exact .inl ⟨j, by omega, has⟩
  · rintro (⟨j, inside, has⟩ | has)
    · by_cases before : j < i
      · refine ⟨j, Nat.lt_succ_of_lt inside, ?_⟩
        simp only [Function.update_of_ne (Nat.ne_of_lt before), moveBack_apply]
        rwa [if_neg (by omega)]
      · refine ⟨j + 1, Nat.succ_lt_succ inside, ?_⟩
        simp only [Function.update_of_ne (show j + 1 ≠ i by omega), moveBack_apply]
        rwa [if_pos (by omega)]
    · exact ⟨i, Nat.lt_succ_of_lt counted, by simpa using has⟩

/-- Writing behind the last counted slot and counting it adds its bytes. -/
theorem covers_push (s : Scratch) (level : s.newMemory = s.numUnavailable) (r : Region) (x : Nat) :
    ({ s with
        slots := Function.update s.slots s.newMemory r
        numUnavailable := s.numUnavailable + 1 } : Scratch).Covers x ↔ s.Covers x ∨ r.Has x := by
  show (∃ i < s.numUnavailable + 1, (Function.update s.slots s.newMemory r i).Has x) ↔ _
  rw [level]
  constructor
  · rintro ⟨j, inside, has⟩
    by_cases same : j = s.numUnavailable
    · subst same
      rw [Function.update_self] at has
      exact .inr has
    · rw [Function.update_of_ne same] at has
      exact .inl ⟨j, by omega, has⟩
  · rintro (⟨j, inside, has⟩ | has)
    · refine ⟨j, Nat.lt_succ_of_lt inside, ?_⟩
      rwa [Function.update_of_ne (Nat.ne_of_lt inside)]
    · exact ⟨s.numUnavailable, Nat.lt_succ_self _, by rwa [Function.update_self]⟩

/-! ## One entry -/

/-- The entry starts before the last written slot ends. -/
def Scratch.OutOfOrder (s : Scratch) (e : MmapEntry) : Prop :=
  0 < s.newMemory ∧ e.addr < (s.slots (s.newMemory - 1)).range.stop

instance (s : Scratch) (e : MmapEntry) : Decidable (s.OutOfOrder e) :=
  inferInstanceAs (Decidable (_ ∧ _))

/-- A merge that neither cuts a number nor loses the end of the region. -/
def SafeMerge (e : MmapEntry) (r : Region) : Prop :=
  r.addr + r.len < wordLimit ∧ e.addr + e.len < wordLimit ∧
    (r.addr ≤ e.addr ∨ r.addr + r.len ≤ e.addr + e.len)

instance (e : MmapEntry) (r : Region) : Decidable (SafeMerge e r) :=
  inferInstanceAs (Decidable (_ ∧ _ ∧ _))

/-- An entry that is out of order is merged safely, is inserted whole or has no bytes to lose. -/
def Scratch.SafeOutOfOrder (s : Scratch) (e : MmapEntry) : Prop :=
  match s.firstSlot (mergeable e) with
  | some i => SafeMerge e (s.slots i)
  | none =>
    match s.firstSlot (fun r => decide (r.addr < e.addr)) with
    | some _ => e.len < wordLimit ∨ wordLimit ≤ e.addr + wrap e.len
    | none => e.len = 0

instance (s : Scratch) (e : MmapEntry) : Decidable (s.SafeOutOfOrder e) :=
  match merges : s.firstSlot (mergeable e) with
  | some i => decidable_of_iff (SafeMerge e (s.slots i)) (by simp [Scratch.SafeOutOfOrder, merges])
  | none =>
    match before : s.firstSlot (fun r => decide (r.addr < e.addr)) with
    | some _ => decidable_of_iff (e.len < wordLimit ∨ wordLimit ≤ e.addr + wrap e.len)
        (by simp [Scratch.SafeOutOfOrder, merges, before])
    | none => decidable_of_iff (e.len = 0) (by simp [Scratch.SafeOutOfOrder, merges, before])

/-- An entry that is appended lands in the slot that is counted, with its length. -/
def Scratch.SafeAppend (s : Scratch) (e : MmapEntry) : Prop :=
  e.addr < wordLimit → s.newMemory = s.numUnavailable ∧ ¬ (e.addr = 0 ∧ wordLimit ≤ e.len)

instance (s : Scratch) (e : MmapEntry) : Decidable (s.SafeAppend e) :=
  inferInstanceAs (Decidable (_ → _ ∧ ¬ (_ ∧ _)))

/-- The array takes the whole of an unavailable entry below 4 GiB, whichever branch is taken. -/
def SafeEntry (s : Scratch) (e : MmapEntry) : Prop :=
  if s.OutOfOrder e then s.SafeOutOfOrder e else s.SafeAppend e

instance (s : Scratch) (e : MmapEntry) : Decidable (SafeEntry s e) :=
  inferInstanceAs (Decidable (ite _ _ _))

/-- A safe merge has exactly the bytes of the two. -/
theorem merge_has {e : MmapEntry} {r : Region} (merges : mergeable e r) (safe : SafeMerge e r)
    (x : Nat) : (merge e r).Has x ↔ r.Has x ∨ e.Has x := by
  obtain ⟨rFits, eFits, ends⟩ := safe
  have stop : e.stop = e.addr + e.len := by
    unfold MmapEntry.stop add64
    apply Nat.mod_eq_of_lt
    unfold doubleLimit
    unfold wordLimit at eFits
    omega
  simp only [mergeable, Region.range, wrap_of_lt rFits, stop, Bool.and_eq_true,
    decide_eq_true_eq] at merges
  have low : wrap e.addr = e.addr := wrap_of_lt (by omega)
  have second : wrap (min e.addr r.addr + r.len) = min e.addr r.addr + r.len :=
    wrap_of_lt (by omega)
  have upper : max (e.addr + e.len) (min e.addr r.addr + r.len) < wordLimit := by omega
  simp only [merge, stop, low, wrap_of_lt eFits, second, Region.Has, MmapEntry.Has]
  rw [wrapSub_of_le (by omega) upper]
  omega

/-- An inserted entry has its bytes below 4 GiB. -/
theorem insert_has {e : MmapEntry} (low : e.addr < wordLimit)
    (safe : e.len < wordLimit ∨ wordLimit ≤ e.addr + wrap e.len) {x : Nat} (word : x < wordLimit) :
    (⟨wrap e.addr, wrap e.len⟩ : Region).Has x ↔ e.Has x := by
  have cut : wrap e.len ≤ e.len := Nat.mod_le _ _
  simp only [Region.Has, MmapEntry.Has, wrap_of_lt low]
  rcases safe with short | long
  · rw [wrap_of_lt short]
  · omega

/-- An appended entry has its bytes below 4 GiB. -/
theorem append_has {e : MmapEntry} (low : e.addr < wordLimit)
    (safe : ¬ (e.addr = 0 ∧ wordLimit ≤ e.len)) {x : Nat} (word : x < wordLimit) :
    (⟨wrap e.addr, wrap (min e.len (wordLimit - e.addr))⟩ : Region).Has x ↔ e.Has x := by
  have fits : min e.len (wordLimit - e.addr) < wordLimit := by omega
  simp only [Region.Has, MmapEntry.Has, wrap_of_lt low, wrap_of_lt fits]
  omega

/-- Only the counter changes with the end of the loop body. -/
theorem addUnavailable_covers_iff (s : Scratch) {e : MmapEntry} (reserved : e.available = false)
    (x : Nat) :
    (s.addUnavailable e).Covers x ↔
      (if s.OutOfOrder e then s.addOutOfOrder e else s.append e).Covers x := by
  unfold Scratch.addUnavailable
  rw [if_neg (by simp [reserved])]
  exact Iff.rfl

/-- A safe entry adds its bytes below 4 GiB and keeps the others. -/
theorem addUnavailable_covers {s : Scratch} {e : MmapEntry} (reserved : e.available = false)
    (safe : SafeEntry s e) {x : Nat} (word : x < wordLimit) :
    (s.addUnavailable e).Covers x ↔ s.Covers x ∨ e.Has x := by
  rw [addUnavailable_covers_iff s reserved]
  unfold SafeEntry at safe
  by_cases order : s.OutOfOrder e
  · have low : e.addr < wordLimit := Nat.lt_trans order.2 (wrap_lt _)
    rw [if_pos order] at safe ⊢
    unfold Scratch.SafeOutOfOrder at safe
    unfold Scratch.addOutOfOrder
    cases merges : s.firstSlot (mergeable e) with
    | some i =>
      rw [merges] at safe
      obtain ⟨counted, holds⟩ := firstSlot_some merges
      rw [covers_update s counted, merge_has holds safe]
      constructor
      · rintro ((has | has) | ⟨j, inside, -, has⟩)
        · exact .inl ⟨i, counted, has⟩
        · exact .inr has
        · exact .inl ⟨j, inside, has⟩
      · rintro (⟨j, inside, has⟩ | has)
        · by_cases same : j = i
          · exact .inl (.inl (same ▸ has))
          · exact .inr ⟨j, inside, same, has⟩
        · exact .inl (.inr has)
    | none =>
      simp only [merges] at safe ⊢
      cases before : s.firstSlot (fun r => decide (r.addr < e.addr)) with
      | some i =>
        rw [before] at safe
        rw [covers_insert s (firstSlot_some before).1, insert_has low safe word]
      | none =>
        rw [before] at safe
        have empty : ¬ e.Has x := by
          unfold MmapEntry.Has
          simp only at safe
          omega
        simp [empty]
  · rw [if_neg order] at safe ⊢
    unfold Scratch.append
    by_cases low : e.addr < wordLimit
    · obtain ⟨level, small⟩ := safe low
      rw [if_pos low, covers_push s level, append_has low small word]
    · have outside : ¬ e.Has x := by
        unfold MmapEntry.Has
        omega
      simp [if_neg low, outside]

/-! ## The first pass -/

/-- Every unavailable entry is safe when its turn comes. -/
def SafeMap : Scratch → List MmapEntry → Prop
  | _, [] => True
  | s, e :: rest => (e.available = false → SafeEntry s e) ∧ SafeMap (s.addUnavailable e) rest

instance decidableSafeMap : (s : Scratch) → (entries : List MmapEntry) → Decidable (SafeMap s entries)
  | _, [] => .isTrue trivial
  | s, e :: rest =>
    have := decidableSafeMap (s.addUnavailable e) rest
    inferInstanceAs (Decidable ((_ → _) ∧ _))

/-- The byte lies in an unavailable entry. -/
def Withheld (entries : List MmapEntry) (x : Nat) : Prop :=
  ∃ e ∈ entries, e.available = false ∧ e.Has x

/-- A safe pass counts exactly the regions before it and the unavailable entries. -/
theorem foldl_addUnavailable_covers {s : Scratch} {entries : List MmapEntry} (safe : SafeMap s entries)
    {x : Nat} (word : x < wordLimit) :
    (entries.foldl Scratch.addUnavailable s).Covers x ↔ s.Covers x ∨ Withheld entries x := by
  induction entries generalizing s with
  | nil => simp [Withheld]
  | cons e rest ih =>
    obtain ⟨first, later⟩ := safe
    rw [List.foldl_cons, ih later]
    cases kind : e.available with
    | true =>
      have skipped : s.addUnavailable e = s := if_pos kind
      simp [skipped, Withheld, kind]
    | false =>
      rw [addUnavailable_covers kind (first kind) word]
      simp only [Withheld, List.mem_cons, exists_eq_or_imp, kind, true_and]
      tauto

/-! ## The second pass -/

/-- The write position is never among the counted slots. -/
def Scratch.Ordered (s : Scratch) : Prop := s.numUnavailable ≤ s.newMemory

/-- An entry moves the write position at least as far as the count. -/
theorem Scratch.Ordered.addUnavailable {s : Scratch} (ordered : s.Ordered) (e : MmapEntry) :
    (s.addUnavailable e).Ordered := by
  unfold Scratch.Ordered at *
  unfold Scratch.addUnavailable Scratch.addOutOfOrder Scratch.append
  split
  · exact ordered
  · simp only
    split_ifs
    · split
      · exact Nat.le_succ_of_le ordered
      · split
        · exact Nat.succ_le_succ ordered
        · exact Nat.le_succ_of_le ordered
    · exact Nat.succ_le_succ ordered
    · exact Nat.le_succ_of_le ordered

/-- The first pass ends with the write position behind the counted slots. -/
theorem Scratch.Ordered.foldl {s : Scratch} (ordered : s.Ordered) (entries : List MmapEntry) :
    (entries.foldl Scratch.addUnavailable s).Ordered := by
  induction entries generalizing s with
  | nil => exact ordered
  | cons e rest ih => exact ih (ordered.addUnavailable e)

/-- The second pass copies the entry. -/
def copied (unavailable : List Region) (e : MmapEntry) : Bool :=
  e.available && !shouldDrop unavailable e

/-- The copy: both numbers are cut to a word. -/
def MmapEntry.copy (e : MmapEntry) : Region := ⟨wrap e.addr, wrap e.len⟩

/-- A copy is written behind the counted slots. -/
theorem addAvailable_regions {s : Scratch} (ordered : s.Ordered) (e : MmapEntry) :
    (s.addAvailable e).regions = s.regions ∧ (s.addAvailable e).Ordered := by
  unfold Scratch.addAvailable
  split
  · refine ⟨?_, Nat.le_succ_of_le ordered⟩
    apply List.map_congr_left
    intro i member
    have counted := List.mem_range.mp member
    exact Function.update_of_ne (Nat.ne_of_lt (Nat.lt_of_lt_of_le counted ordered)) _ _
  · exact ⟨rfl, ordered⟩

/-- The second pass keeps what is before the write position and writes the copies there. -/
theorem foldl_addAvailable {s : Scratch} (ordered : s.Ordered) (entries : List MmapEntry) :
    let t := entries.foldl Scratch.addAvailable s
    let copies := (entries.filter (copied s.regions)).map MmapEntry.copy
    t.regions = s.regions ∧ (∀ k < s.newMemory, t.slots k = s.slots k) ∧
      t.newMemory = s.newMemory + copies.length ∧
      (List.range copies.length).map (fun i => t.slots (s.newMemory + i)) = copies := by
  induction entries generalizing s with
  | nil => exact ⟨rfl, fun _ _ => rfl, rfl, rfl⟩
  | cons e rest ih =>
    obtain ⟨same, orderedNext⟩ := addAvailable_regions ordered e
    have tail := ih orderedNext
    rw [same] at tail
    obtain ⟨regions, before, next, written⟩ := tail
    simp only [List.foldl_cons]
    cases takes : copied s.regions e with
    | false =>
      have skipped : s.addAvailable e = s := if_neg (by simpa [copied] using takes)
      rw [skipped] at regions before next written ⊢
      rw [List.filter_cons_of_neg (by simp [takes])]
      exact ⟨regions, before, next, written⟩
    | true =>
      have pushed : s.addAvailable e =
          { s with slots := Function.update s.slots s.newMemory e.copy,
                   newMemory := s.newMemory + 1 } := if_pos (by simpa [copied] using takes)
      have slots : (s.addAvailable e).slots = Function.update s.slots s.newMemory e.copy := by
        rw [pushed]
      have position : (s.addAvailable e).newMemory = s.newMemory + 1 := by rw [pushed]
      rw [slots, position] at before
      rw [position] at next written
      rw [List.filter_cons_of_pos takes, List.map_cons, List.length_cons]
      refine ⟨regions, ?_, ?_, ?_⟩
      · intro k earlier
        rw [before k (Nat.lt_succ_of_lt earlier), Function.update_of_ne (Nat.ne_of_lt earlier)]
      · omega
      · rw [List.range_succ_eq_map, List.map_cons, List.map_map, Nat.add_zero,
          before s.newMemory (Nat.lt_succ_self _), Function.update_self]
        congr 1
        refine Eq.trans (List.map_congr_left fun i _ => ?_) written
        have shift : s.newMemory + (i + 1) = s.newMemory + 1 + i := by omega
        rw [← shift]
        rfl

/-! ## The lists -/

variable {info : BootInfo} {foundSpace : Nat} {regions : Regions}

/-- A bootstrap that gets to its last call has filled the array. -/
theorem bootstrap_regions (done : bootstrapPhysMemManager info = .ok (foundSpace, regions)) :
    regions = info.fillRegions foundSpace := by
  unfold bootstrapPhysMemManager at done
  cases flag : info.hasMemMap with
  | false => simp [flag, assert] at done
  | true =>
    cases mapped : info.mbmp with
    | none => simp [flag, mapped] at done
    | some mbmp =>
      simp only [flag, mapped, assert_true, ok_bind] at done
      split_ifs at done
      obtain ⟨rfl, rfl⟩ := Prod.mk.inj (Except.ok.inj done)
      rfl

/-- A bootstrap that finds and maps a place away from the map fills the array there. -/
theorem bootstrap_ok {mbmp : Nat} (flag : info.hasMemMap = true) (mapped : info.mbmp = some mbmp)
    (found : info.foundSpace mbmp = foundSpace) (fresh : foundSpace ≠ info.startVariable)
    (array : info.arrayMapped = true)
    (apart : meets foundSpace info.sortedLength info.mmapAddr info.mbmpLen = false) :
    bootstrapPhysMemManager info = .ok (foundSpace, info.fillRegions foundSpace) := by
  simp [bootstrapPhysMemManager, flag, mapped, found, fresh, array, apart]

/-- The array starts in order. -/
theorem scratch_ordered (info : BootInfo) (foundSpace : Nat) : (info.scratch foundSpace).Ordered :=
  Nat.le_refl 3

/-- The unavailable list is what the first pass counts. -/
theorem fillRegions_unavailable (info : BootInfo) (foundSpace : Nat) :
    (info.fillRegions foundSpace).unavailable =
      (info.entries.foldl Scratch.addUnavailable (info.scratch foundSpace)).regions := by
  unfold BootInfo.fillRegions
  rw [visited_eq]
  exact (foldl_addAvailable ((scratch_ordered info foundSpace).foldl info.entries) info.entries).1

/-- The available list holds the copies of the available entries that are not dropped. -/
theorem fillRegions_available (info : BootInfo) (foundSpace : Nat) :
    (info.fillRegions foundSpace).available =
      (info.entries.filter (copied (info.fillRegions foundSpace).unavailable)).map
        MmapEntry.copy := by
  rw [fillRegions_unavailable]
  unfold BootInfo.fillRegions
  rw [visited_eq]
  obtain ⟨-, -, next, written⟩ :=
    foldl_addAvailable ((scratch_ordered info foundSpace).foldl info.entries) info.entries
  simp only [next, Nat.add_sub_cancel_left]
  exact written

/-! ## What is reserved -/

/-- The byte lies in the kernel image. -/
def BootInfo.InKernel (info : BootInfo) (x : Nat) : Prop :=
  info.physKernelStart ≤ x ∧ x < info.physKernelEnd

/-- The byte lies in the array. -/
def BootInfo.InArray (info : BootInfo) (foundSpace x : Nat) : Prop :=
  foundSpace ≤ x ∧ x < foundSpace + info.sortedLength

/-- The byte lies in the hole below 1 MiB. -/
def InHole (x : Nat) : Prop := 0xA0000 ≤ x ∧ x ≤ 0xFFFFF

/-- The byte lies between the variables that hold the bounds of the kernel. -/
def BootInfo.InVariables (info : BootInfo) (x : Nat) : Prop :=
  info.startVariable ≤ x ∧
    x < info.startVariable + wrapSub info.endVariable info.startVariable

/-- Every byte below 4 GiB that must not be given out is in the list. -/
def BootInfo.Reserves (info : BootInfo) (foundSpace : Nat) (unavailable : List Region) : Prop :=
  ∀ x < wordLimit,
    Withheld info.entries x ∨ info.InKernel x ∨ info.InArray foundSpace x ∨ InHole x →
      ∃ r ∈ unavailable, r.Has x

/-- The three regions before the first pass. -/
theorem scratch_covers (info : BootInfo) (foundSpace x : Nat) :
    (info.scratch foundSpace).Covers x ↔
      info.InArray foundSpace x ∨ info.InVariables x ∨ InHole x := by
  have hole : (⟨0xA0000, 0x60000⟩ : Region).Has x ↔ InHole x := by
    show 0xA0000 ≤ x ∧ x < 0xA0000 + 0x60000 ↔ 0xA0000 ≤ x ∧ x ≤ 0xFFFFF
    omega
  constructor
  · rintro ⟨i, small, has⟩
    match i, small, has with
    | 0, _, has => exact .inl has
    | 1, _, has => exact .inr (.inl has)
    | 2, _, has => exact .inr (.inr (hole.mp has))
    | i + 3, small, _ => exact absurd small (Nat.not_lt_of_le (Nat.le_add_left 3 i))
  · rintro (has | has | has)
    · exact ⟨0, show 0 < 3 by decide, has⟩
    · exact ⟨1, show 1 < 3 by decide, has⟩
    · exact ⟨2, show 2 < 3 by decide, hole.mpr has⟩

/-- A machine whose kernel is linked at 0xF0000000 and loaded at 1 MiB, with a memory map at
0x9000 that is mapped at the first free page. -/
def BootInfo.pc (entries : List MmapEntry) : BootInfo where
  hasMemMap := true
  mmapAddr := 0x9000
  entries
  physKernelStart := 0x102000
  physKernelEnd := 0x160000
  startVariable := 0xF0150000
  endVariable := 0xF0150004
  mbmp := some 0x1000
  arrayMapped := true
  garbage _ := ⟨0, 0⟩

/-- Every available region lies in one available entry. -/
def BootInfo.InventsNothing (info : BootInfo) (available : List Region) : Prop :=
  ∀ r ∈ available, ∃ e ∈ info.entries, e.available = true ∧ ∀ x, r.Has x → e.Has x

/-- The copy of an entry that starts below 4 GiB lies in the entry. -/
theorem copy_inside {e : MmapEntry} (low : e.addr < wordLimit) {x : Nat} (has : e.copy.Has x) :
    e.Has x := by
  have cut : wrap e.len ≤ e.len := Nat.mod_le _ _
  simp only [MmapEntry.copy, Region.Has, wrap_of_lt low] at has
  unfold MmapEntry.Has
  omega

end FelineOS.Bootstrap
