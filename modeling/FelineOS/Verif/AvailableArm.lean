import FelineOS.Verif.BootstrapArm
import Mathlib.Data.List.Basic

/-!
# The available memory of the ARM bootstrap

The bootstrap takes the first two words of every property `reg` of every node whose name starts
with `memory`. The tree says something else: the nodes are those called `memory` or `memory@` with
an address, and a value holds pairs of an address and a size, of as many words as the parent of the
node gives. `taken` and `memoryRanges` are what one property adds on the two sides. They agree for
one word each and one pair, and, as long as the ranges are not empty and lie below four gigabytes,
otherwise only for an address of no words and a size of two whose upper word is zero.
-/

namespace FelineOS.BootstrapArm

open Boot (Region)
open Bootstrap (Regions)
open DeviceTree
open Library.FlatTree

variable {info : BootInfo} {blob : Blob} {tree : DeviceTree} {fuel header : Nat} {array : Region}
  {regions : Regions} {o : Occurrence}

/-! ## What a property adds -/

/-- What the bootstrap takes from a property. -/
def taken (blob : Blob) (o : Occurrence) : List Region :=
  if (ascii "memory").isPrefixOf o.owner ∧ o.property.name = ascii "reg" then
    [⟨propValue blob.mem o.entry 0, propValue blob.mem o.entry 1⟩]
  else []

/-- The name of a memory node: `memory`, or `memory@` and an address. -/
def isMemoryNode (name : List UInt8) : Bool :=
  name == ascii "memory" || (ascii "memory@").isPrefixOf name

/-- The available ranges below four gigabytes that a property gives. -/
def memoryRanges (o : Occurrence) : List Region :=
  if isMemoryNode o.owner ∧ o.property.name = ascii "reg" then
    ((o.cells.pairs o.property.value).filter fun p => p.1 + p.2 ≤ wordLimit).map
      fun p => ⟨p.1, p.2⟩
  else []

/-- A call of the callback that fills the available list. -/
theorem addAvailable_eq (encodes : blob.Encodes tree) (occurs : o ∈ tree.occurrences blob.structs)
    (cells : CellSize) (list : List Region) :
    addAvailableMemoryRegion blob o.entry cells list =
      .ok (if o.property.name = ascii "reg" then
        list ++ [⟨propValue blob.mem o.entry 0, propValue blob.mem o.entry 1⟩] else list) := by
  have named : isReg blob o.entry = decide (o.property.name = ascii "reg") := by
    unfold isReg
    exact decide_eq_decide.mpr (encodes.strcmp_propName occurs (by decide) (by decide))
  unfold addAvailableMemoryRegion
  simp only [named, decide_eq_true_eq]

/-- The walk that fills the available list takes from each property what it adds. -/
theorem callEach_addAvailable (encodes : blob.Encodes tree) {occurrences : List Occurrence}
    (occur : ∀ o ∈ occurrences, o ∈ tree.occurrences blob.structs) (list : List Region) :
    callEach (addAvailableMemoryRegion blob) (visited (ascii "memory") occurrences) list =
      .ok (list ++ occurrences.flatMap (taken blob)) := by
  induction occurrences generalizing list with
  | nil => simp [callEach, visited, pure, Except.pure]
  | cons o occurrences ih =>
    obtain ⟨here, others⟩ := List.forall_mem_cons.mp occur
    rw [visited_cons, List.flatMap_cons]
    by_cases matching : (ascii "memory").isPrefixOf o.owner
    · rw [if_pos matching, callEach_cons, addAvailable_eq encodes here, ok_bind, ih others]
      unfold taken
      by_cases reg : o.property.name = ascii "reg"
      · rw [if_pos reg, if_pos ⟨matching, reg⟩, List.append_assoc]
      · rw [if_neg reg, if_neg fun both => reg both.2, List.nil_append]
    · rw [if_neg matching, ih others]
      unfold taken
      rw [if_neg fun both => matching both.1, List.nil_append]

/-- The available list, property by property. -/
theorem available_eq (returned : bootstrapPhysMemManager info fuel = .ok (array, regions))
    (mapped : info.devicetreeHeader = some header)
    (encodes : (blobAt info.mem header).Encodes tree) (enough : tree.top.steps ≤ fuel) :
    regions.available = (tree.occurrences (blobAt info.mem header).structs).flatMap
      (taken (blobAt info.mem header)) := by
  obtain ⟨found, reserved, same, -, -, walked⟩ := bootstrapPhysMemManager_ok returned
  rw [mapped] at same
  cases same
  rw [encodes.forEachPropInNode_eq (by decide) enough,
    callEach_addAvailable encodes fun _ occurs => occurs] at walked
  exact (Except.ok.inj walked).symm

/-! ## One property -/

/-- A property that is taken for what it is: of a memory node, with one pair of one word each, or
with a size of two words alone whose upper word is zero. -/
def Straight (o : Occurrence) : Prop :=
  ascii "memory" <+: o.owner → o.property.name = ascii "reg" →
    isMemoryNode o.owner ∧ o.property.value.length / 8 = 1 ∧
      (o.cells = ⟨1, 1⟩ ∧
          numberBE (o.property.value.take 4) + numberBE ((o.property.value.drop 4).take 4) ≤
            wordLimit ∨
        o.cells = ⟨0, 2⟩ ∧ numberBE (o.property.value.take 4) = 0)

/-- The ranges of a property are not empty and lie below four gigabytes. -/
def Usual (o : Occurrence) : Prop :=
  ∀ p ∈ o.cells.pairs o.property.value, 0 < p.2 ∧ p.1 + p.2 ≤ wordLimit

/-- The name of a memory node starts with `memory`. -/
theorem memory_isPrefix {name : List UInt8} (memory : isMemoryNode name) :
    ascii "memory" <+: name := by
  unfold isMemoryNode at memory
  rcases Bool.or_eq_true_iff.mp memory with same | starts
  · exact eq_of_beq same ▸ List.prefix_refl _
  · exact List.IsPrefix.trans (by decide) (List.isPrefixOf_iff_prefix.mp starts)

/-- One pair of the first two words. -/
theorem pairs_one {value : List UInt8} (one : value.length / 8 = 1) :
    Cells.pairs ⟨1, 1⟩ value = [(numberBE (value.take 4), numberBE ((value.drop 4).take 4))] := by
  simp [Cells.pairs, one]

/-- One size of the first two words. -/
theorem pairs_size {value : List UInt8} (one : value.length / 8 = 1) :
    Cells.pairs ⟨0, 2⟩ value = [(0, numberBE (value.take 8))] := by
  simp [Cells.pairs, one, numberBE]

/-- The number of the first two words. -/
theorem numberBE_two {value : List UInt8} (long : 8 ≤ value.length) :
    numberBE (value.take 8) =
      numberBE (value.take 4) * 256 ^ 4 + numberBE ((value.drop 4).take 4) :=
  numberBE_take_add (m := 4) (n := 4) long

/-- The first two words are the only pair, not an empty one, only for the cell sizes of a straight
property. -/
theorem cells_of_pairs {value : List UInt8} {c : Cells} {first second : Nat}
    (pairs : c.pairs value = [(first, second)]) (nonempty : 0 < second)
    (firstWord : 4 ≤ value.length → first = numberBE (value.take 4))
    (secondWord : 8 ≤ value.length → second = numberBE ((value.drop 4).take 4)) :
    value.length / 8 = 1 ∧ (c = ⟨1, 1⟩ ∨ c = ⟨0, 2⟩ ∧ numberBE (value.take 4) = 0) := by
  obtain ⟨address, size⟩ := c
  have one : value.length / (4 * (address + size)) = 1 := by
    have count := congrArg List.length pairs
    simpa [Cells.pairs] using count
  unfold Cells.pairs at pairs
  simp only [one, List.range_one, List.map_cons, List.map_nil, Nat.zero_mul, List.drop_zero,
    List.cons.injEq, and_true, Prod.mk.injEq] at pairs
  obtain ⟨isFirst, isSecond⟩ := pairs
  have room : 4 * (address + size) ≤ value.length := by
    have divided := Nat.div_mul_le_self value.length (4 * (address + size))
    rw [one] at divided
    omega
  have nothing : numberBE [] = 0 := rfl
  match address, size with
  | 0, 0 => simp at one
  | 0, 1 =>
    -- The size is the first word, which is zero like the address.
    have zero : first = 0 := isFirst.symm.trans nothing
    have word := firstWord (by omega)
    have size : numberBE (value.take 4) = second := isSecond
    omega
  | 0, 2 =>
    have zero : first = 0 := isFirst.symm.trans nothing
    exact ⟨one, .inr ⟨rfl, (firstWord (by omega)).symm.trans zero⟩⟩
  | 0, k + 3 =>
    -- The size would be the second word, with zeros before and behind it.
    have zero : first = 0 := isFirst.symm.trans nothing
    have word := firstWord (by omega)
    have size : numberBE (value.take (8 + 4 * (k + 1))) = second := by
      rw [← isSecond]
      congr 2
      omega
    have two := numberBE_two (show 8 ≤ value.length by omega)
    rw [← word, zero, ← secondWord (by omega), Nat.zero_mul, Nat.zero_add] at two
    have grown := numberBE_take_grow (show 8 + 4 * (k + 1) ≤ value.length by omega) (by omega)
      (size.trans two.symm)
    omega
  | 1, 0 =>
    have zero : second = 0 := isSecond.symm.trans nothing
    omega
  | 1, 1 => exact ⟨one, .inl rfl⟩
  | 1, k + 2 =>
    have rest : 4 + 4 * (k + 1) ≤ (value.drop 4).length := by
      rw [List.length_drop]
      omega
    have size : numberBE ((value.drop 4).take (4 + 4 * (k + 1))) = second := by
      rw [← isSecond]
      congr 2
      omega
    have word := secondWord (by omega)
    have grown := numberBE_take_grow rest (by omega) (size.trans word)
    omega
  | k + 2, size =>
    have rest : 4 + 4 * k ≤ (value.drop 4).length := by
      rw [List.length_drop]
      omega
    have start : numberBE (value.take (4 + (4 + 4 * k))) = first := by
      rw [← isFirst]
      congr 2
      omega
    have word := firstWord (by omega)
    have grown := (numberBE_take_grow (show 4 + (4 + 4 * k) ≤ value.length by omega) (by omega)
      (start.trans word)).2
    rw [numberBE_take_add rest, ← secondWord (by omega)] at grown
    have positive : 0 < second * 256 ^ (4 * k) := Nat.mul_pos nonempty (Nat.pow_pos (by decide))
    omega

/-- A straight property is taken for what it is. -/
theorem Straight.taken_eq (encodes : blob.Encodes tree)
    (occurs : o ∈ tree.occurrences blob.structs) (straight : Straight o) :
    taken blob o = memoryRanges o := by
  unfold taken memoryRanges
  by_cases reg : (ascii "memory").isPrefixOf o.owner ∧ o.property.name = ascii "reg"
  · obtain ⟨memory, one, cells⟩ := straight (List.isPrefixOf_iff_prefix.mp reg.1) reg.2
    have long : 8 ≤ o.property.value.length := by omega
    rw [if_pos reg, if_pos ⟨memory, reg.2⟩, encodes.propValue_eq occurs (k := 0) (by omega),
      encodes.propValue_eq occurs (k := 1) (by omega)]
    rcases cells with ⟨cells, low⟩ | ⟨cells, zero⟩
    · rw [cells, pairs_one one]
      simp [low]
    · have word : numberBE ((o.property.value.drop 4).take 4) ≤ wordLimit := by
        have small := numberBE_lt ((o.property.value.drop 4).take 4)
        have width : ((o.property.value.drop 4).take 4).length = 4 := by
          rw [List.length_take, List.length_drop]
          omega
        rw [width] at small
        exact Nat.le_of_lt small
      rw [cells, pairs_size one, numberBE_two long, zero]
      simp [word, zero]
  · rw [if_neg reg, if_neg]
    intro both
    exact reg ⟨List.isPrefixOf_iff_prefix.mpr (memory_isPrefix both.1), both.2⟩

/-- Where the ranges are usual, only a straight property is taken for what it is. -/
theorem Usual.straight (encodes : blob.Encodes tree) (occurs : o ∈ tree.occurrences blob.structs)
    (usual : Usual o) (same : taken blob o = memoryRanges o) : Straight o := by
  intro starts reg
  unfold taken memoryRanges at same
  rw [if_pos ⟨List.isPrefixOf_iff_prefix.mpr starts, reg⟩] at same
  by_cases memory : isMemoryNode o.owner
  · rw [if_pos ⟨memory, reg⟩, List.filter_eq_self.mpr fun p inside => by
      simpa using (usual p inside).2] at same
    obtain ⟨p, pairs, pair⟩ := List.map_eq_singleton_iff.mp same.symm
    obtain ⟨address, size⟩ := Region.mk.inj pair
    obtain ⟨nonempty, low⟩ := usual p (by simp [pairs])
    have firstWord (long : 4 ≤ o.property.value.length) := encodes.propValue_eq occurs (k := 0) long
    have secondWord (long : 8 ≤ o.property.value.length) :=
      encodes.propValue_eq occurs (k := 1) long
    rw [← address] at firstWord
    rw [← size] at secondWord
    obtain ⟨one, cells⟩ := cells_of_pairs pairs nonempty firstWord secondWord
    have word := firstWord (by omega)
    have next := secondWord (by omega)
    simp only [Nat.mul_zero, List.drop_zero, Nat.mul_one] at word next
    rw [word, next] at low
    exact ⟨memory, one, cells.imp_left fun cells => ⟨cells, low⟩⟩
  · rw [if_neg fun both => memory both.1] at same
    cases same

/-! ## The whole list -/

/-- Where all properties but one add the same on both sides, the lists agree exactly when that one
does too. -/
theorem flatMap_eq_iff {α β : Type} {f g : α → List β} {before behind : List α} {x : α}
    (others : ∀ y ∈ before ++ behind, f y = g y) :
    (before ++ x :: behind).flatMap f = (before ++ x :: behind).flatMap g ↔ f x = g x := by
  have front : before.flatMap f = before.flatMap g :=
    List.flatMap_congr fun y inside => others y (List.mem_append_left _ inside)
  have back : behind.flatMap f = behind.flatMap g :=
    List.flatMap_congr fun y inside => others y (List.mem_append_right _ inside)
  rw [List.flatMap_append, List.flatMap_append, List.flatMap_cons, List.flatMap_cons, front, back,
    List.append_right_inj, List.append_left_inj]

/-- The available list is what the tree says when every property is straight. With one property
that is not, and usual ranges in it, the list is something else. -/
theorem available_exact (returned : bootstrapPhysMemManager info fuel = .ok (array, regions))
    (mapped : info.devicetreeHeader = some header)
    (encodes : (blobAt info.mem header).Encodes tree) (enough : tree.top.steps ≤ fuel) :
    ((∀ o ∈ tree.occurrences (blobAt info.mem header).structs, Straight o) →
      regions.available =
        (tree.occurrences (blobAt info.mem header).structs).flatMap memoryRanges) ∧
    ∀ before o behind,
      tree.occurrences (blobAt info.mem header).structs = before ++ o :: behind →
      (∀ x ∈ before ++ behind, Straight x) → Usual o →
      (regions.available =
          (tree.occurrences (blobAt info.mem header).structs).flatMap memoryRanges ↔
        Straight o) := by
  rw [available_eq returned mapped encodes enough]
  constructor
  · intro straight
    exact List.flatMap_congr fun o occurs => (straight o occurs).taken_eq encodes occurs
  · intro before o behind parts straight usual
    have here : o ∈ tree.occurrences (blobAt info.mem header).structs := by simp [parts]
    have others : ∀ y ∈ before ++ behind, taken (blobAt info.mem header) y = memoryRanges y := by
      intro y inside
      refine (straight y inside).taken_eq encodes ?_
      rw [parts]
      rcases List.mem_append.mp inside with first | last
      · exact List.mem_append_left _ first
      · exact List.mem_append_right _ (List.mem_cons_of_mem _ last)
    rw [parts, flatMap_eq_iff others]
    exact ⟨usual.straight encodes here, fun straight => straight.taken_eq encodes here⟩

instance (o : Occurrence) : Decidable (Straight o) :=
  inferInstanceAs (Decidable (_ → _ → _))

/-- A board with one word for an address and a size. -/
theorem available_exact_board :
    ∃ array regions, bootstrapPhysMemManager (infoOf 0 [] boardTree) 16 = .ok (array, regions) ∧
      regions.available =
        (boardTree.occurrences (blobAt (infoOf 0 [] boardTree).mem boardHeader).structs).flatMap
          memoryRanges := by
  obtain ⟨⟨array, regions⟩, run⟩ : ∃ result,
      bootstrapPhysMemManager (infoOf 0 [] boardTree) 16 = .ok result :=
    of_toBool (by decide +kernel)
  have encodes : (blobAt (infoOf 0 [] boardTree).mem boardHeader).Encodes boardTree := by
    decide +kernel
  exact ⟨array, regions, run,
    (available_exact run rfl encodes (by decide +kernel)).1 (by decide +kernel)⟩

/-- A tree whose root gives no cell sizes, so that an address has two words. -/
def wideTree : DeviceTree where
  before := 0
  name := []
  body := .node (ascii "memory@0") (.prop (regOf (bytesBE 8 0 ++ bytesBE 4 0x8000000)) .done) .done
  behind := 0

/-- The words of an address are taken for an address and a size. -/
theorem available_wrong : ∃ array regions,
    (blobAt (infoOf 0 [] wideTree).mem boardHeader).Encodes wideTree ∧
      bootstrapPhysMemManager (infoOf 0 [] wideTree) 16 = .ok (array, regions) ∧
      regions.available ≠
        (wideTree.occurrences (blobAt (infoOf 0 [] wideTree).mem boardHeader).structs).flatMap
          memoryRanges := by
  have run : bootstrapPhysMemManager (infoOf 0 [] wideTree) 16 =
      .ok (⟨0, 32⟩, ⟨[⟨0x10000, 0x80000⟩, ⟨0x4000000, 147⟩, ⟨0, 32⟩], [⟨0, 0⟩]⟩) := by
    decide +kernel
  exact ⟨_, _, by decide +kernel, run, by decide +kernel⟩

end FelineOS.BootstrapArm
