import FelineOS.Spec.PhysMem
import Mathlib.Data.List.Range

/-!
# States with one chunk

`start_phys_mem_manager` fills the first headers of the first chunk, links each to the one
before it and leaves the rest of the chunk unused. `Pmm.ofBlocks` is that state for a list of
blocks; it is represented as soon as the blocks are laid out properly and leave one header
unused.
-/

namespace FelineOS.PhysMem

open Library

variable {bs : List Block} {i : Nat}

/-- The header at position `i` of `count` linked ones. -/
def PhysMemHeader.linked (count i : Nat) (b : Block) : PhysMemHeader where
  next := if i + 1 < count then some (i + 1) else none
  prev := if i = 0 then none else some (i - 1)
  memory := b.start
  size := b.size
  inUse := b.used
  canary := canaryBytes
  headerInUse := true

/-- One chunk whose first headers describe the blocks in order. -/
def Pmm.ofBlocks (bs : List Block) : Pmm where
  slots := bs.mapIdx (PhysMemHeader.linked bs.length) ++
    List.replicate (headersPerChunk - bs.length) emptyHeader
  chunkNext := [none]
  firstHeader := if bs.length = 0 then none else some 0
  headersInUse := bs.length
  headersAllocated := headersPerChunk

/-- The headers of the blocks. -/
theorem hdr_ofBlocks (inside : i < bs.length) :
    (Pmm.ofBlocks bs).hdr i = .linked bs.length i bs[i] := by
  simp [Pmm.hdr, Pmm.ofBlocks, List.getElem?_append_left, inside]

/-- The other headers are unused. -/
theorem hdr_ofBlocks_of_le (outside : bs.length ≤ i) :
    (Pmm.ofBlocks bs).hdr i = Pmm.emptyHeader := by
  by_cases slot : i - bs.length < headersPerChunk - bs.length
  · simp [Pmm.hdr, Pmm.ofBlocks, List.getElem?_append_right, outside, slot]
  · simp [Pmm.hdr, Pmm.ofBlocks, List.getElem?_append_right, outside, Nat.le_of_not_lt slot]

/-- Headers linked by position form a chain. -/
theorem chain_range' {next prev : Nat → Option Nat} (total : Nat)
    (forward : ∀ i < total, next i = if i + 1 < total then some (i + 1) else none)
    (back : ∀ i < total, prev i = if i = 0 then none else some (i - 1)) :
    ∀ (count start : Nat), start + count = total →
      Chain next prev (if start = 0 then none else some (start - 1)) (List.range' start count) none
  | 0, _, _ => trivial
  | count + 1, start, sum => by
    have rest := chain_range' total forward back count (start + 1) (by omega)
    refine ⟨back start (by omega), ?_, by simpa using rest⟩
    rw [forward start (by omega), Option.or_none]
    cases count with
    | zero =>
      rw [if_neg (by omega)]
      rfl
    | succ count =>
      rw [if_pos (by omega)]
      rfl

/-- The state has one chunk, whose first `count` headers are in use and linked by position. -/
structure ByPosition (s : Pmm) (count : Nat) : Prop where
  /-- The slots are those of one chunk. -/
  slots : s.slots.length = headersPerChunk
  /-- The chunk has no follower. -/
  chunks : s.chunkNext = [none]
  /-- The counters count them. -/
  counters : s.headersInUse = count ∧ s.headersAllocated = headersPerChunk
  /-- Each header points at the one behind it. -/
  forward : ∀ i < count, s.next i = if i + 1 < count then some (i + 1) else none
  /-- Each header points at the one before it. -/
  back : ∀ i < count, s.prev i = if i = 0 then none else some (i - 1)
  /-- Exactly these headers are in use. -/
  live : ∀ i, (s.hdr i).headerInUse = true ↔ i < count
  /-- The canaries are intact. -/
  canary : ∀ i, (s.hdr i).canary = canaryBytes

/-- Headers in use by position form a chain. -/
theorem ByPosition.links {s : Pmm} {count : Nat} (positions : ByPosition s count) :
    Chain s.next s.prev none (List.range count) none := by
  rw [List.range_eq_range']
  exact chain_range' count positions.forward positions.back count 0 (Nat.zero_add _)

/-- With a header left over the state is linked by position. -/
theorem ByPosition.linked {s : Pmm} {count : Nat} (positions : ByPosition s count)
    (short : count < headersPerChunk)
    (first : s.firstHeader = if count = 0 then none else some 0) : Linked s (List.range count) := by
  have slots := positions.slots
  refine ⟨?_, positions.links, List.nodup_range, ?_, ?_, ?_, ?_, ?_, ?_, ?_, ?_⟩
  · rw [first, List.range_eq_range', List.head?_range']
  · intro i member
    rw [slots]
    exact Nat.lt_trans (List.mem_range.mp member) short
  · intro i _
    rw [List.mem_range]
    exact positions.live i
  · exact fun i _ => positions.canary i
  · rw [positions.counters.1, List.length_range]
  · rw [slots]
    exact positions.counters.2
  · rw [slots, List.length_range]
    exact short
  · rw [slots, positions.chunks]
    rfl
  · intro c inside
    rw [positions.chunks, List.length_singleton] at inside
    omega

variable (short : bs.length < headersPerChunk)

include short

/-- The headers of the blocks are in use by position. -/
theorem byPosition_ofBlocks : ByPosition (Pmm.ofBlocks bs) bs.length := by
  refine ⟨?_, rfl, ⟨rfl, rfl⟩, ?_, ?_, ?_, ?_⟩
  · simp only [Pmm.ofBlocks, List.length_append, List.length_mapIdx, List.length_replicate]
    omega
  · intro i inside
    unfold Pmm.next
    rw [hdr_ofBlocks inside]
    rfl
  · intro i inside
    unfold Pmm.prev
    rw [hdr_ofBlocks inside]
    rfl
  · intro i
    by_cases inside : i < bs.length
    · rw [hdr_ofBlocks inside]
      simp [PhysMemHeader.linked, inside]
    · rw [hdr_ofBlocks_of_le (Nat.le_of_not_lt inside)]
      simp [Pmm.emptyHeader, inside]
  · intro i
    by_cases inside : i < bs.length
    · rw [hdr_ofBlocks inside]
      rfl
    · rw [hdr_ofBlocks_of_le (Nat.le_of_not_lt inside)]
      rfl

/-- The state is linked in the order of the blocks. -/
theorem linked_ofBlocks : Linked (Pmm.ofBlocks bs) (List.range bs.length) :=
  (byPosition_ofBlocks short).linked short rfl

/-- Its ranges are the blocks. -/
theorem blocks_ofBlocks : (Pmm.ofBlocks bs).blocks = bs := by
  rw [(linked_ofBlocks short).blocks_eq]
  apply List.ext_getElem
  · simp [Pmm.blocksOf]
  · intro i _ inside
    simp only [Pmm.blocksOf, List.getElem_map, List.getElem_range, hdr_ofBlocks inside]
    rfl

/-- A proper layout makes it represented, with a chunk chain that ends. -/
theorem repInv_ofBlocks (layout : Layout pageSize roundLimit bs) : RepInv (Pmm.ofBlocks bs) := by
  have linked := linked_ofBlocks short
  refine ⟨⟨_, linked, ?_⟩, rfl⟩
  rw [← linked.blocks_eq, blocks_ofBlocks short]
  exact layout

end FelineOS.PhysMem
