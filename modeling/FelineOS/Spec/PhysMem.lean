import FelineOS.Kernel.PhysMem
import FelineOS.Library.Blocks
import FelineOS.Library.Chain

/-!
# What the physical memory manager keeps

The manager is read at two levels. `Linked s l` is the pointer level: the slots `l` are the
header list, linked both ways, and everything the counters and flags say about them. The
block level is the list of ranges `s.blocks` along the header list, whose geometry is a
`Layout` on page boundaries. `Rep` joins the two.

The chunk chain needs one thing more. `get_header_chunk` does not set the `next` field of a
new chunk, so the last link of the chain is whatever the page held. `Sealed` says that it
reads null; only the code that grows the header pool depends on it.
-/

namespace FelineOS.PhysMem

open Library

/-- The range a header describes. -/
def PhysMemHeader.block (h : PhysMemHeader) : Block := ⟨h.memory, h.size, h.inUse⟩

namespace Pmm

/-- The header in a slot. -/
def hdr (s : Pmm) (i : Nat) : PhysMemHeader := s.slots.getD i emptyHeader

/-- The forward link of a slot. -/
def next (s : Pmm) (i : Nat) : Option Nat := (s.hdr i).next

/-- The back link of a slot. -/
def prev (s : Pmm) (i : Nat) : Option Nat := (s.hdr i).prev

/-- The slots a loop over the header list passes. -/
def chain (s : Pmm) : List Nat := follow s.next (s.slots.length + 1) s.firstHeader

/-- The ranges of some slots. -/
def blocksOf (s : Pmm) (l : List Nat) : List Block := l.map fun i => (s.hdr i).block

/-- The ranges along the header list. -/
def blocks (s : Pmm) : List Block := s.blocksOf s.chain

/-- The last link of the chunk chain reads null. -/
def Sealed (s : Pmm) : Prop := s.chunkNext.getLast? = some none

instance (s : Pmm) : Decidable s.Sealed := inferInstanceAs (Decidable (_ = _))

end Pmm

/-- The slots `l` are the header list of the state. -/
structure Linked (s : Pmm) (l : List Nat) : Prop where
  /-- The list starts at `first_header`. -/
  first : s.firstHeader = l.head?
  /-- The links run both ways along the list and end in null at both ends. -/
  links : Chain s.next s.prev none l none
  /-- No header is linked twice. -/
  nodup : l.Nodup
  /-- Links name header slots. -/
  bound : ∀ i ∈ l, i < s.slots.length
  /-- Exactly the linked headers have `header_in_use`. -/
  live : ∀ i < s.slots.length, ((s.hdr i).headerInUse = true ↔ i ∈ l)
  /-- The canaries are intact. -/
  canary : ∀ i < s.slots.length, (s.hdr i).canary = canaryBytes
  /-- `headers_in_use` counts the linked headers. -/
  inUse : s.headersInUse = l.length
  /-- `headers_allocated` counts the header slots. -/
  allocated : s.headersAllocated = s.slots.length
  /-- There is an unused header. -/
  room : l.length < s.slots.length
  /-- The slots are those of the chunks. -/
  chunks : s.slots.length = headersPerChunk * s.chunkNext.length
  /-- Each chunk but the last points at the following one. -/
  path : ∀ c, c + 1 < s.chunkNext.length → s.chunkNext[c]? = some (some (c + 1))

/-- The header list with its geometry. -/
structure Rep (s : Pmm) (l : List Nat) : Prop extends Linked s l where
  /-- Linked ranges are page-aligned, end at or below the last page boundary, and have no
  byte in common. -/
  layout : Layout pageSize roundLimit (s.blocksOf l)

/-- The state has a well-formed header list. -/
def Represented (s : Pmm) : Prop := ∃ l, Rep s l

/-- The state has a well-formed header list and a chunk chain that ends. -/
def RepInv (s : Pmm) : Prop := Represented s ∧ s.Sealed

/-- In a linked state the loops pass exactly the header list. -/
theorem Linked.chain_eq {s : Pmm} {l : List Nat} (linked : Linked s l) : s.chain = l := by
  unfold Pmm.chain
  rw [linked.first]
  exact linked.links.follow_eq (Nat.lt_succ_of_lt linked.room)

/-- The block level of a linked state. -/
theorem Linked.blocks_eq {s : Pmm} {l : List Nat} (linked : Linked s l) :
    s.blocks = s.blocksOf l := by
  unfold Pmm.blocks
  rw [linked.chain_eq]

/-- A represented state is represented by its own chain. -/
theorem Represented.rep {s : Pmm} (represented : Represented s) : Rep s s.chain := by
  obtain ⟨l, rep⟩ := represented
  rw [rep.chain_eq]
  exact rep

/-- What the manager keeps in every state `s` it reaches from `start`, along its own list. -/
structure Kept (start s : Pmm) : Prop where
  /-- The invariant itself. -/
  inv : RepInv s
  /-- A forward link is answered by a back link. -/
  forward : ∀ i ∈ s.chain, ∀ j, s.next i = some j → j ∈ s.chain ∧ s.prev j = some i
  /-- A back link is answered by a forward link. -/
  backward : ∀ j ∈ s.chain, ∀ i, s.prev j = some i → i ∈ s.chain ∧ s.next i = some j
  /-- Exactly the linked headers have `header_in_use`. -/
  live : ∀ i < s.slots.length, ((s.hdr i).headerInUse = true ↔ i ∈ s.chain)
  /-- `headers_in_use` is the number of linked headers. -/
  inUse : s.headersInUse = s.chain.length
  /-- It stays below `headers_allocated`. -/
  room : s.headersInUse < s.headersAllocated
  /-- Linked ranges have no byte in common. -/
  apart : s.blocks.Pairwise Block.Apart
  /-- The union of the linked ranges is the initial one. -/
  covered : ∀ x, Covered s.blocks x ↔ Covered start.blocks x

/-- The invariant and the coverage give all of it. -/
theorem RepInv.kept {start s : Pmm} (inv : RepInv s)
    (covered : ∀ x, Covered s.blocks x ↔ Covered start.blocks x) : Kept start s := by
  have rep := inv.1.rep
  refine ⟨inv, ?_, ?_, rep.live, rep.inUse, ?_, rep.layout.apart, covered⟩
  · intro i member j link
    exact rep.links.prev_of_next member link
  · intro j member i link
    exact rep.links.next_of_prev member link
  · rw [rep.inUse, rep.allocated]
    exact rep.room

end FelineOS.PhysMem
