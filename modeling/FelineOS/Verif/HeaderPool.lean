import FelineOS.Verif.HeaderList
import Mathlib.Data.List.Perm.Subperm
import Mathlib.Data.List.Range

/-!
# The header pool

The chunk chain and `get_new_header` with the growth of the pool. `getNewHeader_spec` says
what the call returns in a linked state, so that the later modules never unfold it.
-/

namespace FelineOS.PhysMem

open Library

variable {s : Pmm} {l : List Nat} {i j : Nat} {h : PhysMemHeader}

/-! ## Chunks -/

/-- A chunk has room for more than one header. -/
theorem headersPerChunk_pos : 1 < headersPerChunk := by decide

/-- A linked state has a first chunk. -/
theorem Linked.chunk_pos (linked : Linked s l) : 0 < s.chunkNext.length := by
  have room := linked.room
  rw [linked.chunks] at room
  exact Nat.pos_of_mul_pos_left (Nat.lt_of_le_of_lt (Nat.zero_le _) room)

/-- The search within a chunk returns an unused slot of the pool. -/
theorem unusedIn_some {c : Nat} (found : s.unusedIn c = some i) :
    i < s.slots.length ∧ (s.hdr i).headerInUse = false := by
  unfold Pmm.unusedIn at found
  obtain ⟨k, hit, rfl⟩ := Option.map_eq_some_iff.mp found
  obtain ⟨inside, clear, -⟩ := List.findIdx?_eq_some_iff_getElem.mp hit
  rw [List.length_take, List.length_drop] at inside
  have slot : headersPerChunk * c + k < s.slots.length := by omega
  refine ⟨slot, ?_⟩
  simpa [Pmm.hdr, slot] using clear

/-- A search without result has passed only headers in use. -/
theorem unusedIn_none {c : Nat} (missed : s.unusedIn c = none) {k : Nat}
    (inChunk : k < headersPerChunk) (inside : headersPerChunk * c + k < s.slots.length) :
    (s.hdr (headersPerChunk * c + k)).headerInUse = true := by
  unfold Pmm.unusedIn at missed
  rw [Option.map_eq_none_iff, List.findIdx?_eq_none_iff] at missed
  have here : k < ((s.slots.drop (headersPerChunk * c)).take headersPerChunk).length := by
    rw [List.length_take, List.length_drop]
    omega
  have flag := missed _ (List.getElem_mem here)
  simpa [Pmm.hdr, inside] using flag

/-- Reading the `next` field of a chunk that exists. -/
theorem chunk_eq {c : Nat} {next : Option Nat} (read : s.chunkNext[c]? = some next) :
    s.chunk c = .ok next := by simp [Pmm.chunk, read]

/-- The search loop of `get_new_header` finds an unused header, when there is one in the
chunk it stands at or in a later one. -/
theorem Linked.takeFrom_spec (linked : Linked s l) {u : Nat} (inside : u < s.slots.length)
    (unused : u ∉ l) (fuel c : Nat) (here : c ≤ u / headersPerChunk)
    (enough : s.chunkNext.length ≤ fuel + c) (slack : 0 < fuel) :
    ∃ t, t ∉ l ∧ t < s.slots.length ∧
      s.takeFrom fuel (some c) = .ok (some t, s.put t { s.hdr t with headerInUse := true }) := by
  have chunkBound : u / headersPerChunk < s.chunkNext.length := by
    apply Nat.div_lt_of_lt_mul
    rw [← linked.chunks]
    exact inside
  induction fuel generalizing c with
  | zero => omega
  | succ fuel ih =>
    obtain ⟨next, read⟩ : ∃ next, s.chunkNext[c]? = some next :=
      ⟨_, List.getElem?_eq_getElem (by omega)⟩
    simp only [Pmm.takeFrom, chunk_eq read, ok_bind]
    cases found : s.unusedIn c with
    | some t =>
      obtain ⟨tInside, clear⟩ := unusedIn_some found
      refine ⟨t, ?_, tInside, ?_⟩
      · intro member
        rw [linked.headerInUse member] at clear
        contradiction
      · simp [Pmm.header_eq tInside, linked.canary t tInside, pure, Except.pure]
    | none =>
      -- The unused slot is not in this chunk, so the chain goes on.
      have later : c < u / headersPerChunk := by
        apply Nat.lt_of_le_of_ne here
        intro same
        have parts : headersPerChunk * c + u % headersPerChunk = u := by
          rw [same]
          exact Nat.div_add_mod u headersPerChunk
        have flag := unusedIn_none found (Nat.mod_lt u (by decide)) (by rw [parts]; exact inside)
        rw [parts] at flag
        exact unused ((linked.live u inside).mp flag)
      have step := linked.path c (by omega)
      rw [read] at step
      obtain rfl := Option.some.inj step
      exact ih (c + 1) (by omega) (by omega) (by omega)

/-- Fewer linked headers than slots leave an unused slot. -/
theorem Linked.exists_unused (linked : Linked s l) : ∃ u, u < s.slots.length ∧ u ∉ l := by
  by_contra none
  push Not at none
  have subset : List.range s.slots.length ⊆ l := fun u member =>
    none u (List.mem_range.mp member)
  have small := (List.nodup_range.subperm subset).length_le
  rw [List.length_range] at small
  have room := linked.room
  omega

/-- With a sealed chain the first loop of `get_new_header` stops at the last chunk. -/
theorem Linked.lastChunk_eq (linked : Linked s l) (sealed : s.Sealed) {fuel c : Nat}
    (here : c < s.chunkNext.length) (enough : s.chunkNext.length ≤ fuel + c) :
    s.lastChunk fuel c = .ok (s.chunkNext.length - 1) := by
  induction fuel generalizing c with
  | zero => omega
  | succ fuel ih =>
    by_cases last : c + 1 < s.chunkNext.length
    · simp only [Pmm.lastChunk, chunk_eq (linked.path c last), ok_bind]
      exact ih last (by omega)
    · have at_end : c = s.chunkNext.length - 1 := by omega
      have read : s.chunkNext[c]? = some none := by
        rw [at_end, ← List.getLast?_eq_getElem?]
        exact sealed
      simp only [Pmm.lastChunk, chunk_eq read, ok_bind]
      rw [at_end]
      rfl

/-- Without the seal the first loop of `get_new_header` never stops at a chunk: it leaves the
chunks or runs in a circle. -/
theorem Linked.lastChunk_unsealed (linked : Linked s l) (unsealed : ¬ s.Sealed) (fuel c : Nat) :
    s.lastChunk fuel c = .error .undefined ∨ s.lastChunk fuel c = .error .divergence := by
  induction fuel generalizing c with
  | zero => exact Or.inr rfl
  | succ fuel ih =>
    simp only [Pmm.lastChunk]
    cases read : s.chunkNext[c]? with
    | none =>
      left
      simp [Pmm.chunk, read]
    | some next =>
      rw [chunk_eq read, ok_bind]
      cases next with
      | some d => exact ih d
      | none =>
        exfalso
        obtain ⟨inside, -⟩ := List.getElem?_eq_some_iff.mp read
        by_cases last : c + 1 < s.chunkNext.length
        · have step := linked.path c last
          rw [read] at step
          simp at step
        · apply unsealed
          unfold Pmm.Sealed
          rw [List.getLast?_eq_getElem?, show s.chunkNext.length - 1 = c by omega]
          exact read

/-! ## Growth -/

/-- The pool after `get_header_chunk` has taken the header `k` for a new chunk whose `next`
field reads `next`, and `get_new_header` has linked the chunk in. -/
def Pmm.grow (s : Pmm) (k : Nat) (next : Option Nat) : Pmm where
  slots := (s.put k { s.hdr k with inUse := true }).slots ++
    List.replicate headersPerChunk Pmm.emptyHeader
  chunkNext := (s.chunkNext ++ [next]).set (s.chunkNext.length - 1) (some s.chunkNext.length)
  firstHeader := s.firstHeader
  headersInUse := s.headersInUse
  headersAllocated := s.headersAllocated + headersPerChunk

/-- Growth adds the headers of one chunk. -/
@[simp] theorem grow_length (k : Nat) (next : Option Nat) :
    (s.grow k next).slots.length = s.slots.length + headersPerChunk := by
  simp [Pmm.grow]

/-- Growth adds one chunk. -/
@[simp] theorem grow_chunks (k : Nat) (next : Option Nat) :
    (s.grow k next).chunkNext.length = s.chunkNext.length + 1 := by
  simp [Pmm.grow]

/-- Slots that do not exist read as a new chunk's headers do. -/
theorem hdr_of_length_le (outside : s.slots.length ≤ i) : s.hdr i = Pmm.emptyHeader := by
  simp [Pmm.hdr, outside]

/-- Growth marks the taken header and leaves every other one alone. -/
theorem hdr_grow {k : Nat} (next : Option Nat) (inside : k < s.slots.length) :
    (s.grow k next).hdr i = if i = k then { s.hdr k with inUse := true } else s.hdr i := by
  by_cases old : i < s.slots.length
  · have read : (s.grow k next).hdr i = (s.put k { s.hdr k with inUse := true }).hdr i := by
      simp [Pmm.hdr, Pmm.grow, List.getElem?_append_left, old]
    rw [read, Pmm.hdr_put inside]
  · have new : s.slots.length ≤ i := Nat.le_of_not_lt old
    rw [if_neg (by omega), hdr_of_length_le new]
    simp only [Pmm.hdr, Pmm.grow]
    by_cases added : i < s.slots.length + headersPerChunk
    · have short : i - s.slots.length < headersPerChunk := by omega
      simp [List.getElem?_append_right, new, short]
    · have past : s.slots.length + headersPerChunk ≤ i := by omega
      simp [past]

/-- Growth keeps the header list. -/
theorem Linked.grow {k : Nat} (linked : Linked s l) (member : k ∈ l) (next : Option Nat) :
    Linked (s.grow k next) l := by
  have inside := linked.bound k member
  have read := fun i => hdr_grow (i := i) next inside
  have nextEq : ∀ i, (s.grow k next).next i = s.next i := by
    intro i
    unfold Pmm.next
    rw [read i]
    split
    · rename_i same
      rw [same]
    · rfl
  have prevEq : ∀ i, (s.grow k next).prev i = s.prev i := by
    intro i
    unfold Pmm.prev
    rw [read i]
    split
    · rename_i same
      rw [same]
    · rfl
  have room := linked.room
  refine ⟨linked.first, ?_, linked.nodup, ?_, ?_, ?_, linked.inUse, ?_, ?_, ?_, ?_⟩
  · exact linked.links.congr fun i _ => ⟨nextEq i, prevEq i⟩
  · intro i listed
    have old := linked.bound i listed
    simp only [grow_length]
    omega
  · intro i bound
    rw [read i]
    split
    · rename_i same
      subst same
      exact linked.live i inside
    · by_cases old : i < s.slots.length
      · exact linked.live i old
      · rw [hdr_of_length_le (Nat.le_of_not_lt old)]
        constructor
        · intro flag
          contradiction
        · intro listed
          exact absurd (linked.bound i listed) old
  · intro i bound
    rw [read i]
    split
    · rename_i same
      subst same
      exact linked.canary i inside
    · by_cases old : i < s.slots.length
      · exact linked.canary i old
      · rw [hdr_of_length_le (Nat.le_of_not_lt old)]
        rfl
  · rw [grow_length, ← linked.allocated]
    rfl
  · simp only [grow_length]
    omega
  · rw [grow_length, grow_chunks, linked.chunks, Nat.mul_add, Nat.mul_one]
  · intro c bound
    rw [grow_chunks] at bound
    have pos := linked.chunk_pos
    simp only [Pmm.grow]
    by_cases last : c + 1 = s.chunkNext.length
    · rw [show s.chunkNext.length - 1 = c by omega, List.getElem?_set_self (by simp; omega), last]
    · rw [List.getElem?_set_ne (by omega), List.getElem?_append_left (by omega)]
      exact linked.path c (by omega)

/-- The grown chain is sealed when the page of the new chunk reads null there. -/
theorem sealed_grow (linked : Linked s l) (k : Nat) (next : Option Nat) :
    (s.grow k next).Sealed ↔ next = none := by
  have pos := linked.chunk_pos
  unfold Pmm.Sealed
  simp only [Pmm.grow, List.getLast?_eq_getElem?, List.length_set, List.length_append,
    List.length_singleton]
  rw [List.getElem?_set_ne (by omega)]
  simp

/-- Claiming a free header that is linked succeeds. -/
theorem Linked.claim_eq (linked : Linked s l) (member : i ∈ l) (free : (s.hdr i).inUse = false) :
    s.internalClaimMemArea i = .ok (.success, s.put i { s.hdr i with inUse := true }) := by
  have inside := linked.bound i member
  simp [Pmm.internalClaimMemArea, Pmm.header_eq inside, linked.headerInUse member, free,
    linked.canary i inside, pure, Except.pure]

/-- The request for a new chunk accepts every free header, since its length rounds to zero. -/
theorem Linked.findFreePages_chunk (linked : Linked s l) :
    s.findFreePages (pageFloor 1) = .ok (l.find? fun i => !(s.hdr i).inUse) := by
  unfold Pmm.findFreePages
  rw [linked.find_eq]
  simp [show pageFloor 1 = 0 from rfl]

/-- Where the header for a split comes from: an unused slot of the pool as it is, or the
first slot of a chunk made from the header `k`. -/
inductive Supply (mapRange : MapRange) (s : Pmm) (l : List Nat) : Pmm → Prop where
  | same (spare : l.length + 1 < s.slots.length) : Supply mapRange s l s
  | grown (full : s.slots.length ≤ l.length + 1) (sealed : s.Sealed) (k : Nat)
      (next : Option Nat) (member : k ∈ l) (free : (s.hdr k).inUse = false)
      (mapped : mapRange (s.put k { s.hdr k with inUse := true }) = .mapped next) :
      Supply mapRange s l (s.grow k next)

variable {mapRange : MapRange}

/-- After the supply there is room for one more header. -/
theorem Supply.spare {s' : Pmm} (linked : Linked s l) (supply : Supply mapRange s l s') :
    Linked s' l ∧ l.length + 1 < s'.slots.length := by
  cases supply with
  | same spare => exact ⟨linked, spare⟩
  | grown full sealed k next member free mapped =>
    refine ⟨linked.grow member next, ?_⟩
    have room := linked.room
    have wide := headersPerChunk_pos
    rw [grow_length]
    omega

/-- `get_header_chunk` in a linked state: there is no free header or the mapping of the first one
fails and is undone, or the pool is grown by the first one, with the chunk not linked in yet. -/
theorem Linked.getHeaderChunk_spec (linked : Linked s l) (mapRange : MapRange) :
    (s.getHeaderChunk mapRange = .ok (none, s) ∧
      ∀ k, l.find? (fun i => !(s.hdr i).inUse) = some k →
        mapRange (s.put k { s.hdr k with inUse := true }) = .failed) ∨
      ∃ k next, l.find? (fun i => !(s.hdr i).inUse) = some k ∧
        mapRange (s.put k { s.hdr k with inUse := true }) = .mapped next ∧
        s.getHeaderChunk mapRange = .ok (some s.chunkNext.length,
          { s.grow k next with chunkNext := s.chunkNext ++ [next] }) := by
  unfold Pmm.getHeaderChunk Host.getHeaderChunk Pmm.host
  dsimp only
  rw [linked.findFreePages_chunk, ok_bind]
  cases found : l.find? fun i => !(s.hdr i).inUse with
  | none => exact Or.inl ⟨rfl, by simp⟩
  | some k =>
    have member := List.mem_of_find?_eq_some found
    have free : (s.hdr k).inUse = false := by simpa using List.find?_some found
    have inside := linked.bound k member
    simp only [linked.claim_eq member free, ok_bind]
    cases outcome : mapRange (s.put k { s.hdr k with inUse := true }) with
    | failed =>
      left
      have undone : { (s.hdr k) with inUse := false } = s.hdr k := by rw [← free]
      refine ⟨?_, ?_⟩
      · simp [Pmm.modify_eq, inside, Pmm.hdr_put, undone, Pmm.put_hdr, pure, Except.pure]
      · rintro _ ⟨⟩
        exact outcome
    | mapped next =>
      right
      exact ⟨k, next, rfl, outcome, rfl⟩

/-- The assertion of `get_new_header` holds in a linked state. -/
theorem Linked.counted (linked : Linked s l) :
    assert (decide (s.headersInUse ≤ s.headersAllocated)) = .ok () := by
  rw [linked.inUse, linked.allocated, decide_eq_true (Nat.le_of_lt linked.room)]
  rfl

/-- `get_new_header` in a linked state that has no spare header and whose chunk chain is sealed: it
returns nothing and changes nothing, or it returns an unlinked header of the pool, grown by the
first free header. -/
theorem Linked.getNewHeader_full (linked : Linked s l) (mapRange : MapRange) (sealed : s.Sealed)
    (full : s.slots.length ≤ l.length + 1) :
    (s.getNewHeader mapRange = .ok (none, s) ∧
      ∀ k, l.find? (fun i => !(s.hdr i).inUse) = some k →
        mapRange (s.put k { s.hdr k with inUse := true }) = .failed) ∨
      ∃ k next t, l.find? (fun i => !(s.hdr i).inUse) = some k ∧
        mapRange (s.put k { s.hdr k with inUse := true }) = .mapped next ∧ t ∉ l ∧
        t < (s.grow k next).slots.length ∧ s.getNewHeader mapRange =
          .ok (some t, (s.grow k next).put t { (s.grow k next).hdr t with headerInUse := true }) := by
  unfold Pmm.getNewHeader Host.getNewHeader Pmm.host
  simp only [Pmm.host_getHeaderChunk, bind_pair]
  rw [linked.counted, ok_bind, linked.inUse, linked.allocated]
  have pos := linked.chunk_pos
  rw [if_pos full, linked.lastChunk_eq sealed pos (by omega), ok_bind]
  rcases linked.getHeaderChunk_spec mapRange with ⟨refused, failed⟩ | grown
  · refine Or.inl ⟨?_, failed⟩
    have kept : s.chunkNext.set (s.chunkNext.length - 1) none = s.chunkNext := by
      apply List.ext_getElem?
      intro c
      by_cases last : c = s.chunkNext.length - 1
      · have read : s.chunkNext[c]? = some none := by
          rw [last, ← List.getLast?_eq_getElem?]
          exact sealed
        rw [read, last, List.getElem?_set_self (by omega)]
      · rw [List.getElem?_set_ne (Ne.symm last)]
    simp [refused, kept, Pmm.takeFrom]
  · right
    obtain ⟨k, next, found, mapped, returned⟩ := grown
    have grownLinked := linked.grow (List.mem_of_find?_eq_some found) next
    -- The loop stands at the new chunk, whose first slot is unused.
    have inside : s.slots.length < (s.grow k next).slots.length := by
      rw [grow_length]
      exact Nat.lt_add_of_pos_right (by decide)
    have unused : s.slots.length ∉ l := fun listed => Nat.lt_irrefl _ (linked.bound _ listed)
    have here : s.chunkNext.length ≤ s.slots.length / headersPerChunk := by
      rw [linked.chunks, Nat.mul_div_cancel_left _ (by decide)]
    obtain ⟨t, fresh, bound, taken⟩ := grownLinked.takeFrom_spec inside unused
      (s.chunkNext.length + 2) s.chunkNext.length here (by rw [grow_chunks]; omega) (by omega)
    refine ⟨k, next, t, found, mapped, fresh, bound, ?_⟩
    rw [returned, ok_bind, ← taken]
    have count : ((s.chunkNext ++ [next]).set (s.chunkNext.length - 1)
        (some s.chunkNext.length)).length + 1 = s.chunkNext.length + 2 := by simp
    show Pmm.takeFrom _ _ _ = _
    rw [count]
    rfl

/-- `get_new_header` in a linked state whose chunk chain is sealed, or that has a spare
header anyway: it returns nothing and changes nothing, or it returns an unlinked header of
the pool, grown if need be. -/
theorem Linked.getNewHeader_spec (linked : Linked s l) (mapRange : MapRange)
    (ready : s.Sealed ∨ l.length + 1 < s.slots.length) :
    (s.getNewHeader mapRange = .ok (none, s) ∧ s.Sealed ∧ s.slots.length ≤ l.length + 1) ∨
      ∃ s' t, Supply mapRange s l s' ∧ t ∉ l ∧ t < s'.slots.length ∧
        s.getNewHeader mapRange =
          .ok (some t, s'.put t { s'.hdr t with headerInUse := true }) := by
  by_cases spare : l.length + 1 < s.slots.length
  · right
    unfold Pmm.getNewHeader Host.getNewHeader Pmm.host
    simp only [bind_pair]
    rw [linked.counted, ok_bind, linked.inUse, linked.allocated, if_neg (Nat.not_le.mpr spare)]
    obtain ⟨u, inside, unused⟩ := linked.exists_unused
    obtain ⟨t, fresh, bound, taken⟩ := linked.takeFrom_spec inside unused
      (s.chunkNext.length + 1) 0 (Nat.zero_le _) (by omega) (by omega)
    exact ⟨s, t, .same spare, fresh, bound, taken⟩
  · have full := Nat.le_of_not_lt spare
    have sealed := ready.resolve_right spare
    rcases linked.getNewHeader_full mapRange sealed full with ⟨refused, -⟩ | grown
    · exact Or.inl ⟨refused, sealed, full⟩
    · obtain ⟨k, next, t, found, mapped, fresh, bound, taken⟩ := grown
      have free : (s.hdr k).inUse = false := by simpa using List.find?_some found
      exact Or.inr ⟨s.grow k next, t,
        .grown full sealed k next (List.mem_of_find?_eq_some found) free mapped, fresh, bound, taken⟩

/-- Without the seal a call that has to grow the pool does not return. -/
theorem Linked.getNewHeader_unsealed (linked : Linked s l) (mapRange : MapRange)
    (unsealed : ¬ s.Sealed) (full : s.slots.length ≤ l.length + 1) :
    s.getNewHeader mapRange = .error .undefined ∨
      s.getNewHeader mapRange = .error .divergence := by
  unfold Pmm.getNewHeader Host.getNewHeader Pmm.host
  dsimp only
  rw [linked.counted, ok_bind, linked.inUse, linked.allocated, if_pos full]
  rcases linked.lastChunk_unsealed unsealed (s.chunkNext.length + 1) 0 with stop | stop
  · rw [stop]
    exact Or.inl rfl
  · rw [stop]
    exact Or.inr rfl

end FelineOS.PhysMem
