import FelineOS.Library.Ledger
import FelineOS.Verif.Split

/-!
# Reserving memory

Both overloads of `get_mem_area` end in the same way: a free header of the list is claimed and
split at a rounded length. `Reserved` says what that does to the header list, to the blocks
and to the seal of the chunk chain; `getMemAreaAny_spec` and `getMemAreaAt_spec` reduce the
two calls to it.
-/

namespace FelineOS.PhysMem

open Library

variable {s s' : Pmm} {l xs ys : List Nat} {i n : Nat} {mapRange : MapRange}

/-- The state with the header `i` marked as handed out. -/
def Pmm.claim (s : Pmm) (i : Nat) : Pmm := s.put i { s.hdr i with inUse := true }

/-- Claiming a header keeps the representation. -/
theorem Rep.claim (rep : Rep s l) (member : i ∈ l) : Rep (s.claim i) l := by
  refine ⟨rep.toLinked.put (rep.bound i member) rfl rfl rfl rfl, ?_⟩
  obtain ⟨xs, ys, rfl⟩ := List.append_of_mem member
  have layout := rep.layout
  rw [blocksOf_middle] at layout
  unfold Pmm.claim
  rw [rep.toLinked.blocksOf_put]
  exact layout.reflag true

/-- The claimed header reads as before, but handed out. -/
theorem Linked.hdr_claim (linked : Linked s l) (member : i ∈ l) :
    (s.claim i).hdr i = { s.hdr i with inUse := true } := by
  unfold Pmm.claim
  rw [Pmm.hdr_put (linked.bound i member), if_pos rfl]

/-- Every page mapped for a header chunk reads null where the chunk has its `next` field. -/
def MapRange.Clean (mapRange : MapRange) : Prop :=
  ∀ s next, mapRange s = .mapped next → next = none

/-- The free header `i` of the list `l` was claimed and split at `n`, leaving the list `l'`. -/
structure Reserved (mapRange : MapRange) (s : Pmm) (l : List Nat) (i n : Nat) (s' : Pmm)
    (l' : List Nat) : Prop where
  /-- The new list is represented. -/
  rep : Rep s' l'
  /-- The header is still linked. -/
  member : i ∈ l'
  /-- It starts where it did. -/
  memory : (s'.hdr i).memory = (s.hdr i).memory
  /-- It is handed out. -/
  inUse : (s'.hdr i).inUse = true
  /-- It has the length asked for. -/
  enough : n ≤ (s'.hdr i).size
  /-- It has not grown. -/
  within : (s'.hdr i).size ≤ (s.hdr i).size
  /-- Its block was handed out; a chunk may have taken another one. -/
  reserves : Reserves Block.Claims n (s.hdr i).block (s.blocksOf l) (s'.blocksOf l')
  /-- Without a new chunk nothing else happened. -/
  alone : s'.chunkNext.length = s.chunkNext.length →
    Reserves Eq n (s.hdr i).block (s.blocksOf l) (s'.blocksOf l')
  /-- A call that returns needed no header, found one or could follow the chunk chain. -/
  ready : (s.hdr i).size = n ∨ s.Sealed ∨ l.length + 1 < s.slots.length
  /-- With a spare header the block is divided, and no chunk is needed. -/
  divided : l.length + 1 < s.slots.length → n < (s.hdr i).size →
    l'.length = l.length + 1 ∧ s'.chunkNext = s.chunkNext
  /-- The chunk chain stays sealed when the new pages read null. -/
  keepsSeal : mapRange.Clean → s.Sealed → s'.Sealed

section Shapes

variable (rep : Rep s (xs ++ i :: ys)) (free : (s.hdr i).inUse = false)
  (fits : n ≤ (s.hdr i).size)

include rep free fits

/-- A claimed header that keeps its range. -/
theorem reserved_whole (reason : (s.hdr i).size = n ∨
    s.Sealed ∧ s.slots.length ≤ (xs ++ i :: ys).length + 1) :
    Reserved mapRange s (xs ++ i :: ys) i n (s.claim i) (xs ++ i :: ys) := by
  have member : i ∈ xs ++ i :: ys := by simp
  have read := rep.toLinked.hdr_claim member
  have blocks : (s.claim i).blocksOf (xs ++ i :: ys) =
      s.blocksOf xs ++ (s.hdr i).block.front (s.hdr i).size :: s.blocksOf ys := by
    unfold Pmm.claim
    rw [rep.toLinked.blocksOf_put]
    rfl
  refine ⟨rep.claim member, member, ?_, ?_, ?_, ?_, ?_, fun _ => ?_, ?_, ?_,
    fun _ sealed => sealed⟩
  · rw [read]
  · rw [read]
  · rw [read]
    exact fits
  · rw [read]
  · rw [blocks, blocksOf_middle]
    exact .whole free fits (List.forall₂_same.mpr fun b _ => .refl b)
      (List.forall₂_same.mpr fun b _ => .refl b)
  · rw [blocks, blocksOf_middle]
    exact .whole free fits (List.forall₂_same.mpr fun b _ => rfl)
      (List.forall₂_same.mpr fun b _ => rfl)
  · exact reason.imp id fun full => Or.inl full.1
  · intro spare short
    rcases reason with exact | ⟨-, full⟩
    · exact absurd exact (Nat.ne_of_gt short)
    · exact absurd spare (Nat.not_lt.mpr full)

omit free fits in
/-- The claimed header after its range was divided. -/
theorem hdr_divided {s₁ : Pmm} {t : Nat} (supply : Supply mapRange (s.claim i) (xs ++ i :: ys) s₁)
    (fresh : t ∉ xs ++ i :: ys) (inside : t < s₁.slots.length) :
    s₁.hdr i = { s.hdr i with inUse := true } ∧
      (s₁.cut i t n).hdr i = { s.hdr i with inUse := true, next := some t, size := n } := by
  have member : i ∈ xs ++ i :: ys := by simp
  have claimed := (rep.claim member).toLinked
  have read := rep.toLinked.hdr_claim member
  have flag : ((s.claim i).hdr i).inUse = true := by rw [read]
  have same : s₁.hdr i = { s.hdr i with inUse := true } := (supply.hdr_eq claimed flag).trans read
  refine ⟨same, ?_⟩
  rw [(supply.spare claimed).1.hdr_cut fresh inside, if_pos rfl, same]

omit free fits in
/-- The blocks after the range of the claimed header was divided. -/
theorem blocksOf_divided {s₁ : Pmm} {t : Nat}
    (supply : Supply mapRange (s.claim i) (xs ++ i :: ys) s₁) (fresh : t ∉ xs ++ i :: ys)
    (inside : t < s₁.slots.length) :
    (s₁.cut i t n).blocksOf (xs ++ i :: t :: ys) = s₁.blocksOf xs ++
      (s.hdr i).block.front n :: (s.hdr i).block.back n :: s₁.blocksOf ys := by
  have claimed := (rep.claim (by simp : i ∈ xs ++ i :: ys)).toLinked
  obtain ⟨same, -⟩ := @hdr_divided s xs ys i n mapRange rep s₁ t supply fresh inside
  rw [(supply.spare claimed).1.blocksOf_cut fresh inside n (by rw [same]), same]
  rfl

/-- A claimed header whose range was divided. -/
theorem reserved_cut {s₁ : Pmm} {t : Nat} (grained : pageSize ∣ n)
    (supply : Supply mapRange (s.claim i) (xs ++ i :: ys) s₁) (fresh : t ∉ xs ++ i :: ys)
    (inside : t < s₁.slots.length) (short : n < (s.hdr i).size) :
    Reserved mapRange s (xs ++ i :: ys) i n (s₁.cut i t n) (xs ++ i :: t :: ys) := by
  have member : i ∈ xs ++ i :: ys := by simp
  have claimed := (rep.claim member).toLinked
  obtain ⟨linked, spare⟩ := supply.spare claimed
  obtain ⟨same, after⟩ := @hdr_divided s xs ys i n mapRange rep s₁ t supply fresh inside
  have blocks := @blocksOf_divided s xs ys i n mapRange rep s₁ t supply fresh inside
  obtain ⟨left, right⟩ : (s.claim i).blocksOf xs = s.blocksOf xs ∧
      (s.claim i).blocksOf ys = s.blocksOf ys := rep.toLinked.blocksOf_put_beside
  have reserves : Reserves Block.Claims n (s.hdr i).block (s.blocksOf (xs ++ i :: ys))
      ((s₁.cut i t n).blocksOf (xs ++ i :: t :: ys)) := by
    rw [blocks, blocksOf_middle, ← left, ← right]
    exact .cut free short (supply.claims claimed xs) (supply.claims claimed ys)
  refine ⟨⟨linked.cut fresh inside n spare, reserves.layout grained rep.layout⟩, by simp, ?_, ?_,
    ?_, ?_, reserves, ?_, ?_, ?_, ?_⟩
  · rw [after]
  · rw [after]
  · rw [after]
  · rw [after]
    exact fits
  · intro kept
    rw [cut_chunkNext] at kept
    obtain rfl := supply.eq_of_chunks kept
    rw [blocks, blocksOf_middle, left, right]
    exact .cut free short (List.forall₂_same.mpr fun b _ => rfl)
      (List.forall₂_same.mpr fun b _ => rfl)
  · cases supply with
    | same room => exact Or.inr (Or.inr (by simpa [Pmm.claim] using room))
    | grown full sealed k next listed idle mapped => exact Or.inr (Or.inl sealed)
  · intro room _
    rw [cut_chunkNext]
    cases supply with
    | same => exact ⟨by simp; omega, rfl⟩
    | grown full sealed k next listed idle mapped =>
      have crowded : s.slots.length ≤ (xs ++ i :: ys).length + 1 := by
        simpa [Pmm.claim] using full
      exact absurd room (Nat.not_lt.mpr crowded)
  · intro clean sealed
    unfold Pmm.Sealed
    rw [cut_chunkNext]
    cases supply with
    | same => exact sealed
    | grown full _ k next listed idle mapped =>
      exact (sealed_grow claimed k next).mpr (clean _ _ mapped)

/-- Claiming a free header and splitting it, in a represented state. -/
theorem Rep.claim_split (grained : pageSize ∣ n) (mapRange : MapRange) :
    (∃ s' l', Reserved mapRange s (xs ++ i :: ys) i n s' l' ∧
        (s.claim i).splitHeaderAtLen mapRange i n = .ok s') ∨
      Stuck s (xs ++ i :: ys) ((s.claim i).splitHeaderAtLen mapRange i n) := by
  have member : i ∈ xs ++ i :: ys := by simp
  have claimed := rep.claim member
  have read := rep.toLinked.hdr_claim member
  have flag : ((s.claim i).hdr i).inUse = true := by rw [read]
  have long : n ≤ ((s.claim i).hdr i).size := by
    rw [read]
    exact fits
  have bound := (claimed.header_bounds member).2.2
  rcases splitHeaderAtLen_spec claimed.toLinked flag long bound mapRange with
    ⟨s', l', split, returned⟩ | stuck
  · left
    refine ⟨s', l', ?_, returned⟩
    cases split with
    | whole reason =>
      rw [read] at reason
      exact reserved_whole rep free fits (by simpa [Pmm.claim, Pmm.Sealed] using reason)
    | cut s₁ t supply fresh inside short =>
      rw [read] at short
      exact reserved_cut rep free fits grained supply fresh inside short
  · obtain ⟨unsealed, full, stopped⟩ := stuck
    exact Or.inr ⟨unsealed, by simpa [Pmm.claim] using full, stopped⟩

end Shapes

/-! ## The calls -/

/-- The search test of `get_mem_area(&addr, len)`. -/
def Pmm.Fits (s : Pmm) (len i : Nat) : Prop :=
  (s.hdr i).inUse = false ∧ roundUpToPage len ≤ (s.hdr i).size

/-- `get_mem_area(&addr, len)` finds nothing, or reserves the first header that fits. -/
theorem Rep.getMemAreaAny_spec (rep : Rep s l) (mapRange : MapRange) (len : Nat) :
    ((∀ i ∈ l, ¬ s.Fits len i) ∧ s.getMemAreaAny mapRange len = .ok (.nomem, none, s)) ∨
      ∃ i ∈ l, s.Fits len i ∧
        ((∃ s' l', Reserved mapRange s l i (roundUpToPage len) s' l' ∧
            s.getMemAreaAny mapRange len = .ok (.success, some (s.hdr i).memory, s')) ∨
          Stuck s l (s.getMemAreaAny mapRange len)) := by
  unfold Pmm.getMemAreaAny Host.getMemAreaAny Pmm.host Pmm.findFreePages
  simp only [Pmm.host_splitHeaderAtLen]
  rw [rep.find_eq, ok_bind]
  cases found : l.find? fun i => !(s.hdr i).inUse && decide (roundUpToPage len ≤ (s.hdr i).size)
    with
  | none =>
    refine Or.inl ⟨?_, rfl⟩
    rintro i member ⟨free, fits⟩
    have failed := List.find?_eq_none.mp found i member
    simp [free, fits] at failed
  | some i =>
    have member := List.mem_of_find?_eq_some found
    have passed := List.find?_some found
    have fits : s.Fits len i := by simpa [Pmm.Fits] using passed
    refine Or.inr ⟨i, member, fits, ?_⟩
    simp only [rep.claim_eq member fits.1, ok_bind, if_true]
    obtain ⟨xs, ys, rfl⟩ := List.append_of_mem member
    rcases rep.claim_split fits.1 fits.2 (pageSize_dvd_roundUpToPage len) mapRange with
      ⟨s', l', reserved, returned⟩ | stuck
    · refine Or.inl ⟨s', l', reserved, ?_⟩
      have inside := reserved.rep.bound i reserved.member
      unfold Pmm.claim at returned
      rw [returned, ok_bind, Pmm.header_eq inside, ok_bind, reserved.memory]
      rfl
    · exact Or.inr (stuck.bind _)

/-- The header the lookup of `get_mem_area(addr, len)` stops at. -/
def Pmm.reached (s : Pmm) (l : List Nat) (addr : Nat) : Option Nat :=
  l.find? fun i => Pmm.PhysMemHeader.reaches addr (s.hdr i)

/-- The lookup stops at a linked header whose range, with its end, has the address. -/
theorem Rep.reached_spec (rep : Rep s l) {addr : Nat} (found : s.reached l addr = some i) :
    i ∈ l ∧ (s.hdr i).memory ≤ addr ∧ addr ≤ (s.hdr i).memory + (s.hdr i).size := by
  have member := List.mem_of_find?_eq_some found
  have passed := List.find?_some found
  have bound := (rep.header_bounds member).2.2
  have exact : wrap ((s.hdr i).memory + (s.hdr i).size) = (s.hdr i).memory + (s.hdr i).size := by
    apply wrap_of_lt
    unfold roundLimit at bound
    unfold wordLimit
    omega
  simp only [Pmm.PhysMemHeader.reaches, exact, Bool.and_eq_true, decide_eq_true_eq] at passed
  exact ⟨member, passed⟩

/-- `get_mem_area(addr, len)` refuses when its lookup stops at no free header that is long enough,
or reserves the header it stops at from the start of that header. -/
theorem Rep.getMemAreaAt_spec (rep : Rep s l) (mapRange : MapRange) (addr len : Nat) :
    ((∀ i, s.reached l addr = some i → (s.hdr i).inUse = false → (s.hdr i).size < len) ∧
      s.getMemAreaAt mapRange addr len = .ok (.nomem, s)) ∨
      ∃ i, s.reached l addr = some i ∧ (s.hdr i).inUse = false ∧ len ≤ (s.hdr i).size ∧
        ((∃ s' l', Reserved mapRange s l i (roundUpToPage len) s' l' ∧
            s.getMemAreaAt mapRange addr len = .ok (.success, s')) ∨
          Stuck s l (s.getMemAreaAt mapRange addr len)) := by
  unfold Pmm.getMemAreaAt Host.getMemAreaAt Pmm.host Pmm.findHeaderForPage
  simp only [Pmm.host_splitHeaderAtLen]
  rw [rep.find_eq, ok_bind]
  cases found : l.find? fun i => Pmm.PhysMemHeader.reaches addr (s.hdr i) with
  | none =>
    refine Or.inl ⟨fun i reached => ?_, rfl⟩
    unfold Pmm.reached at reached
    rw [found] at reached
    cases reached
  | some i =>
    obtain ⟨member, above, -⟩ := rep.reached_spec found
    simp only [Pmm.header_eq (rep.bound i member), ok_bind]
    cases taken : (s.hdr i).inUse || decide ((s.hdr i).size < len) with
    | true =>
      refine Or.inl ⟨fun j reached free => ?_, rfl⟩
      unfold Pmm.reached at reached
      rw [found] at reached
      cases reached
      simpa [free] using taken
    | false =>
      obtain ⟨free, fits⟩ : (s.hdr i).inUse = false ∧ len ≤ (s.hdr i).size := by
        simpa using taken
      refine Or.inr ⟨i, found, free, fits, ?_⟩
      obtain ⟨-, aligned, bound⟩ := rep.header_bounds member
      have rounded : roundUpToPage len ≤ (s.hdr i).size :=
        roundUpToPage_le (by omega) aligned fits
      -- The lookup has `header->memory <= addr`, so the front split is never taken.
      have claimed := rep.toLinked.hdr_claim member
      have inside := (rep.claim member).bound i member
      have back : ¬ addr < ((s.claim i).hdr i).memory := by
        rw [claimed]
        exact Nat.not_lt.mpr above
      have unfolded : s.put i { s.hdr i with inUse := true } = s.claim i := rfl
      simp only [pure, Except.pure, ok_bind, Bool.false_eq_true, if_false, if_true,
        rep.claim_eq member free, unfolded, Pmm.header_eq inside, if_neg back]
      obtain ⟨xs, ys, rfl⟩ := List.append_of_mem member
      rcases rep.claim_split free rounded (pageSize_dvd_roundUpToPage len) mapRange with
        ⟨s', l', reserved, returned⟩ | stuck
      · refine Or.inl ⟨s', l', reserved, ?_⟩
        rw [returned, ok_bind]
      · exact Or.inr (stuck.bind _)

end FelineOS.PhysMem
