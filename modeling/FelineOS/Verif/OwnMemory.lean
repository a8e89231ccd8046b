import FelineOS.Kernel.PmmBoot
import FelineOS.Spec.FirstChunk
import FelineOS.Verif.CarvingApart
import FelineOS.Verif.Split

/-!
# When the manager protects its own headers

The place of the first chunk, the headers and the reservation are computed by three parts of
`start_phys_mem_manager` that know nothing of each other. The place is rounded up to a page and the
start of a header down, so the header that holds the place can start before it, and
`get_mem_area(addr, len)` reserves from the start of the header it finds. The headers that the
carving leaves may overlap, so nothing here assumes a proper layout: `Face` is what one slot says
about memory, and the effect of the reservation is read off the faces of all slots.
-/

namespace FelineOS.PhysMem

open Library
open Boot (Region Span addAvailableRegions)

variable {s s' s₁ : Pmm} {i j t len : Nat} {h : PhysMemHeader} {mapRange : MapRange}
  {taken : Option Nat}

/-! ## Faces -/

/-- What a header says about memory: its range with `in_use`, and `header_in_use`. -/
structure Face where
  /-- The range. -/
  block : Block
  /-- Whether the header controls it. -/
  live : Bool
  deriving DecidableEq

/-- The face of a header. -/
def PhysMemHeader.face (h : PhysMemHeader) : Face := ⟨h.block, h.headerInUse⟩

/-- The face of a slot. -/
def Pmm.face (s : Pmm) (j : Nat) : Face := (s.hdr j).face

/-- The byte lies in a free header. -/
def Pmm.FreeIn (s : Pmm) (x : Nat) : Prop :=
  ∃ j, (s.face j).live = true ∧ (s.face j).block.used = false ∧ (s.face j).block.Has x

/-- The faces after a write. -/
theorem face_put (inside : i < s.slots.length) :
    (s.put i h).face j = if j = i then h.face else s.face j := by
  unfold Pmm.face
  rw [Pmm.hdr_put inside]
  split <;> rfl

/-- The faces after a change that returned. -/
theorem face_modify {f : PhysMemHeader → PhysMemHeader} (returns : s.modify i f = .ok s') (j : Nat) :
    s'.face j = if j = i then (f (s.hdr i)).face else s.face j := by
  obtain ⟨inside, rfl⟩ := modify_ok returns
  exact face_put inside

/-- A change of the links leaves every face. -/
theorem face_modify_links {f : PhysMemHeader → PhysMemHeader} (returns : s.modify i f = .ok s')
    (links : ∀ h, (f h).face = h.face) (j : Nat) : s'.face j = s.face j := by
  rw [face_modify returns j]
  split
  · rename_i same
    rw [same]
    exact links _
  · rfl

/-! ## The header for a split -/

/-- What `get_new_header` leaves of the slots: the ranges, and every flag but that of a header that
becomes a chunk and that of the header it returns. -/
structure Keeps (s s' : Pmm) (taken : Option Nat) : Prop where
  /-- The ranges are kept. -/
  range : ∀ j, (s'.hdr j).memory = (s.hdr j).memory ∧ (s'.hdr j).size = (s.hdr j).size
  /-- No header is freed. -/
  inUse : ∀ j, (s.hdr j).inUse = true → (s'.hdr j).inUse = true
  /-- Only the header it returns comes into use. -/
  live : ∀ j, (s'.hdr j).headerInUse = true → (s.hdr j).headerInUse = true ∨ taken = some j
  /-- That header was not in use. -/
  fresh : ∀ j, taken = some j → (s.hdr j).headerInUse = false

/-- Nothing has happened. -/
theorem Keeps.refl (s : Pmm) : Keeps s s none :=
  ⟨fun _ => ⟨rfl, rfl⟩, fun _ => id, fun _ => Or.inl, fun _ none => nomatch none⟩

/-- The slots decide. -/
theorem Keeps.of_hdr {other : Pmm} (keeps : Keeps s s' taken) (same : ∀ j, other.hdr j = s'.hdr j) :
    Keeps s other taken := by
  refine ⟨fun j => ?_, fun j => ?_, fun j => ?_, keeps.fresh⟩
  · rw [same j]
    exact keeps.range j
  · rw [same j]
    exact keeps.inUse j
  · rw [same j]
    exact keeps.live j

/-- A search that starts from a state in which only a chunk was made. -/
theorem Keeps.trans (first : Keeps s s₁ none) (second : Keeps s₁ s' taken)
    (flags : ∀ j, (s₁.hdr j).headerInUse = (s.hdr j).headerInUse) : Keeps s s' taken := by
  refine ⟨fun j => ?_, fun j used => second.inUse j (first.inUse j used), fun j flag => ?_,
    fun j found => ?_⟩
  · obtain ⟨memory, size⟩ := first.range j
    obtain ⟨memory', size'⟩ := second.range j
    exact ⟨memory'.trans memory, size'.trans size⟩
  · rw [← flags j]
    exact second.live j flag
  · rw [← flags j]
    exact second.fresh j found

/-- The search loop marks the header it returns. -/
theorem takeFrom_keeps {fuel : Nat} {cursor : Option Nat}
    (returned : s.takeFrom fuel cursor = .ok (taken, s')) : Keeps s s' taken := by
  induction fuel generalizing cursor with
  | zero =>
    cases cursor with
    | none =>
      cases returned
      exact .refl s
    | some c => cases returned
  | succ fuel ih =>
    cases cursor with
    | none =>
      cases returned
      exact .refl s
    | some c =>
      simp only [Pmm.takeFrom] at returned
      obtain ⟨next, -, body⟩ := of_bind_ok returned
      cases found : s.unusedIn c with
      | none =>
        rw [found] at body
        exact ih body
      | some i =>
        rw [found] at body
        obtain ⟨inside, clear⟩ := unusedIn_some found
        simp only [Pmm.header_eq inside, ok_bind] at body
        obtain ⟨-, body⟩ := assert_ok body
        obtain ⟨-, body⟩ := assert_ok body
        cases body
        have read := fun j => Pmm.hdr_put (h := { s.hdr i with headerInUse := true }) (j := j) inside
        refine ⟨fun j => ?_, fun j => ?_, fun j => ?_, fun j same => ?_⟩
        · rw [read j]
          split <;> simp_all
        · rw [read j]
          split <;> simp_all
        · rw [read j]
          split <;> simp_all
        · cases same
          exact clear

/-- A slot that a pointer names. -/
theorem header_ok (returned : s.header i = .ok h) : i < s.slots.length ∧ h = s.hdr i := by
  have inside : i < s.slots.length := by
    by_contra outside
    simp [Pmm.header, List.getElem?_eq_none (Nat.le_of_not_lt outside)] at returned
  rw [Pmm.header_eq inside] at returned
  exact ⟨inside, (Except.ok.inj returned).symm⟩

/-- A claim that returned found a free header. -/
theorem internalClaimMemArea_ok {result : PmmResult}
    (returned : s.internalClaimMemArea i = .ok (result, s')) :
    i < s.slots.length ∧ result = .success ∧ (s.hdr i).inUse = false ∧
      s' = s.put i { s.hdr i with inUse := true } := by
  unfold Pmm.internalClaimMemArea at returned
  obtain ⟨h, read, body⟩ := of_bind_ok returned
  obtain ⟨inside, rfl⟩ := header_ok read
  obtain ⟨-, body⟩ := assert_ok body
  obtain ⟨free, body⟩ := assert_ok body
  obtain ⟨-, body⟩ := assert_ok body
  obtain ⟨-, body⟩ := assert_ok body
  cases body
  exact ⟨inside, rfl, by simpa using free, rfl⟩

/-- Making a chunk claims one free header at most. -/
theorem getHeaderChunk_keeps {new : Option Nat}
    (returned : s.getHeaderChunk mapRange = .ok (new, s')) :
    Keeps s s' none ∧ ∀ j, (s'.hdr j).headerInUse = (s.hdr j).headerInUse := by
  unfold Pmm.getHeaderChunk Host.getHeaderChunk Pmm.host at returned
  obtain ⟨found, -, body⟩ := of_bind_ok returned
  cases found with
  | none =>
    cases body
    exact ⟨.refl s, fun _ => rfl⟩
  | some k =>
    obtain ⟨⟨result, claimed⟩, claims, body⟩ := of_bind_ok body
    obtain ⟨inside, rfl, free, rfl⟩ := internalClaimMemArea_ok claims
    have read := fun j => Pmm.hdr_put (h := { s.hdr k with inUse := true }) (j := j) inside
    simp only [bne_self_eq_false, Bool.false_eq_true, if_false, ok_bind] at body
    cases outcome : mapRange (s.put k { s.hdr k with inUse := true }) with
    | failed =>
      rw [outcome] at body
      obtain ⟨undone, writes, last⟩ := of_bind_ok body
      cases last
      obtain ⟨-, rfl⟩ := modify_ok writes
      have restored : { s.hdr k with inUse := false } = s.hdr k := by rw [← free]
      rw [read k, if_pos rfl, Pmm.put_put, restored, Pmm.put_hdr inside]
      exact ⟨.refl s, fun _ => rfl⟩
    | mapped next =>
      rw [outcome] at body
      have after : ∀ j, s'.hdr j = if j = k then { s.hdr k with inUse := true } else s.hdr j := by
        cases body
        exact fun j => hdr_grow next inside
      refine ⟨⟨fun j => ?_, fun j => ?_, fun j => ?_, fun _ none => nomatch none⟩, fun j => ?_⟩
      all_goals
        rw [after j]
        split <;> simp_all

/-- `get_new_header` in any state. -/
theorem getNewHeader_keeps (returned : s.getNewHeader mapRange = .ok (taken, s')) :
    Keeps s s' taken := by
  unfold Pmm.getNewHeader Host.getNewHeader Pmm.host at returned
  simp only [Pmm.host_getHeaderChunk, bind_pair] at returned
  obtain ⟨-, body⟩ := assert_ok returned
  split at body
  · obtain ⟨last, -, body⟩ := of_bind_ok body
    obtain ⟨⟨new, made⟩, making, body⟩ := of_bind_ok body
    obtain ⟨keeps, flags⟩ := getHeaderChunk_keeps making
    refine Keeps.trans ?_ (takeFrom_keeps body) flags
    exact keeps.of_hdr fun _ => rfl
  · exact takeFrom_keeps body

/-! ## The split -/

/-- The last two writes of `split_header_at_len` change the face of the header they are made to, and
leave it handed out or not. -/
theorem face_shortened {s₁ s₂ : Pmm} {follower : Option Nat} {rest : Nat}
    (links : s₁.modify i (fun h => { h with next := follower }) = .ok s₂)
    (sizes : s₂.modify i (fun h => { h with size := rest }) = .ok s') :
    (∀ j ≠ i, s'.face j = s₁.face j) ∧
      (s'.face i).block.used = (s₁.face i).block.used := by
  constructor
  · intro j different
    rw [face_modify sizes j, if_neg different, face_modify links j, if_neg different]
  · have linksFace := face_modify links i
    rw [if_pos rfl] at linksFace
    have before : (s₂.hdr i).inUse = (s₁.hdr i).inUse :=
      congrArg (fun f : Face => f.block.used) linksFace
    rw [face_modify sizes i, if_pos rfl]
    exact before

/-- What `split_header_at_len` does in any state: the header keeps its range, or the bytes behind
the length go to a header that was not in use. -/
theorem splitHeaderAtLen_ok (returned : s.splitHeaderAtLen mapRange i len = .ok s') :
    (s.hdr i).inUse = true ∧ (s.hdr i).headerInUse = true ∧
      (((s.hdr i).size = len ∧ s' = s) ∨
        ((s.hdr i).size ≠ len ∧ s.getNewHeader mapRange = .ok (none, s')) ∨
        (s.hdr i).size ≠ len ∧ ∃ t s₁, s.getNewHeader mapRange = .ok (some t, s₁) ∧ t ≠ i ∧
          (s'.face i).block.used = true ∧
          ∀ j ≠ i, s'.face j =
            if j = t then ⟨⟨(s.hdr i).memory + len, (s.hdr i).size - len, false⟩, true⟩
            else s₁.face j) := by
  unfold Pmm.splitHeaderAtLen Host.splitHeaderAtLen Pmm.host at returned
  simp only [Pmm.host_getNewHeader, bind_pure] at returned
  obtain ⟨h, read, body⟩ := of_bind_ok returned
  obtain ⟨inside, rfl⟩ := header_ok read
  obtain ⟨live, body⟩ := assert_ok body
  obtain ⟨used, body⟩ := assert_ok body
  obtain ⟨-, body⟩ := assert_ok body
  obtain ⟨-, body⟩ := assert_ok body
  obtain ⟨-, body⟩ := assert_ok body
  refine ⟨used, live, ?_⟩
  split at body
  · rename_i whole
    cases body
    exact Or.inl ⟨whole, rfl⟩
  · rename_i short
    obtain ⟨⟨found, s₁⟩, supplied, body⟩ := of_bind_ok body
    cases found with
    | none =>
      cases body
      exact Or.inr (Or.inl ⟨short, supplied⟩)
    | some t =>
      refine Or.inr (Or.inr ⟨short, t, s₁, supplied, ?_⟩)
      have keeps := getNewHeader_keeps supplied
      obtain ⟨memory, size⟩ := keeps.range i
      have other : t ≠ i := by
        rintro rfl
        rw [keeps.fresh t rfl] at live
        contradiction
      obtain ⟨temp, readT, body⟩ := of_bind_ok body
      obtain ⟨insideT, rfl⟩ := header_ok readT
      obtain ⟨-, body⟩ := assert_ok body
      obtain ⟨-, body⟩ := assert_ok body
      obtain ⟨h, readI, body⟩ := of_bind_ok body
      obtain ⟨-, rfl⟩ := header_ok readI
      obtain ⟨start, sum, body⟩ := of_bind_ok body
      obtain ⟨left, difference, body⟩ := of_bind_ok body
      -- The follower is linked to the new header, which leaves the faces alone.
      obtain ⟨s₃, faces, body⟩ : ∃ s₃ : Pmm, (∀ j, s₃.face j = if j = t then
          ⟨⟨start, left, false⟩, true⟩ else s₁.face j) ∧
          (s₃.modify i (fun h => { h with next := some t }) >>= fun s =>
            pageSub (s₁.hdr i).size left >>= fun rest =>
              s.modify i fun h => { h with size := rest }) = .ok s' := by
        cases link : (s₁.hdr i).next with
        | none =>
          rw [link] at body
          exact ⟨_, fun j => face_put insideT, body⟩
        | some n =>
          rw [link] at body
          obtain ⟨s₃, writes, body⟩ := of_bind_ok body
          refine ⟨s₃, fun j => ?_, body⟩
          rw [face_modify_links writes (fun _ => rfl) j]
          exact face_put insideT
      obtain ⟨s₄, links, body⟩ := of_bind_ok body
      obtain ⟨rest, -, sizes⟩ := of_bind_ok body
      obtain ⟨final, stays⟩ := face_shortened links sizes
      have startEq : start = (s.hdr i).memory + len := by
        rw [pageAdd_eq sum, memory]
      have leftEq : left = (s.hdr i).size - len := by
        rw [(pageSub_eq difference).2, size]
      refine ⟨other, ?_, fun j different => ?_⟩
      · rw [stays, faces i, if_neg (Ne.symm other)]
        exact keeps.inUse i used
      · rw [final j different, faces j, startEq, leftEq]

/-! ## The reservation -/

section Reservation

variable {addr : Nat} {result : PmmResult} {found : Option Nat}

/-- What `get_mem_area(addr, len)` does in any state, once its lookup is known. -/
theorem getMemAreaAt_ok (looked : s.find (Pmm.PhysMemHeader.reaches addr) = .ok found)
    (returned : s.getMemAreaAt mapRange addr len = .ok (result, s')) :
    (s' = s ∧ ∀ i, found = some i → (s.hdr i).inUse = true ∨ (s.hdr i).size < len) ∨
      ∃ i, found = some i ∧ (s.hdr i).inUse = false ∧ len ≤ (s.hdr i).size ∧
        i < s.slots.length ∧ (¬ addr < (s.hdr i).memory →
          (s.put i { s.hdr i with inUse := true }).splitHeaderAtLen mapRange i (roundUpToPage len) =
            .ok s') := by
  unfold Pmm.getMemAreaAt Host.getMemAreaAt Pmm.host Pmm.findHeaderForPage at returned
  simp only [Pmm.host_splitHeaderAtLen] at returned
  rw [looked, ok_bind] at returned
  cases found with
  | none =>
    cases returned
    exact Or.inl ⟨rfl, by simp⟩
  | some i =>
    obtain ⟨chosen, choosing, body⟩ := of_bind_ok returned
    obtain ⟨h, read, choosing⟩ := of_bind_ok choosing
    obtain ⟨inside, rfl⟩ := header_ok read
    cases choosing
    cases taken : (s.hdr i).inUse || decide ((s.hdr i).size < len) with
    | true =>
      rw [taken, if_pos rfl] at body
      cases body
      refine Or.inl ⟨rfl, fun j same => ?_⟩
      cases same
      simpa using taken
    | false =>
      rw [taken, if_neg (by simp)] at body
      obtain ⟨free, fits⟩ : (s.hdr i).inUse = false ∧ len ≤ (s.hdr i).size := by simpa using taken
      refine Or.inr ⟨i, rfl, free, fits, inside, fun above => ?_⟩
      obtain ⟨⟨temp, claimed⟩, claims, body⟩ := of_bind_ok body
      obtain ⟨-, rfl, -, rfl⟩ := internalClaimMemArea_ok claims
      have kept : ((s.put i { s.hdr i with inUse := true }).hdr i).memory = (s.hdr i).memory := by
        rw [Pmm.hdr_put inside, if_pos rfl]
      simp only [if_true, Pmm.header_eq (s := s.put i { s.hdr i with inUse := true })
        (by simpa using inside), ok_bind, kept, if_neg above, pure, Except.pure] at body
      obtain ⟨s₁, splits, last⟩ := of_bind_ok body
      cases last
      exact splits

/-- The free header `j`, other than `i`, has the byte. -/
def Pmm.FreeBeside (s : Pmm) (i x : Nat) : Prop :=
  ∃ j ≠ i, (s.face j).live = true ∧ (s.face j).block.used = false ∧ (s.face j).block.Has x

/-- The byte lies behind the first `len` of the header `i`. -/
def Pmm.Behind (s : Pmm) (i len x : Nat) : Prop :=
  (s.hdr i).memory + len ≤ x ∧ x < (s.hdr i).memory + (s.hdr i).size

section Split

variable (inside : i < s.slots.length)
  (splits : (s.put i { s.hdr i with inUse := true }).splitHeaderAtLen mapRange i len = .ok s')

include inside splits

/-- After the reservation a free byte lies in another free header, or behind the length reserved. -/
theorem freeIn_split {x : Nat} (free : s'.FreeIn x) : s.FreeBeside i x ∨ s.Behind i len x := by
  have claimed := Pmm.hdr_put (h := { s.hdr i with inUse := true }) (j := i) inside
  rw [if_pos rfl] at claimed
  have faces := fun j => face_put (h := { s.hdr i with inUse := true }) (j := j) inside
  obtain ⟨used, -, cases⟩ := splitHeaderAtLen_ok splits
  rw [claimed] at cases
  obtain ⟨j, live, unused, has⟩ := free
  -- A header that is neither `i` nor the new one is as it was before the claim.
  have before : ∀ {s₁ taken}, Keeps (s.put i { s.hdr i with inUse := true }) s₁ taken →
      taken ≠ some j → s'.face j = s₁.face j → s.FreeBeside i x := by
    intro s₁ taken keeps other same
    rw [same] at live unused has
    have different : j ≠ i := by
      rintro rfl
      rw [show (s₁.face j).block.used = true from keeps.inUse j used] at unused
      contradiction
    have flag := (keeps.live j live).resolve_right other
    have free : ((s.put i { s.hdr i with inUse := true }).hdr j).inUse = false := by
      by_contra taken
      rw [Bool.not_eq_false] at taken
      rw [show (s₁.face j).block.used = true from keeps.inUse j taken] at unused
      contradiction
    obtain ⟨memory, size⟩ := keeps.range j
    have bytes : ((s.put i { s.hdr i with inUse := true }).face j).block.Has x := by
      unfold Block.Has Block.stop at has ⊢
      simp only [Pmm.face, PhysMemHeader.face, PhysMemHeader.block, memory, size] at has ⊢
      exact has
    have face := faces j
    rw [if_neg different] at face
    refine ⟨j, different, ?_, ?_, ?_⟩
    · rw [← face]
      exact flag
    · rw [← face]
      exact free
    · rw [← face]
      exact bytes
  rcases cases with ⟨-, rfl⟩ | ⟨-, supplied⟩ | ⟨-, t, s₁, supplied, other, handed, others⟩
  · exact Or.inl (before (.refl _) (by simp) rfl)
  · exact Or.inl (before (getNewHeader_keeps supplied) (by simp) rfl)
  · have different : j ≠ i := by
      rintro rfl
      rw [handed] at unused
      contradiction
    have face := others j different
    by_cases new : j = t
    · rw [if_pos new] at face
      rw [face] at has
      refine Or.inr ⟨has.1, ?_⟩
      have stop := has.2
      have start := has.1
      simp only [Block.stop] at stop start
      omega
    · rw [if_neg new] at face
      exact Or.inl (before (getNewHeader_keeps supplied) (by simpa using Ne.symm new) face)

/-- With a spare header nothing else changes. -/
theorem freeIn_split_iff {l : List Nat} (linked : Linked s l)
    (spare : l.length + 1 < s.slots.length) (fits : len ≤ (s.hdr i).size) (x : Nat) :
    s'.FreeIn x ↔ s.FreeBeside i x ∨ s.Behind i len x := by
  refine ⟨freeIn_split inside splits, fun free => ?_⟩
  have faces := fun j => face_put (h := { s.hdr i with inUse := true }) (j := j) inside
  have claimed := Pmm.hdr_put (h := { s.hdr i with inUse := true }) (j := i) inside
  rw [if_pos rfl] at claimed
  have linked' : Linked (s.put i { s.hdr i with inUse := true }) l :=
    linked.put inside rfl rfl rfl rfl
  obtain ⟨-, -, cases⟩ := splitHeaderAtLen_ok splits
  rw [claimed] at cases
  rcases cases with ⟨whole, rfl⟩ | ⟨-, supplied⟩ | ⟨short, t, s₁, supplied, other, -, others⟩
  · rcases free with ⟨j, different, live, unused, has⟩ | behind
    · refine ⟨j, ?_⟩
      rw [faces j, if_neg different]
      exact ⟨live, unused, has⟩
    · unfold Pmm.Behind at behind
      simp only at whole
      omega
  · rcases linked'.getNewHeader_spec mapRange (Or.inr (by simpa using spare)) with
      ⟨-, -, full⟩ | ⟨s₁, t, -, -, -, given⟩
    · rw [Pmm.put_length] at full
      omega
    · rw [supplied] at given
      cases given
  · rcases linked'.getNewHeader_spec mapRange (Or.inr (by simpa using spare)) with
      ⟨-, -, full⟩ | ⟨s₂, t', supply, fresh, bound, given⟩
    · rw [Pmm.put_length] at full
      omega
    · rw [supplied] at given
      cases given
      have same : s₂ = s.put i { s.hdr i with inUse := true } := by
        cases supply with
        | same _ => rfl
        | grown full _ _ _ _ _ _ =>
          rw [Pmm.put_length] at full
          omega
      subst same
      rcases free with ⟨j, different, live, unused, has⟩ | behind
      · have old : j ≠ t := by
          rintro rfl
          have listed := (linked.live j (by simpa using bound)).mp live
          exact fresh listed
        refine ⟨j, ?_⟩
        rw [others j different, if_neg old, face_put bound, if_neg old, faces j, if_neg different]
        exact ⟨live, unused, has⟩
      · refine ⟨t, ?_⟩
        rw [others t other, if_pos rfl]
        refine ⟨rfl, rfl, behind.1, ?_⟩
        have stop := behind.2
        simp only [Block.stop]
        omega

end Split

end Reservation

/-! ## The promise -/

/-- The bytes of the first chunk lie in no free header. -/
def Protected (s : Pmm) (place size : Nat) : Prop :=
  ∀ x, place ≤ x → x < place + size → ¬ s.FreeIn x

/-- The header has no byte of the first chunk. -/
def ClearOf (place size : Nat) (h : Span) : Prop :=
  ∀ x, place ≤ x → x < place + size → ¬ h.Has x

/-- The lookup of `get_mem_area(addr, len)` accepts the header. -/
def Reaches (place : Nat) (h : Span) : Prop :=
  h.memory ≤ place ∧ place ≤ wrap (h.memory + h.size)

/-- The header at position `i` is the first that the lookup accepts. -/
structure FirstReaching (headers : List Span) (place i : Nat) (h : Span) : Prop where
  /-- It is there. -/
  here : headers[i]? = some h
  /-- The lookup accepts it. -/
  reaches : Reaches place h
  /-- It has accepted none before. -/
  first : ∀ j < i, ∀ g, headers[j]? = some g → ¬ Reaches place g

/-- No carved header has a byte of the first chunk, or only the first one that the lookup accepts
does, which is long enough and starts at the chunk or is as long as the chunk. -/
def Guarded (headers : List Span) (place size : Nat) : Prop :=
  (∀ h ∈ headers, ClearOf place size h) ∨
    ∃ i h, FirstReaching headers place i h ∧ size ≤ h.size ∧
      (h.memory = place ∨ h.size = size) ∧
      ∀ j ≠ i, ∀ g, headers[j]? = some g → ClearOf place size g

/-- There is one first header. -/
theorem FirstReaching.unique {headers : List Span} {place i j : Nat} {g h : Span}
    (one : FirstReaching headers place i g) (two : FirstReaching headers place j h) :
    i = j ∧ g = h := by
  have same : i = j := by
    rcases Nat.lt_trichotomy i j with before | same | behind
    · exact absurd one.reaches (two.first i before g one.here)
    · exact same
    · exact absurd two.reaches (one.first j behind h two.here)
  subst same
  exact ⟨rfl, Option.some.inj (one.here.symm.trans two.here)⟩

/-! ## The first chunk -/

section FirstChunk

variable {headers : List Span}

/-- The headers of the carved ranges. -/
theorem hdr_firstChunk (inside : i < headers.length) :
    (Pmm.firstChunk headers).hdr i = Pmm.filledHeader headers.length i headers[i] := by
  simp [Pmm.hdr, Pmm.firstChunk, List.getElem?_append_left, inside]

/-- The other headers are not in use. -/
theorem hdr_firstChunk_of_le (outside : headers.length ≤ i) :
    ((Pmm.firstChunk headers).hdr i).headerInUse = false ∧
      ((Pmm.firstChunk headers).hdr i).canary = canaryBytes := by
  by_cases slot : i - headers.length < headersPerChunk - headers.length
  · have read : (Pmm.firstChunk headers).hdr i = Pmm.clearedHeader := by
      simp [Pmm.hdr, Pmm.firstChunk, List.getElem?_append_right, outside, slot]
    rw [read]
    exact ⟨rfl, rfl⟩
  · have read : (Pmm.firstChunk headers).hdr i = Pmm.emptyHeader := by
      simp [Pmm.hdr, Pmm.firstChunk, List.getElem?_append_right, outside, Nat.le_of_not_lt slot]
    rw [read]
    exact ⟨rfl, rfl⟩

/-- The bytes of the carved ranges are the free bytes. -/
theorem freeIn_firstChunk (x : Nat) :
    (Pmm.firstChunk headers).FreeIn x ↔ ∃ h ∈ headers, h.Has x := by
  constructor
  · rintro ⟨j, live, -, has⟩
    by_cases inside : j < headers.length
    · unfold Pmm.face at has
      rw [hdr_firstChunk inside] at has
      exact ⟨headers[j], List.getElem_mem inside, has⟩
    · unfold Pmm.face PhysMemHeader.face at live
      rw [(hdr_firstChunk_of_le (Nat.le_of_not_lt inside)).1] at live
      contradiction
  · rintro ⟨h, member, has⟩
    obtain ⟨j, inside, rfl⟩ := List.getElem_of_mem member
    refine ⟨j, ?_⟩
    unfold Pmm.face
    rw [hdr_firstChunk inside]
    exact ⟨rfl, rfl, has⟩

/-- The free bytes beside a header are those of the other ranges. -/
theorem freeBeside_firstChunk (i x : Nat) :
    (Pmm.firstChunk headers).FreeBeside i x ↔ ∃ j ≠ i, ∃ g, headers[j]? = some g ∧ g.Has x := by
  constructor
  · rintro ⟨j, different, live, -, has⟩
    by_cases inside : j < headers.length
    · unfold Pmm.face at has
      rw [hdr_firstChunk inside] at has
      exact ⟨j, different, headers[j], List.getElem?_eq_getElem inside, has⟩
    · unfold Pmm.face PhysMemHeader.face at live
      rw [(hdr_firstChunk_of_le (Nat.le_of_not_lt inside)).1] at live
      contradiction
  · rintro ⟨j, different, g, read, has⟩
    obtain ⟨inside, rfl⟩ := List.getElem?_eq_some_iff.mp read
    refine ⟨j, different, ?_⟩
    unfold Pmm.face
    rw [hdr_firstChunk inside]
    exact ⟨rfl, rfl, has⟩

variable (fits : headers.length ≤ headersPerChunk)

include fits

/-- The carved headers are in use by position. -/
theorem byPosition_firstChunk : ByPosition (Pmm.firstChunk headers) headers.length := by
  refine ⟨?_, rfl, ⟨rfl, rfl⟩, ?_, ?_, ?_, ?_⟩
  · simp only [Pmm.firstChunk, List.length_append, List.length_mapIdx, List.length_replicate]
    omega
  · intro i inside
    unfold Pmm.next
    rw [hdr_firstChunk inside]
    rfl
  · intro i inside
    unfold Pmm.prev
    rw [hdr_firstChunk inside]
    rfl
  · intro i
    by_cases inside : i < headers.length
    · rw [hdr_firstChunk inside]
      simp [Pmm.filledHeader, inside]
    · simp [(hdr_firstChunk_of_le (Nat.le_of_not_lt inside)).1, inside]
  · intro i
    by_cases inside : i < headers.length
    · rw [hdr_firstChunk inside]
      rfl
    · exact (hdr_firstChunk_of_le (Nat.le_of_not_lt inside)).2

/-- A lookup in the first chunk, when there is a header at all. -/
theorem find_firstChunk (filled : 0 < headers.length) (test : PhysMemHeader → Bool) :
    (Pmm.firstChunk headers).find test =
      .ok ((List.range headers.length).find? fun i => test ((Pmm.firstChunk headers).hdr i)) := by
  have positions := byPosition_firstChunk fits
  have first : (Pmm.firstChunk headers).firstHeader = (List.range headers.length).head? := by
    rw [List.range_eq_range', List.head?_range', if_neg (Nat.ne_of_gt filled)]
    rfl
  unfold Pmm.find
  rw [first]
  refine findFrom_eq test positions.links ?_ ?_ ?_
  · intro i member
    rw [positions.slots]
    exact Nat.lt_of_lt_of_le (List.mem_range.mp member) fits
  · exact fun i member => (positions.live i).mpr (List.mem_range.mp member)
  · rw [positions.slots, List.length_range]
    omega

/-- Without a header the lookup fails an assertion. -/
theorem find_firstChunk_empty (empty : headers.length = 0) (test : PhysMemHeader → Bool) :
    (Pmm.firstChunk headers).find test = .error .assertion := by
  have positions := byPosition_firstChunk fits
  have inside : 0 < (Pmm.firstChunk headers).slots.length := by
    rw [positions.slots]
    decide
  have unused := (hdr_firstChunk_of_le (Nat.le_of_eq empty)).1
  have first : (Pmm.firstChunk headers).firstHeader = some 0 := rfl
  unfold Pmm.find
  rw [first, Pmm.findFrom, Pmm.header_eq inside, ok_bind, unused]
  rfl

omit fits in
/-- The lookup test on a carved header. -/
theorem reaches_firstChunk {place : Nat} (inside : i < headers.length) :
    Pmm.PhysMemHeader.reaches place ((Pmm.firstChunk headers).hdr i) = true ↔
      Reaches place headers[i] := by
  unfold Pmm.PhysMemHeader.reaches
  rw [hdr_firstChunk inside, Bool.and_eq_true, decide_eq_true_iff, decide_eq_true_iff]
  rfl

omit fits in
/-- The lookup in the first chunk stops at the first carved header it accepts. -/
theorem found_firstChunk {place : Nat} :
    ((List.range headers.length).find? fun i =>
        Pmm.PhysMemHeader.reaches place ((Pmm.firstChunk headers).hdr i)) = some i ↔
      ∃ h, FirstReaching headers place i h := by
  rw [List.find?_range_eq_some]
  constructor
  · rintro ⟨accepted, member, earlier⟩
    have inside := List.mem_range.mp member
    refine ⟨headers[i], List.getElem?_eq_getElem inside, (reaches_firstChunk inside).mp accepted, ?_⟩
    intro j before g read
    obtain ⟨insideJ, rfl⟩ := List.getElem?_eq_some_iff.mp read
    have refused := earlier j before
    rw [Bool.not_eq_true', ← Bool.not_eq_true, reaches_firstChunk insideJ] at refused
    exact refused
  · rintro ⟨h, here, reaches, first⟩
    obtain ⟨inside, rfl⟩ := List.getElem?_eq_some_iff.mp here
    refine ⟨(reaches_firstChunk inside).mpr reaches, List.mem_range.mpr inside, fun j before => ?_⟩
    have insideJ : j < headers.length := Nat.lt_trans before inside
    rw [Bool.not_eq_true', ← Bool.not_eq_true, reaches_firstChunk insideJ]
    exact first j before _ (List.getElem?_eq_getElem insideJ)

/-- What the reservation does to the first chunk: nothing, where the first header that the lookup
accepts is too short, or a split of that header. -/
theorem firstChunk_reserve {place size : Nat} {result : PmmResult}
    (rounded : roundUpToPage size = size)
    (returned : (Pmm.firstChunk headers).getMemAreaAt mapRange place size = .ok (result, s')) :
    (s' = Pmm.firstChunk headers ∧ ∀ i h, FirstReaching headers place i h → h.size < size) ∨
      ∃ i h, FirstReaching headers place i h ∧ size ≤ h.size ∧
        i < (Pmm.firstChunk headers).slots.length ∧
        ((Pmm.firstChunk headers).put i
          { (Pmm.firstChunk headers).hdr i with inUse := true }).splitHeaderAtLen mapRange i size =
            .ok s' := by
  have filled : 0 < headers.length := by
    apply Nat.pos_of_ne_zero
    intro empty
    unfold Pmm.getMemAreaAt Host.getMemAreaAt Pmm.host Pmm.findHeaderForPage at returned
    dsimp only at returned
    rw [find_firstChunk_empty fits empty] at returned
    cases returned
  -- A carved header is free and reads as it was carved.
  have reads : ∀ {i h}, FirstReaching headers place i h →
      ((Pmm.firstChunk headers).hdr i).inUse = false ∧
        ((Pmm.firstChunk headers).hdr i).memory = h.memory ∧
        ((Pmm.firstChunk headers).hdr i).size = h.size := by
    intro i h reaching
    obtain ⟨inside, rfl⟩ := List.getElem?_eq_some_iff.mp reaching.here
    rw [hdr_firstChunk inside]
    exact ⟨rfl, rfl, rfl⟩
  rcases getMemAreaAt_ok (find_firstChunk fits filled _) returned with
    ⟨same, refused⟩ | ⟨i, found, -, enough, inside, splits⟩
  · refine Or.inl ⟨same, fun i h reaching => ?_⟩
    obtain ⟨free, -, size⟩ := reads reaching
    have short := refused i (found_firstChunk.mpr ⟨h, reaching⟩)
    rw [free, size] at short
    simpa using short
  · obtain ⟨h, reaching⟩ := found_firstChunk.mp found
    obtain ⟨-, memory, size⟩ := reads reaching
    rw [size] at enough
    rw [memory, rounded] at splits
    exact Or.inr ⟨i, h, reaching, enough, inside, splits (Nat.not_lt.mpr reaching.reaches.1)⟩

end FirstChunk

/-! ## The whole start -/

/-- The size of the first chunk is a number of pages that fits in a word. -/
theorem roundUpToPage_headersNeededSize (n : Nat) :
    roundUpToPage (headersNeededSize n) = headersNeededSize n := by
  have aligned : pageSize ∣ headersNeededSize n := pageSize_dvd_roundUpToPage _
  have below : headersNeededSize n ≤ roundLimit := by
    have word := pageFloor_mono (Nat.le_of_lt_succ (wrap_lt
      (wrap (wrap (n + 3) * sizeofHeader) + (pageSize - 1))))
    exact word
  obtain ⟨rounded, up, close⟩ := roundUpToPage_spec below
  exact Nat.le_antisymm (roundUpToPage_le below aligned (Nat.le_refl _)) up

section Start

variable {mapHeaders : Nat → Nat → Bool} {fuel place : Nat} {unavailable available : List Region}
  {headers : List Span}

/-- The parts of a start that returned. -/
theorem startPhysMemManager_ok
    (placed : findHeaderSpace unavailable (headersNeededSize available.length) fuel available =
      .ok place)
    (carved : addAvailableRegions unavailable fuel available [] = .ok headers)
    (returned : Pmm.startPhysMemManager mapHeaders mapRange fuel unavailable available = .ok s') :
    headers.length ≤ headersPerChunk ∧ ∃ result,
      (Pmm.firstChunk headers).getMemAreaAt mapRange place (headersNeededSize available.length) =
        .ok (result, s') := by
  unfold Pmm.startPhysMemManager at returned
  simp only [placed, ok_bind, carved] at returned
  split at returned
  · cases returned
  · split at returned
    · cases returned
    · split at returned
      · cases returned
      · rename_i fits
        obtain ⟨⟨result, s⟩, reserved, last⟩ := of_bind_ok returned
        cases last
        exact ⟨Nat.le_of_not_lt fits, result, reserved⟩

/-- A start that returned has found a place and carved the regions. -/
theorem startPhysMemManager_carved
    (placed : findHeaderSpace unavailable (headersNeededSize available.length) fuel available =
      .ok place)
    (returned : Pmm.startPhysMemManager mapHeaders mapRange fuel unavailable available = .ok s') :
    place ≠ 0 ∧ ∃ headers, addAvailableRegions unavailable fuel available [] = .ok headers := by
  unfold Pmm.startPhysMemManager at returned
  simp only [placed, ok_bind] at returned
  split at returned
  · cases returned
  · rename_i found
    split at returned
    · cases returned
    · obtain ⟨headers, carved, -⟩ := of_bind_ok returned
      exact ⟨found, headers, carved⟩

section Split

variable {size : Nat} {i : Nat} {h : Span} (fits : headers.length ≤ headersPerChunk)
  (reaching : FirstReaching headers place i h) (enough : size ≤ h.size)
  (inside : i < (Pmm.firstChunk headers).slots.length)
  (splits : ((Pmm.firstChunk headers).put i
    { (Pmm.firstChunk headers).hdr i with inUse := true }).splitHeaderAtLen mapRange i size = .ok s')

include reaching

/-- The bytes behind the length of the header that was found. -/
theorem behind_firstChunk (x : Nat) :
    (Pmm.firstChunk headers).Behind i size x ↔ h.memory + size ≤ x ∧ x < h.memory + h.size := by
  obtain ⟨listed, rfl⟩ := List.getElem?_eq_some_iff.mp reaching.here
  unfold Pmm.Behind
  rw [hdr_firstChunk listed]
  rfl

include inside splits

/-- A guarded chunk is protected by the split. -/
theorem Guarded.protected_split (guarded : Guarded headers place size) : Protected s' place size := by
  intro x above below free
  have either := freeIn_split inside splits free
  rw [freeBeside_firstChunk, behind_firstChunk reaching] at either
  rcases guarded with clear | ⟨j, g, other, -, fitting, clear⟩
  · rcases either with ⟨j, -, g, read, has⟩ | ⟨start, stop⟩
    · exact clear g (List.mem_of_getElem? read) x above below has
    · refine clear h (List.mem_of_getElem? reaching.here) x above below ⟨?_, stop⟩
      omega
  · obtain ⟨rfl, rfl⟩ := other.unique reaching
    rcases either with ⟨k, different, g, read, has⟩ | ⟨start, stop⟩
    · exact clear k different g read x above below has
    · rcases fitting with same | same <;> omega

include fits enough

/-- With a spare header only a guarded chunk is protected. -/
theorem Protected.guarded_split (spare : headers.length + 1 < headersPerChunk)
    (guard : Protected s' place size) : Guarded headers place size := by
  obtain ⟨listed, -⟩ := List.getElem?_eq_some_iff.mp reaching.here
  have positions := byPosition_firstChunk fits
  have linked : Linked (Pmm.firstChunk headers) (List.range headers.length) := by
    refine positions.linked (by omega) ?_
    rw [if_neg (by omega)]
    rfl
  obtain ⟨-, sameSize⟩ : ((Pmm.firstChunk headers).hdr i).memory = h.memory ∧
      ((Pmm.firstChunk headers).hdr i).size = h.size := by
    obtain ⟨_, rfl⟩ := List.getElem?_eq_some_iff.mp reaching.here
    rw [hdr_firstChunk listed]
    exact ⟨rfl, rfl⟩
  have free := freeIn_split_iff inside splits linked
    (by rwa [positions.slots, List.length_range]) (by rwa [sameSize])
  have nowhere : ∀ x, place ≤ x → x < place + size →
      ¬ (Pmm.firstChunk headers).FreeBeside i x ∧
        ¬ (h.memory + size ≤ x ∧ x < h.memory + h.size) := by
    intro x above below
    have none := guard x above below
    rw [free x, not_or, behind_firstChunk reaching] at none
    exact none
  have others : ∀ j ≠ i, ∀ g, headers[j]? = some g → ClearOf place size g := by
    intro j different g read x above below has
    apply (nowhere x above below).1
    rw [freeBeside_firstChunk]
    exact ⟨j, different, g, read, has⟩
  by_cases fitting : h.memory = place ∨ h.size = size
  · exact Or.inr ⟨i, h, reaching, enough, fitting, others⟩
  · -- The header starts before the chunk and is longer, so it ends before the chunk.
    left
    intro g member x above below has
    obtain ⟨j, insideJ, rfl⟩ := List.getElem_of_mem member
    by_cases same : j = i
    · subst same
      obtain rfl : headers[j] = h :=
        Option.some.inj ((List.getElem?_eq_getElem insideJ).symm.trans reaching.here)
      have start := reaching.reaches.1
      have stop := has.2
      have byte := (nowhere (max (headers[j].memory + size) place) (by omega) (by omega)).2
      omega
    · exact others j same _ (List.getElem?_eq_getElem insideJ) x above below has

end Split

/-- The memory of the first chunk lies in no free header when the chunk is guarded, and, where the
chunk has a spare header, only then. -/
theorem protected_of_guarded
    (placed : findHeaderSpace unavailable (headersNeededSize available.length) fuel available =
      .ok place)
    (carved : addAvailableRegions unavailable fuel available [] = .ok headers)
    (returned : Pmm.startPhysMemManager mapHeaders mapRange fuel unavailable available = .ok s') :
    (Guarded headers place (headersNeededSize available.length) →
        Protected s' place (headersNeededSize available.length)) ∧
      (headers.length + 1 < headersPerChunk →
        Protected s' place (headersNeededSize available.length) →
        Guarded headers place (headersNeededSize available.length)) := by
  obtain ⟨fits, result, reserved⟩ := startPhysMemManager_ok placed carved returned
  rcases firstChunk_reserve fits (roundUpToPage_headersNeededSize _) reserved with
    ⟨rfl, short⟩ | ⟨i, h, reaching, enough, inside, splits⟩
  · constructor
    · rintro (clear | ⟨i, h, reaching, enough, -⟩) x above below free
      · obtain ⟨h, member, has⟩ := (freeIn_firstChunk x).mp free
        exact clear h member x above below has
      · exact absurd (short i h reaching) (Nat.not_lt.mpr enough)
    · intro _ guard
      left
      intro h member x above below has
      exact guard x above below ((freeIn_firstChunk x).mpr ⟨h, member, has⟩)
  · exact ⟨Guarded.protected_split reaching inside splits,
      Protected.guarded_split fits reaching enough inside splits⟩

end Start

end FelineOS.PhysMem
