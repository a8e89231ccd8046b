import FelineOS.Verif.HeaderPool

/-!
# Splitting a header

`split_header_at_len` links a second header in behind the first. `Pmm.cut` is the state it
leaves; `Linked.cut` carries the header list through it and `blocksOf_cut` says what happens
to the blocks. `splitHeaderAtLen_spec` puts both together with the header supply: the header
keeps its whole range, or its range is divided, or the call does not return because the chunk
chain is not sealed.
-/

namespace FelineOS.PhysMem

open Library

variable {s : Pmm} {l xs ys : List Nat} {i t len : Nat} {mapRange : MapRange}

/-- The header `split_header_at_len` builds in the slot `t`. -/
def Pmm.tail (s : Pmm) (i len : Nat) : PhysMemHeader where
  next := s.next i
  prev := some i
  memory := (s.hdr i).memory + len
  size := (s.hdr i).size - len
  inUse := false
  canary := canaryBytes
  headerInUse := true

/-- The state after the slot `t` has been linked in behind `i` at length `len`. -/
def Pmm.cut (s : Pmm) (i t len : Nat) : Pmm :=
  let s' := (s.put t (s.tail i len)).setInUse (s.headersInUse + 1)
  let s' := match s.next i with
    | none => s'
    | some n => s'.put n { s'.hdr n with prev := some t }
  s'.put i { s.hdr i with next := some t, size := len }

/-- A split keeps the slots of the pool. -/
@[simp] theorem cut_length : (s.cut i t len).slots.length = s.slots.length := by
  unfold Pmm.cut
  cases s.next i <;> simp

/-- A split keeps the chunk chain. -/
@[simp] theorem cut_chunkNext : (s.cut i t len).chunkNext = s.chunkNext := by
  unfold Pmm.cut
  cases s.next i <;> rfl

/-- A split keeps the start of the list. -/
@[simp] theorem cut_firstHeader : (s.cut i t len).firstHeader = s.firstHeader := by
  unfold Pmm.cut
  cases s.next i <;> rfl

/-- A split counts one header more. -/
@[simp] theorem cut_headersInUse : (s.cut i t len).headersInUse = s.headersInUse + 1 := by
  unfold Pmm.cut
  cases s.next i <;> rfl

/-- A split allocates no slots. -/
@[simp] theorem cut_headersAllocated : (s.cut i t len).headersAllocated = s.headersAllocated := by
  unfold Pmm.cut
  cases s.next i <;> rfl

section Read

variable (iInside : i < s.slots.length) (tInside : t < s.slots.length)
  (nInside : ∀ n, s.next i = some n → n < s.slots.length ∧ n ≠ i ∧ n ≠ t)

include iInside tInside nInside

/-- What a split leaves in each slot. -/
theorem hdr_cut (j : Nat) : (s.cut i t len).hdr j =
    if j = i then { s.hdr i with next := some t, size := len }
    else if j = t then s.tail i len
    else if s.next i = some j then { s.hdr j with prev := some t }
    else s.hdr j := by
  unfold Pmm.cut
  cases follower : s.next i with
  | none =>
    simp only
    rw [Pmm.hdr_put (by simpa using iInside)]
    by_cases atI : j = i
    · simp [atI]
    · rw [if_neg atI, if_neg atI]
      rw [Pmm.setInUse_hdr, Pmm.hdr_put tInside]
      simp
  | some n =>
    obtain ⟨inside, notI, notT⟩ := nInside n follower
    simp only
    rw [Pmm.hdr_put (by simpa using iInside)]
    by_cases atI : j = i
    · simp [atI]
    · rw [if_neg atI, if_neg atI, Pmm.hdr_put (by simpa using inside)]
      rw [Pmm.setInUse_hdr, Pmm.setInUse_hdr, Pmm.hdr_put tInside, Pmm.hdr_put tInside,
        if_neg notT]
      by_cases atT : j = t
      · rw [if_neg (fun same => notT (same.symm.trans atT)), if_pos atT, if_pos atT]
      · rw [if_neg atT, if_neg atT]
        by_cases atN : j = n
        · subst atN
          simp
        · rw [if_neg atN, if_neg (fun same => atN (Option.some.inj same).symm)]

end Read

/-- The follower of a linked header is linked, and is not the header itself. -/
theorem Linked.next_ne (linked : Linked s (xs ++ i :: ys)) {n : Nat} (link : s.next i = some n) :
    n ∈ ys ∧ n ≠ i ∧ ys.head? = some n := by
  have forward := linked.links.next_eq
  rw [link, Option.or_none] at forward
  have member : n ∈ ys := List.mem_of_mem_head? forward.symm
  refine ⟨member, ?_, forward.symm⟩
  rintro rfl
  have apart := (List.nodup_append.mp linked.nodup).2.1
  exact (List.nodup_cons.mp apart).1 member

section Cut

variable (linked : Linked s (xs ++ i :: ys)) (fresh : t ∉ xs ++ i :: ys)
  (tInside : t < s.slots.length)

include linked fresh tInside

/-- What a split of a linked header leaves in each slot. -/
theorem Linked.hdr_cut (len j : Nat) : (s.cut i t len).hdr j =
    if j = i then { s.hdr i with next := some t, size := len }
    else if j = t then s.tail i len
    else if s.next i = some j then { s.hdr j with prev := some t }
    else s.hdr j := by
  apply PhysMem.hdr_cut (linked.bound i (by simp)) tInside
  intro n link
  obtain ⟨member, notI, -⟩ := linked.next_ne link
  have listed : n ∈ xs ++ i :: ys := by simp [member]
  refine ⟨linked.bound n listed, notI, ?_⟩
  rintro rfl
  exact fresh listed

/-- A slot that is neither the header nor the new one keeps everything but its back link. -/
theorem Linked.hdr_cut_ne (len : Nat) {j : Nat} (notI : j ≠ i) (notT : j ≠ t) :
    ∃ back, (s.cut i t len).hdr j = { s.hdr j with prev := back } ∧
      (ys.head? ≠ some j → back = (s.hdr j).prev) ∧ (ys.head? = some j → back = some t) := by
  rw [linked.hdr_cut fresh tInside, if_neg notI, if_neg notT]
  have forward : s.next i = ys.head? := by simpa using linked.links.next_eq
  rw [forward]
  by_cases follower : ys.head? = some j
  · exact ⟨some t, by rw [if_pos follower], fun away => absurd follower away, fun _ => rfl⟩
  · exact ⟨(s.hdr j).prev, by rw [if_neg follower], fun _ => rfl,
      fun here => absurd here follower⟩

/-- The slots beside the header and the new one are neither of them. -/
theorem Linked.beside_cut {j : Nat} (member : j ∈ xs ++ ys) : j ≠ i ∧ j ≠ t := by
  have apart := List.nodup_middle.mp linked.nodup
  constructor
  · rintro rfl
    exact (List.nodup_cons.mp apart).1 member
  · rintro rfl
    apply fresh
    rcases List.mem_append.mp member with left | right
    · simp [left]
    · simp [right]

/-- The links after a split. -/
theorem Linked.cut_links (len : Nat) :
    Chain (s.cut i t len).next (s.cut i t len).prev none (xs ++ i :: t :: ys) none := by
  have notTI : t ≠ i := by
    rintro rfl
    exact fresh (by simp)
  have atI := linked.hdr_cut fresh tInside len i
  have atT := linked.hdr_cut fresh tInside len t
  rw [if_pos rfl] at atI
  rw [if_neg notTI, if_pos rfl] at atT
  have nextOf : ∀ j ∈ xs ++ ys, (s.cut i t len).next j = s.next j := by
    intro j member
    obtain ⟨notI, notT⟩ := linked.beside_cut fresh tInside member
    obtain ⟨back, eq, -⟩ := linked.hdr_cut_ne fresh tInside len notI notT
    unfold Pmm.next
    rw [eq]
  apply linked.links.insert
  · unfold Pmm.next
    rw [atT]
    rfl
  · unfold Pmm.prev
    rw [atT]
    rfl
  · unfold Pmm.next
    rw [atI]
  · unfold Pmm.prev
    rw [atI]
  · intro j head
    have member : j ∈ xs ++ ys := by simp [List.mem_of_mem_head? head]
    obtain ⟨notI, notT⟩ := linked.beside_cut fresh tInside member
    obtain ⟨back, eq, -, here⟩ := linked.hdr_cut_ne fresh tInside len notI notT
    refine ⟨?_, nextOf j member⟩
    unfold Pmm.prev
    rw [eq]
    exact here head
  · intro j member
    have listed : j ∈ xs ++ ys := by
      rcases List.mem_append.mp member with left | right
      · simp [left]
      · simp [List.mem_of_mem_tail right]
    obtain ⟨notI, notT⟩ := linked.beside_cut fresh tInside listed
    obtain ⟨back, eq, same, -⟩ := linked.hdr_cut_ne fresh tInside len notI notT
    refine ⟨nextOf j listed, ?_⟩
    unfold Pmm.prev
    rw [eq]
    apply same
    intro head
    -- The follower of `i` is in neither remaining part.
    have apart := (List.nodup_cons.mp (List.nodup_middle.mp linked.nodup)).2
    cases ys with
    | nil => simp at head
    | cons y ys =>
      obtain rfl : y = j := by simpa using head
      exact (List.nodup_cons.mp (List.nodup_middle.mp apart)).1 member

/-- A split keeps the header list, with the new header behind the old one. -/
theorem Linked.cut (len : Nat) (spare : (xs ++ i :: ys).length + 1 < s.slots.length) :
    Linked (s.cut i t len) (xs ++ i :: t :: ys) := by
  have inserted : (xs ++ i :: t :: ys).Perm (t :: (xs ++ i :: ys)) := by
    have regrouped : xs ++ i :: t :: ys = (xs ++ [i]) ++ t :: ys := by simp
    rw [regrouped]
    exact List.perm_middle.trans (by simp)
  have count := inserted.length_eq
  rw [List.length_cons] at count
  have kept : ∀ j, j ≠ t → ((s.cut i t len).hdr j).headerInUse = (s.hdr j).headerInUse ∧
      ((s.cut i t len).hdr j).canary = (s.hdr j).canary := by
    intro j notT
    by_cases atI : j = i
    · subst atI
      rw [linked.hdr_cut fresh tInside, if_pos rfl]
      exact ⟨rfl, rfl⟩
    · obtain ⟨back, eq, -⟩ := linked.hdr_cut_ne fresh tInside len atI notT
      rw [eq]
      exact ⟨rfl, rfl⟩
  have atT : (s.cut i t len).hdr t = s.tail i len := by
    rw [linked.hdr_cut fresh tInside, if_neg, if_pos rfl]
    rintro rfl
    exact fresh (by simp)
  refine ⟨?_, linked.cut_links fresh tInside len, ?_, ?_, ?_, ?_, ?_, ?_, ?_, ?_, ?_⟩
  · rw [cut_firstHeader, linked.first]
    cases xs <;> rfl
  · exact inserted.nodup_iff.mpr (List.nodup_cons.mpr ⟨fresh, linked.nodup⟩)
  · intro j member
    rw [cut_length]
    rcases List.mem_cons.mp (inserted.mem_iff.mp member) with rfl | listed
    · exact tInside
    · exact linked.bound j listed
  · intro j bound
    rw [cut_length] at bound
    rw [inserted.mem_iff, List.mem_cons]
    by_cases new : j = t
    · subst new
      rw [atT]
      simp [Pmm.tail]
    · rw [(kept j new).1, linked.live j bound]
      simp [new]
  · intro j bound
    rw [cut_length] at bound
    by_cases new : j = t
    · subst new
      rw [atT]
      rfl
    · rw [(kept j new).2]
      exact linked.canary j bound
  · rw [cut_headersInUse, linked.inUse, count]
  · rw [cut_headersAllocated, cut_length]
    exact linked.allocated
  · rw [cut_length, count]
    exact spare
  · rw [cut_length, cut_chunkNext]
    exact linked.chunks
  · rw [cut_chunkNext]
    exact linked.path

/-- A split divides the block of the header and leaves the other blocks alone. -/
theorem Linked.blocksOf_cut (len : Nat) (claimed : (s.hdr i).inUse = true) :
    (s.cut i t len).blocksOf (xs ++ i :: t :: ys) =
      s.blocksOf xs ++ (s.hdr i).block.front len :: (s.hdr i).block.back len :: s.blocksOf ys := by
  have beside : ∀ js, (∀ j ∈ js, j ∈ xs ++ ys) → (s.cut i t len).blocksOf js = s.blocksOf js := by
    intro js listed
    apply List.map_congr_left
    intro j member
    obtain ⟨notI, notT⟩ := linked.beside_cut fresh tInside (listed j member)
    obtain ⟨back, eq, -⟩ := linked.hdr_cut_ne fresh tInside len notI notT
    rw [eq]
    rfl
  have left := beside xs fun j member => List.mem_append_left _ member
  have right := beside ys fun j member => List.mem_append_right _ member
  have notTI : t ≠ i := by
    rintro rfl
    exact fresh (by simp)
  simp only [Pmm.blocksOf, List.map_append, List.map_cons] at left right ⊢
  rw [left, right, linked.hdr_cut fresh tInside, if_pos rfl, linked.hdr_cut fresh tInside,
    if_neg notTI, if_pos rfl]
  simp only [PhysMemHeader.block, Pmm.tail, Block.front, Block.back, claimed]

end Cut

/-! ## The header supply and the blocks -/

/-- The supply leaves headers in use as they are. -/
theorem Supply.hdr_eq {s' : Pmm} (linked : Linked s l) (supply : Supply mapRange s l s')
    (claimed : (s.hdr i).inUse = true) : s'.hdr i = s.hdr i := by
  cases supply with
  | same spare => rfl
  | grown full sealed k next member free mapped =>
    rw [hdr_grow next (linked.bound k member), if_neg]
    rintro rfl
    rw [free] at claimed
    contradiction

/-- The supply hands out at most one block. -/
theorem Supply.claims {s' : Pmm} (linked : Linked s l) (supply : Supply mapRange s l s')
    (js : List Nat) : (s.blocksOf js).Forall₂ Block.Claims (s'.blocksOf js) := by
  unfold Pmm.blocksOf
  rw [List.forall₂_map_left_iff, List.forall₂_map_right_iff, List.forall₂_same]
  intro j _
  cases supply with
  | same spare => exact Block.Claims.refl _
  | grown full sealed k next member free mapped =>
    rw [hdr_grow next (linked.bound k member)]
    split
    · rename_i same
      subst same
      exact ⟨rfl, rfl, fun _ => rfl⟩
    · exact Block.Claims.refl _

/-- A supply that adds no chunk changes nothing. -/
theorem Supply.eq_of_chunks {s' : Pmm} (supply : Supply mapRange s l s')
    (kept : s'.chunkNext.length = s.chunkNext.length) : s' = s := by
  cases supply with
  | same spare => rfl
  | grown full sealed k next member free mapped =>
    rw [grow_chunks] at kept
    omega

/-! ## The call -/

/-- What `split_header_at_len` can leave: the header keeps its range, because it has the
length already or because there is no header to be had, or the range is divided. -/
inductive SplitTo (mapRange : MapRange) (s : Pmm) (xs : List Nat) (i : Nat) (ys : List Nat)
    (len : Nat) : Pmm → List Nat → Prop where
  | whole (reason : (s.hdr i).size = len ∨
      s.Sealed ∧ s.slots.length ≤ (xs ++ i :: ys).length + 1) :
      SplitTo mapRange s xs i ys len s (xs ++ i :: ys)
  | cut (s' : Pmm) (t : Nat) (supply : Supply mapRange s (xs ++ i :: ys) s')
      (fresh : t ∉ xs ++ i :: ys) (inside : t < s'.slots.length) (short : len < (s.hdr i).size) :
      SplitTo mapRange s xs i ys len (s'.cut i t len) (xs ++ i :: t :: ys)

/-- The ways a call that needs a header can fail to return in a linked state: the pool is
full and the chunk chain has no end. -/
def Stuck {α : Type} (s : Pmm) (l : List Nat) (outcome : Except Fault α) : Prop :=
  ¬ s.Sealed ∧ s.slots.length ≤ l.length + 1 ∧
    (outcome = .error .undefined ∨ outcome = .error .divergence)

/-- A call that is stuck stays so whatever follows. -/
theorem Stuck.bind {α β : Type} {outcome : Except Fault α} (stuck : Stuck s l outcome)
    (rest : α → Except Fault β) : Stuck s l (outcome >>= rest) := by
  obtain ⟨unsealed, full, rfl | rfl⟩ := stuck
  · exact ⟨unsealed, full, Or.inl rfl⟩
  · exact ⟨unsealed, full, Or.inr rfl⟩

/-- Once the header for the split is there, the rest of the call is the link-in. -/
theorem splitHeaderAtLen_cut {s' : Pmm} (linked : Linked s (xs ++ i :: ys))
    (claimed : (s.hdr i).inUse = true) (short : len < (s.hdr i).size)
    (small : (s.hdr i).block.stop ≤ roundLimit)
    (supply : Supply mapRange s (xs ++ i :: ys) s') (fresh : t ∉ xs ++ i :: ys)
    (inside : t < s'.slots.length)
    (supplied : s.getNewHeader mapRange =
      .ok (some t, s'.put t { s'.hdr t with headerInUse := true })) :
    s.splitHeaderAtLen mapRange i len = .ok (s'.cut i t len) := by
  obtain ⟨linked', -⟩ := supply.spare linked
  have same := supply.hdr_eq linked claimed
  have member : i ∈ xs ++ i :: ys := by simp
  have iInside := linked.bound i member
  have iInside' := linked'.bound i member
  have notIT : i ≠ t := by
    rintro rfl
    exact fresh member
  have sum : pageAdd (s.hdr i).memory len = .ok ((s.hdr i).memory + len) := by
    apply pageAdd_ok
    unfold PhysMemHeader.block Block.stop roundLimit at small
    unfold uintptrMax
    simp only at small
    omega
  have difference := pageSub_ok (Nat.le_of_lt short)
  have rest : pageSub (s.hdr i).size ((s.hdr i).size - len) = .ok len := by
    rw [pageSub_ok (Nat.sub_le _ _)]
    congr 1
    omega
  unfold Pmm.splitHeaderAtLen Host.splitHeaderAtLen Pmm.host
  simp only [Pmm.host_getNewHeader, Pmm.header_eq iInside, ok_bind, linked.headerInUse member, claimed,
    linked.canary i iInside, assert_true, beq_self_eq_true, decide_eq_true (Nat.le_of_lt short),
    if_neg (Nat.ne_of_gt short), supplied]
  have tRead : (s'.put t { s'.hdr t with headerInUse := true }).header t =
      .ok { s'.hdr t with headerInUse := true } := by
    rw [Pmm.header_eq (by simpa using inside), Pmm.hdr_put inside, if_pos rfl]
  have iRead : (s'.put t { s'.hdr t with headerInUse := true }).header i = .ok (s.hdr i) := by
    rw [Pmm.header_eq (by simpa using iInside'), Pmm.hdr_put_ne notIT, same]
  rw [tRead, iRead]
  simp only [ok_bind, linked'.canary t inside, beq_self_eq_true, assert_true, sum, difference,
    rest, Pmm.put_put]
  have tail : PhysMemHeader.mk (s.hdr i).next (some i) ((s.hdr i).memory + len)
      ((s.hdr i).size - len) false canaryBytes true = s'.tail i len := by
    unfold Pmm.tail Pmm.next
    rw [same]
  have forward : s'.next i = (s.hdr i).next := by
    unfold Pmm.next
    rw [same]
  rw [tail]
  unfold Pmm.cut
  rw [forward]
  cases follower : (s.hdr i).next with
  | none =>
    simp [Pmm.modify_eq, iInside', Pmm.hdr_put, inside, notIT, same, pure, Except.pure]
  | some n =>
    obtain ⟨nMember, notNI, -⟩ := linked.next_ne follower
    have nListed : n ∈ xs ++ i :: ys := by simp [nMember]
    have nInside := linked'.bound n nListed
    simp [Pmm.modify_eq, iInside', nInside, Pmm.hdr_put, inside, notIT, Ne.symm notNI, same]

/-- `split_header_at_len` of a claimed header in a linked state. -/
theorem splitHeaderAtLen_spec (linked : Linked s (xs ++ i :: ys))
    (claimed : (s.hdr i).inUse = true) (fits : len ≤ (s.hdr i).size)
    (small : (s.hdr i).block.stop ≤ roundLimit) (mapRange : MapRange) :
    (∃ s' l', SplitTo mapRange s xs i ys len s' l' ∧
        s.splitHeaderAtLen mapRange i len = .ok s') ∨
      Stuck s (xs ++ i :: ys) (s.splitHeaderAtLen mapRange i len) := by
  have member : i ∈ xs ++ i :: ys := by simp
  have iInside := linked.bound i member
  by_cases exact : (s.hdr i).size = len
  · refine Or.inl ⟨s, _, .whole (Or.inl exact), ?_⟩
    simp [Pmm.splitHeaderAtLen, Host.splitHeaderAtLen, Pmm.header_eq iInside,
      linked.headerInUse member, claimed, linked.canary i iInside, exact, pure, Except.pure]
  · have short : len < (s.hdr i).size := Nat.lt_of_le_of_ne fits (Ne.symm exact)
    by_cases ready : s.Sealed ∨ (xs ++ i :: ys).length + 1 < s.slots.length
    · rcases linked.getNewHeader_spec mapRange ready with ⟨refused, full⟩ | supplied
      · refine Or.inl ⟨s, _, .whole (Or.inr full), ?_⟩
        simp [Pmm.splitHeaderAtLen, Host.splitHeaderAtLen, Pmm.host_getNewHeader,
          Pmm.header_eq iInside, linked.headerInUse member, claimed, linked.canary i iInside, fits,
          refused, pure, Except.pure]
      · obtain ⟨s', t, supply, fresh, inside, returned⟩ := supplied
        exact Or.inl ⟨_, _, .cut s' t supply fresh inside short,
          splitHeaderAtLen_cut linked claimed short small supply fresh inside returned⟩
    · have unsealed : ¬ s.Sealed := fun sealed => ready (Or.inl sealed)
      have full := Nat.le_of_not_lt fun spare => ready (Or.inr spare)
      refine Or.inr ⟨unsealed, full, ?_⟩
      rcases linked.getNewHeader_unsealed mapRange unsealed full with stop | stop
      · left
        simp [Pmm.splitHeaderAtLen, Host.splitHeaderAtLen, Pmm.host_getNewHeader,
          Pmm.header_eq iInside, linked.headerInUse member, claimed, linked.canary i iInside, exact,
          fits, stop]
      · right
        simp [Pmm.splitHeaderAtLen, Host.splitHeaderAtLen, Pmm.host_getNewHeader,
          Pmm.header_eq iInside, linked.headerInUse member, claimed, linked.canary i iInside, exact,
          fits, stop]

end FelineOS.PhysMem
