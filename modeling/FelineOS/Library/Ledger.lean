import FelineOS.Library.Blocks

/-!
# Handing out and taking back

The two moves of an allocator on its block list. `Reserves` hands out a free block, whole or
its first part; the blocks beside it may change by a given relation. `Releases` frees a block
and merges it with its neighbours. Both keep the geometry and say exactly which addresses
change hands.

`Ledger` is the invariant behind allocators that do not fragment: with every block that is
still held put back, the normal form of the list is the list it started from.
-/

namespace Library

variable {grain limit n x : Nat} {b : Block} {bs cs pre post : List Block}
  {beside : Block → Block → Prop}

/-- A free block is handed out, whole or its first `n` addresses. -/
inductive Reserves (beside : Block → Block → Prop) (n : Nat) (b : Block) :
    List Block → List Block → Prop where
  | whole {pre post pre' post' : List Block} (free : b.used = false) (fits : n ≤ b.size)
      (left : pre.Forall₂ beside pre') (right : post.Forall₂ beside post') :
      Reserves beside n b (pre ++ b :: post) (pre' ++ b.front b.size :: post')
  | cut {pre post pre' post' : List Block} (free : b.used = false) (short : n < b.size)
      (left : pre.Forall₂ beside pre') (right : post.Forall₂ beside post') :
      Reserves beside n b (pre ++ b :: post) (pre' ++ b.front n :: b.back n :: post')

/-- A block is freed and merged with its free neighbours. -/
inductive Releases (b : Block) : List Block → List Block → Prop where
  | mk (pre post : List Block) (used : b.used = true) :
      Releases b (pre ++ b :: post) (mergeSeam pre (mergeHead ({ b with used := false } :: post)))

/-! ## Addresses -/

namespace Reserves

/-- The block handed out was a free block of the list. -/
theorem source (reserves : Reserves beside n b bs cs) : b ∈ bs ∧ b.used = false ∧ n ≤ b.size := by
  cases reserves with
  | whole free fits => exact ⟨by simp, free, fits⟩
  | cut free short => exact ⟨by simp, free, Nat.le_of_lt short⟩

variable (reserves : Reserves Block.Claims n b bs cs)

include reserves

/-- No address enters or leaves the list. -/
theorem covered : Covered cs x ↔ Covered bs x := by
  cases reserves with
  | whole free fits left right =>
    have same : (b.front b.size).Has x ↔ b.Has x := Iff.rfl
    simp only [covered_append, covered_cons, covered_claims left, covered_claims right, same]
  | cut free short left right =>
    simp only [covered_append, covered_cons, covered_claims left, covered_claims right]
    rw [← has_front_or_back (Nat.le_of_lt short)]
    tauto

/-- The geometry is kept when the length is on the grain. -/
theorem layout (grained : grain ∣ n) (before : Layout grain limit bs) :
    Layout grain limit cs := by
  cases reserves with
  | @whole pre post pre' post' free fits left right =>
    have flagged := before.reflag true
    refine layout_claims ?_ flagged
    exact List.rel_append left (.cons (.refl _) right)
  | @cut pre post pre' post' free short left right =>
    have split := before.split grained (Nat.le_of_lt short)
    refine layout_claims ?_ split
    exact List.rel_append left (.cons (.refl _) (.cons (.refl _) right))

/-- Addresses handed out stay so. -/
theorem usedAt_mono (used : UsedAt bs x) : UsedAt cs x := by
  cases reserves with
  | whole free fits left right =>
    simp only [usedAt_append, usedAt_cons, free] at used ⊢
    rcases used with before | ⟨contrary, -⟩ | behind
    · exact Or.inl (usedAt_claims left before)
    · contradiction
    · exact Or.inr (Or.inr (usedAt_claims right behind))
  | cut free short left right =>
    simp only [usedAt_append, usedAt_cons, free] at used ⊢
    rcases used with before | ⟨contrary, -⟩ | behind
    · exact Or.inl (usedAt_claims left before)
    · contradiction
    · exact Or.inr (Or.inr (Or.inr (usedAt_claims right behind)))

/-- Blocks handed out stay as they are. -/
theorem mem_of_used {c : Block} (member : c ∈ bs) (used : c.used = true) : c ∈ cs := by
  have other : c ≠ b := by
    rintro rfl
    rw [reserves.source.2.1] at used
    contradiction
  cases reserves with
  | whole free fits left right =>
    simp only [List.mem_append, List.mem_cons, other, false_or] at member ⊢
    rcases member with before | behind
    · exact Or.inl (mem_claims left before used)
    · exact Or.inr (Or.inr (mem_claims right behind used))
  | cut free short left right =>
    simp only [List.mem_append, List.mem_cons, other, false_or] at member ⊢
    rcases member with before | behind
    · exact Or.inl (mem_claims left before used)
    · exact Or.inr (Or.inr (Or.inr (mem_claims right behind used)))

end Reserves

/-- Merging at the head keeps an address-wise reading of the blocks. -/
theorem exists_mergeHead (flag : Bool) :
    (∃ c ∈ mergeHead bs, c.used = flag ∧ c.Has x) ↔ ∃ c ∈ bs, c.used = flag ∧ c.Has x := by
  match bs with
  | [] => rfl
  | [_] => rfl
  | a :: b :: post =>
    by_cases mergeable : a.Mergeable b
    · have joined : (a.join b).used = a.used := rfl
      simp only [mergeHead, if_pos mergeable, List.mem_cons, exists_eq_or_imp, joined,
        mergeable.1, mergeable.2.1, has_join mergeable.2.2]
      tauto
    · simp only [mergeHead, if_neg mergeable]

/-- Merging at a seam does as well. -/
theorem exists_mergeSeam (flag : Bool) :
    (∃ c ∈ mergeSeam pre post, c.used = flag ∧ c.Has x) ↔
      ∃ c ∈ pre ++ post, c.used = flag ∧ c.Has x := by
  rcases List.eq_nil_or_concat pre with rfl | ⟨init, a, rfl⟩
  · rfl
  · have seam : (∃ c ∈ mergeHead (a :: post), c.used = flag ∧ c.Has x) ↔
        ∃ c ∈ a :: post, c.used = flag ∧ c.Has x := exists_mergeHead flag
    rw [List.concat_eq_append, mergeSeam_concat]
    simp only [List.mem_append, or_and_right, exists_or, seam]
    simp [or_assoc]

/-- Merging at the head keeps the blocks that are handed out. -/
theorem mem_mergeHead {c : Block} (member : c ∈ bs) (used : c.used = true) : c ∈ mergeHead bs := by
  match bs with
  | [] => exact member
  | [_] => exact member
  | a :: b :: post =>
    by_cases mergeable : a.Mergeable b
    · simp only [mergeHead, if_pos mergeable, List.mem_cons] at member ⊢
      rcases member with rfl | rfl | behind
      · rw [mergeable.1] at used
        contradiction
      · rw [mergeable.2.1] at used
        contradiction
      · exact Or.inr behind
    · simpa only [mergeHead, if_neg mergeable] using member

/-- Merging at a seam does as well. -/
theorem mem_mergeSeam {c : Block} (member : c ∈ pre ++ post) (used : c.used = true) :
    c ∈ mergeSeam pre post := by
  rcases List.eq_nil_or_concat pre with rfl | ⟨init, a, rfl⟩
  · exact member
  · rw [List.concat_eq_append, List.append_assoc] at member
    rw [List.concat_eq_append, mergeSeam_concat]
    rcases List.mem_append.mp member with before | behind
    · exact List.mem_append_left _ before
    · exact List.mem_append_right _ (mem_mergeHead behind used)

namespace Releases

/-- The block freed was a block of the list that was handed out. -/
theorem source (releases : Releases b bs cs) : b ∈ bs ∧ b.used = true := by
  cases releases with
  | mk pre post used => exact ⟨by simp, used⟩

/-- The addresses with a flag after the move: those of the merged parts. -/
theorem exists_iff (releases : Releases b bs cs) (flag : Bool) :
    ∃ pre post, bs = pre ++ b :: post ∧ ((∃ c ∈ cs, c.used = flag ∧ c.Has x) ↔
      (∃ c ∈ pre ++ post, c.used = flag ∧ c.Has x) ∨ flag = false ∧ b.Has x) := by
  cases releases with
  | mk pre post used =>
    refine ⟨pre, post, rfl, ?_⟩
    have freed : ({ b with used := false } : Block).Has x ↔ b.Has x := Iff.rfl
    rw [exists_mergeSeam]
    simp only [List.mem_append, or_and_right, exists_or, exists_mergeHead, List.mem_cons,
      exists_eq_left, freed]
    rw [or_assoc, eq_comm (a := false), or_comm (b := flag = false ∧ b.Has x)]

variable (releases : Releases b bs cs)

include releases

/-- The other blocks that are handed out stay as they are. -/
theorem mem_of_used {c : Block} (member : c ∈ bs) (used : c.used = true) (other : c ≠ b) :
    c ∈ cs := by
  cases releases with
  | mk pre post flag =>
    apply mem_mergeSeam _ used
    simp only [List.mem_append, List.mem_cons, other, false_or] at member
    rcases member with before | behind
    · exact List.mem_append_left _ before
    · exact List.mem_append_right _ (mem_mergeHead (List.mem_cons_of_mem _ behind) used)

/-- The free addresses are the old ones and those of the block. -/
theorem freeAt : FreeAt cs x ↔ FreeAt bs x ∨ b.Has x := by
  obtain ⟨-, used⟩ := releases.source
  obtain ⟨pre, post, rfl, same⟩ := releases.exists_iff (x := x) false
  unfold FreeAt
  rw [same]
  simp only [List.mem_append, List.mem_cons, or_and_right, exists_or, exists_eq_left, used]
  simp only [true_and, Bool.true_eq_false, false_and, false_or]

/-- The addresses handed out are the old ones but those of the block. -/
theorem usedAt (layout : Layout grain limit bs) : UsedAt cs x ↔ UsedAt bs x ∧ ¬ b.Has x := by
  obtain ⟨-, used⟩ := releases.source
  obtain ⟨pre, post, rfl, same⟩ := releases.exists_iff (x := x) true
  have apart := layout.apart
  rw [List.pairwise_middle Block.Apart.symm, List.pairwise_cons] at apart
  unfold UsedAt
  rw [same]
  simp only [Bool.true_eq_false, false_and, or_false]
  constructor
  · rintro ⟨c, member, flag, has⟩
    refine ⟨⟨c, ?_, flag, has⟩, fun hasB => apart.1 c member x hasB has⟩
    rcases List.mem_append.mp member with left | right
    · simp [left]
    · simp [right]
  · rintro ⟨⟨c, member, flag, has⟩, away⟩
    refine ⟨c, ?_, flag, has⟩
    rcases List.mem_append.mp member with left | right
    · simp [left]
    · rcases List.mem_cons.mp right with rfl | behind
      · exact absurd has away
      · simp [behind]

/-- No address enters or leaves the list. -/
theorem covered : Covered cs x ↔ Covered bs x := by
  cases releases with
  | mk pre post used =>
    have freed : ({ b with used := false } : Block).Has x ↔ b.Has x := Iff.rfl
    rw [covered_iff, FreeAt, UsedAt, exists_mergeSeam, exists_mergeSeam]
    simp only [List.mem_append, or_and_right, exists_or, exists_mergeHead]
    simp only [covered_append, covered_cons, ← freed]
    rw [@covered_iff pre, @covered_iff post]
    unfold FreeAt UsedAt
    simp only [List.mem_cons, or_and_right, exists_or, exists_eq_left]
    simp only [true_and, Bool.false_eq_true, false_and, false_or, or_assoc, or_left_comm]

end Releases

/-! ## The ledger -/

/-- A block that is handed out and starts at an address of the ledger, put back. Empty blocks
hold nothing. -/
def putBack (held : List Nat) (b : Block) : Block :=
  if b.used = true ∧ 0 < b.size ∧ b.start ∈ held then { b with used := false } else b

/-- The list started as `original`, and the blocks handed out since start at the addresses
`held`. -/
structure Ledger (original : List Block) (held : List Nat) (bs : List Block) : Prop where
  /-- With the held blocks put back and merged, the list is the original. -/
  normal : coalesce (bs.map (putBack held)) = original
  /-- No two free neighbours touch. -/
  settled : Coalesced bs
  /-- No address is held twice. -/
  nodup : held.Nodup
  /-- Each held address starts a block that is handed out. -/
  backed : ∀ a ∈ held, ∃ b ∈ bs, b.used = true ∧ 0 < b.size ∧ b.start = a

variable {held : List Nat} {original : List Block}

/-- Free blocks are not on the ledger. -/
theorem putBack_of_free (free : b.used = false) : putBack held b = b := by
  simp [putBack, free]

/-- With nothing held nothing is put back. -/
@[simp] theorem putBack_nil : putBack [] = id := by
  funext b
  simp [putBack]

/-- A block on the ledger is put back. -/
theorem putBack_held (used : b.used = true) (filled : 0 < b.size) (listed : b.start ∈ held) :
    putBack held b = { b with used := false } := if_pos ⟨used, filled, listed⟩

/-- A ledger without entries can be opened on a list without mergeable neighbours. -/
theorem Ledger.open (settled : Coalesced bs) : Ledger bs [] bs where
  normal := by rw [putBack_nil, List.map_id, coalesce_eq_self settled]
  settled := settled
  nodup := List.nodup_nil
  backed := by simp

/-- When everything is given back the list is the original. -/
theorem Ledger.close (ledger : Ledger original [] bs) : bs = original := by
  have normal := ledger.normal
  rwa [putBack_nil, List.map_id, coalesce_eq_self ledger.settled] at normal

/-- Blocks that share no address with a block put its start on the ledger in vain. -/
theorem putBack_congr {held' : List Nat} {c : Block} (apart : b.Apart c) (filled : 0 < b.size)
    (same : ∀ a, a ≠ b.start → (a ∈ held' ↔ a ∈ held)) : putBack held' c = putBack held c := by
  by_cases clash : 0 < c.size ∧ c.start = b.start
  · exfalso
    apply apart b.start
    · simp only [Block.Has, Block.stop]
      omega
    · simp only [Block.Has, Block.stop]
      omega
  · unfold putBack
    by_cases empty : c.size = 0
    · simp [empty]
    · have away : c.start ≠ b.start := fun here => clash ⟨Nat.pos_of_ne_zero empty, here⟩
      simp only [same _ away]

/-- The blocks beside one that is on the move. -/
theorem map_putBack_beside (held held' : List Nat) (layout : Layout grain limit (pre ++ b :: post))
    (filled : 0 < b.size) (same : ∀ a, a ≠ b.start → (a ∈ held' ↔ a ∈ held)) :
    pre.map (putBack held') = pre.map (putBack held) ∧
      post.map (putBack held') = post.map (putBack held) := by
  have apart := layout.apart
  rw [List.pairwise_middle Block.Apart.symm, List.pairwise_cons] at apart
  constructor
  · apply List.map_congr_left
    intro c member
    exact putBack_congr (apart.1 c (List.mem_append_left _ member)) filled same
  · apply List.map_congr_left
    intro c member
    exact putBack_congr (apart.1 c (List.mem_append_right _ member)) filled same

/-- The addresses that change hands lie in the part handed out. -/
theorem Reserves.front_has (layout : Layout grain limit bs) (reserves : Reserves Eq n b bs cs)
    (free : FreeAt bs x) (used : UsedAt cs x) :
    ∃ pre post, bs = pre ++ b :: post ∧
      ((b.front b.size).Has x ∧ cs = pre ++ b.front b.size :: post ∨
        (b.front n).Has x ∧ n < b.size ∧ cs = pre ++ b.front n :: b.back n :: post) := by
  have unused := layout.not_used_of_free free
  cases reserves with
  | @whole pre post pre' post' _ fits left right =>
    rw [List.forall₂_eq_eq_eq] at left right
    subst left right
    simp only [usedAt_append, usedAt_cons, not_or] at used unused
    refine ⟨pre, post, rfl, Or.inl ⟨?_, rfl⟩⟩
    rcases used with before | ⟨-, has⟩ | behind
    · exact absurd before unused.1
    · exact has
    · exact absurd behind unused.2.2
  | @cut pre post pre' post' _ short left right =>
    rw [List.forall₂_eq_eq_eq] at left right
    subst left right
    simp only [usedAt_append, usedAt_cons, not_or] at used unused
    refine ⟨pre, post, rfl, Or.inr ⟨?_, short, rfl⟩⟩
    rcases used with before | ⟨-, has⟩ | ⟨contrary, -⟩ | behind
    · exact absurd before unused.1
    · exact has
    · contradiction
    · exact absurd behind unused.2.2

/-- A block that is free and not empty starts at no address of the ledger. -/
theorem Ledger.start_not_held (ledger : Ledger original held bs) (layout : Layout grain limit bs)
    (member : b ∈ bs) (free : b.used = false) (filled : 0 < b.size) : b.start ∉ held := by
  intro listed
  obtain ⟨c, memberC, usedC, filledC, startC⟩ := ledger.backed _ listed
  have same : b = c := by
    apply layout.unique (x := b.start) member memberC
    · simp only [Block.Has, Block.stop]
      omega
    · simp only [Block.Has, Block.stop]
      omega
  rw [same, usedC] at free
  contradiction

/-- A block that is handed out merges with neither neighbour. -/
theorem coalesced_used {c : Block} (settled : Coalesced (pre ++ b :: post)) (used : c.used = true) :
    Coalesced (pre ++ c :: post) := by
  unfold Coalesced at settled ⊢
  rw [List.isChain_append, List.isChain_cons] at settled ⊢
  obtain ⟨before, ⟨-, behind⟩, -⟩ := settled
  refine ⟨before, ⟨fun d _ mergeable => ?_, behind⟩, fun d _ e head mergeable => ?_⟩
  · rw [mergeable.1] at used
    contradiction
  · obtain rfl : c = e := by simpa using head
    rw [mergeable.2.1] at used
    contradiction

/-- A divided block leaves no mergeable neighbours. -/
theorem coalesced_cut (settled : Coalesced (pre ++ b :: post)) (free : b.used = false)
    (fits : n ≤ b.size) : Coalesced (pre ++ b.front n :: b.back n :: post) := by
  have whole : Coalesced (b.back n :: post) := by
    have behind := List.isChain_cons.mp (List.isChain_append.mp settled).2.1
    refine List.isChain_cons.mpr ⟨fun d head mergeable => behind.1 d head ?_, behind.2⟩
    refine ⟨free, mergeable.2.1, ?_⟩
    have touch := mergeable.2.2
    simp only [Block.stop, Block.back] at touch ⊢
    omega
  have extended : Coalesced (pre ++ b.front n :: post) := coalesced_used settled rfl
  have before := List.isChain_append.mp extended
  refine List.isChain_append.mpr ⟨before.1, List.isChain_cons_cons.mpr ⟨?_, whole⟩, before.2.2⟩
  rintro ⟨contrary, -⟩
  contradiction

/-- The parts of a divided block, put back, have the normal form of the block. -/
theorem coalesce_front_back (free : b.used = false) (fits : n ≤ b.size) :
    coalesce ({ b.front n with used := false } :: b.back n :: post) = coalesce (b :: post) := by
  have mergeable : Block.Mergeable { b.front n with used := false } (b.back n) := ⟨rfl, rfl, rfl⟩
  have joined : Block.join { b.front n with used := false } (b.back n) = b := by
    cases b
    simp only [Block.join, Block.front, Block.back, Block.mk.injEq] at *
    exact ⟨trivial, by omega, free.symm⟩
  rw [coalesce_join mergeable, joined]

/-- Handing out a block enters it in the ledger. -/
theorem Ledger.reserve (ledger : Ledger original held bs) (layout : Layout grain limit bs)
    (reserves : Reserves Eq n b bs cs) (free : FreeAt bs x) (used : UsedAt cs x) :
    Ledger original (b.start :: held) cs := by
  obtain ⟨member, flag, fits⟩ := reserves.source
  obtain ⟨pre, post, rfl, shape⟩ := reserves.front_has layout free used
  have sizes : 0 < b.size ∧ ((b.front n).Has x → 0 < n) := by
    simp only [Block.Has, Block.stop, Block.front] at shape ⊢
    omega
  have fresh := ledger.start_not_held layout member flag sizes.1
  have normal := ledger.normal
  have entered : ∀ k, 0 < k → putBack (b.start :: held) (b.front k) =
      { b.front k with used := false } :=
    fun k filled => putBack_held rfl filled (by simp [Block.front])
  obtain ⟨left, right⟩ := map_putBack_beside held (b.start :: held) layout
    sizes.1 (fun a away => by simp [away])
  -- The blocks held before are not the one handed out now.
  have others : ∀ a ∈ held, ∃ c, (c ∈ pre ∨ c ∈ post) ∧ c.used = true ∧ 0 < c.size ∧
      c.start = a := by
    intro a listed
    obtain ⟨c, memberC, usedC, rest⟩ := ledger.backed a listed
    refine ⟨c, ?_, usedC, rest⟩
    have away : c ≠ b := by
      rintro rfl
      rw [flag] at usedC
      contradiction
    simpa [away] using memberC
  rw [List.map_append, List.map_cons, putBack_of_free flag] at normal
  rcases shape with ⟨has, rfl⟩ | ⟨has, short, rfl⟩
  · refine ⟨?_, coalesced_used ledger.settled rfl, List.nodup_cons.mpr ⟨fresh, ledger.nodup⟩, ?_⟩
    · have back : ({ b.front b.size with used := false } : Block) = b := by
        simp [Block.front, ← flag]
      rw [List.map_append, List.map_cons, left, right, entered _ sizes.1, back, normal]
    · intro a listed
      rcases List.mem_cons.mp listed with rfl | listed
      · exact ⟨b.front b.size, by simp, rfl, sizes.1, rfl⟩
      · obtain ⟨c, memberC, rest⟩ := others a listed
        exact ⟨c, by rcases memberC with side | side <;> simp [side], rest⟩
  · refine ⟨?_, coalesced_cut ledger.settled flag fits,
      List.nodup_cons.mpr ⟨fresh, ledger.nodup⟩, ?_⟩
    · rw [List.map_append, List.map_cons, List.map_cons, left, right, entered _ (sizes.2 has),
        putBack_of_free rfl, ← normal]
      exact coalesce_append_congr _ (coalesce_front_back flag fits)
    · intro a listed
      rcases List.mem_cons.mp listed with rfl | listed
      · exact ⟨b.front n, by simp, rfl, sizes.2 has, rfl⟩
      · obtain ⟨c, memberC, rest⟩ := others a listed
        exact ⟨c, by rcases memberC with side | side <;> simp [side], rest⟩

/-- Freeing a held block strikes it off the ledger. -/
theorem Ledger.release {a : Nat} (ledger : Ledger original held bs)
    (layout : Layout grain limit bs) (releases : Releases b bs cs) (listed : a ∈ held)
    (has : b.Has a) : Ledger original (held.erase a) cs := by
  obtain ⟨member, flag⟩ := releases.source
  obtain ⟨c, memberC, -, filled, start⟩ := ledger.backed a listed
  obtain rfl : b = c := by
    refine layout.unique member memberC has ?_
    simp only [Block.Has, Block.stop]
    omega
  subst start
  have kept := releases
  cases releases with
  | mk pre post used =>
    obtain ⟨left, right⟩ := map_putBack_beside held (held.erase b.start) layout
      filled (fun a away => List.mem_erase_of_ne away)
    have settled := List.isChain_append.mp ledger.settled
    have normal := ledger.normal
    refine ⟨?_, ?_, ledger.nodup.erase _, ?_⟩
    · have keeps : ∀ c : Block, c.used = false → putBack (held.erase b.start) c = c :=
        fun c free => putBack_of_free free
      have head := coalesce_mergeHead keeps ({ b with used := false } :: post)
      rw [coalesce_mergeSeam keeps, List.map_append]
      rw [coalesce_append_congr _ head, List.map_cons, keeps _ rfl, left, right, ← normal,
        List.map_append, List.map_cons, putBack_held flag filled listed]
    · exact coalesced_mergeSeam settled.1
        (coalesced_mergeHead (List.isChain_cons.mp settled.2.1).2)
    · intro a still
      obtain ⟨away, before⟩ := (ledger.nodup.mem_erase_iff).mp still
      obtain ⟨c, memberC, usedC, filledC, startC⟩ := ledger.backed a before
      have other : c ≠ b := by
        rintro rfl
        exact away startC.symm
      exact ⟨c, kept.mem_of_used memberC usedC other, usedC, filledC, startC⟩

end Library
