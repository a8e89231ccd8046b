import Mathlib.Algebra.Group.Nat.Defs
import Mathlib.Algebra.GroupWithZero.Nat
import Mathlib.Data.List.Chain
import Mathlib.Data.List.Forall2
import Mathlib.Data.List.Pairwise
import Mathlib.Tactic.Common

/-!
# Memory as a list of blocks

An allocator that keeps memory as a list of address ranges, each free or handed out, is seen
here as a list of `Block`s. `Layout` is the geometry it must keep: blocks on a grain, below a
limit, with no address in two of them. Every edit of such an allocator replaces some
neighbouring blocks by others over the same addresses, so one rule (`Layout.replace`) carries
the geometry through all of them. `coalesce` is the normal form of a list under the merging of
free neighbours; splitting and merging do not change it (`coalesce_join`).
-/

namespace Library

/-- A range of addresses with its allocation flag. -/
structure Block where
  /-- First address. -/
  start : Nat
  /-- Number of addresses. -/
  size : Nat
  /-- Whether the range is handed out. -/
  used : Bool
  deriving DecidableEq, Repr

namespace Block

/-- One past the last address. -/
def stop (b : Block) : Nat := b.start + b.size

/-- The address lies in the block. -/
def Has (b : Block) (x : Nat) : Prop := b.start ≤ x ∧ x < b.stop

instance (b : Block) (x : Nat) : Decidable (b.Has x) := inferInstanceAs (Decidable (_ ∧ _))

/-- No address lies in both blocks. -/
def Apart (a b : Block) : Prop := ∀ x, a.Has x → ¬ b.Has x

/-- The first `n` addresses of a block, handed out. -/
def front (b : Block) (n : Nat) : Block := ⟨b.start, n, true⟩

/-- The addresses of a block behind the first `n`, free. -/
def back (b : Block) (n : Nat) : Block := ⟨b.start + n, b.size - n, false⟩

/-- A block together with the one that starts where it ends. -/
def join (a b : Block) : Block := { a with size := a.size + b.size }

/-- Two free blocks, the second starting where the first ends. -/
def Mergeable (a b : Block) : Prop := a.used = false ∧ b.used = false ∧ a.stop = b.start

instance (a b : Block) : Decidable (a.Mergeable b) := inferInstanceAs (Decidable (_ ∧ _ ∧ _))

/-- The same range, where a free block may have been handed out. -/
structure Claims (b c : Block) : Prop where
  /-- The range starts where it did. -/
  start : c.start = b.start
  /-- The range has the size it had. -/
  size : c.size = b.size
  /-- A block handed out stays so. -/
  used : b.used = true → c.used = true

/-- Every block keeps itself. -/
theorem Claims.refl (b : Block) : b.Claims b := ⟨rfl, rfl, id⟩

/-- The addresses of the range are kept. -/
theorem Claims.has_iff {b c : Block} (claims : b.Claims c) (x : Nat) : c.Has x ↔ b.Has x := by
  unfold Has stop
  rw [claims.start, claims.size]

/-- A part of a block, cut on the grain. -/
structure Narrows (grain : Nat) (b c : Block) : Prop where
  /-- The part starts and ends on the grain. -/
  aligned : grain ∣ c.start ∧ grain ∣ c.size
  /-- It does not end behind the block. -/
  stop : c.stop ≤ b.stop
  /-- It has no address of its own. -/
  inside : ∀ x, c.Has x → b.Has x

/-- The relation is symmetric. -/
theorem Apart.symm {a b : Block} (apart : a.Apart b) : b.Apart a := fun x hb ha => apart x ha hb

instance : Std.Symm Apart := ⟨fun _ _ => Apart.symm⟩

/-- Blocks are apart when one is empty or they are ordered. -/
theorem apart_iff (a b : Block) :
    a.Apart b ↔ a.size = 0 ∨ b.size = 0 ∨ a.stop ≤ b.start ∨ b.stop ≤ a.start := by
  unfold Apart Has stop
  constructor
  · intro apart
    by_contra contrary
    have inside := apart (max a.start b.start)
    omega
  · intro cases x
    omega

instance (a b : Block) : Decidable (a.Apart b) := decidable_of_iff _ (apart_iff a b).symm

end Block

/-- The address lies in some block. -/
def Covered (bs : List Block) (x : Nat) : Prop := ∃ b ∈ bs, b.Has x

/-- The address lies in a free block. -/
def FreeAt (bs : List Block) (x : Nat) : Prop := ∃ b ∈ bs, b.used = false ∧ b.Has x

/-- The address lies in a block that is handed out. -/
def UsedAt (bs : List Block) (x : Nat) : Prop := ∃ b ∈ bs, b.used = true ∧ b.Has x

instance (bs : List Block) (x : Nat) : Decidable (Covered bs x) :=
  inferInstanceAs (Decidable (∃ b ∈ bs, b.Has x))

instance (bs : List Block) (x : Nat) : Decidable (FreeAt bs x) :=
  inferInstanceAs (Decidable (∃ b ∈ bs, b.used = false ∧ b.Has x))

instance (bs : List Block) (x : Nat) : Decidable (UsedAt bs x) :=
  inferInstanceAs (Decidable (∃ b ∈ bs, b.used = true ∧ b.Has x))

/-- The geometry of an allocator's list. -/
structure Layout (grain limit : Nat) (bs : List Block) : Prop where
  /-- Blocks start and end on the grain. -/
  aligned : ∀ b ∈ bs, grain ∣ b.start ∧ grain ∣ b.size
  /-- Blocks end at or below the limit. -/
  below : ∀ b ∈ bs, b.stop ≤ limit
  /-- No address lies in two blocks. -/
  apart : bs.Pairwise Block.Apart

instance (grain limit : Nat) (bs : List Block) : Decidable (Layout grain limit bs) :=
  decidable_of_iff ((∀ b ∈ bs, grain ∣ b.start ∧ grain ∣ b.size) ∧ (∀ b ∈ bs, b.stop ≤ limit) ∧
    bs.Pairwise Block.Apart)
    ⟨fun parts => ⟨parts.1, parts.2.1, parts.2.2⟩,
      fun layout => ⟨layout.aligned, layout.below, layout.apart⟩⟩

variable {grain limit : Nat} {bs pre post olds news : List Block}

section Addresses

variable {x : Nat}

@[simp] theorem covered_append : Covered (pre ++ post) x ↔ Covered pre x ∨ Covered post x := by
  simp [Covered, or_and_right, exists_or]

@[simp] theorem covered_cons {b : Block} : Covered (b :: post) x ↔ b.Has x ∨ Covered post x := by
  simp [Covered]

@[simp] theorem covered_nil : ¬ Covered [] x := by simp [Covered]

@[simp] theorem freeAt_append : FreeAt (pre ++ post) x ↔ FreeAt pre x ∨ FreeAt post x := by
  simp [FreeAt, or_and_right, exists_or]

@[simp] theorem freeAt_cons {b : Block} :
    FreeAt (b :: post) x ↔ (b.used = false ∧ b.Has x) ∨ FreeAt post x := by simp [FreeAt]

@[simp] theorem freeAt_nil : ¬ FreeAt [] x := by simp [FreeAt]

@[simp] theorem usedAt_append : UsedAt (pre ++ post) x ↔ UsedAt pre x ∨ UsedAt post x := by
  simp [UsedAt, or_and_right, exists_or]

@[simp] theorem usedAt_cons {b : Block} :
    UsedAt (b :: post) x ↔ (b.used = true ∧ b.Has x) ∨ UsedAt post x := by simp [UsedAt]

@[simp] theorem usedAt_nil : ¬ UsedAt [] x := by simp [UsedAt]

/-- An address of the list is free or handed out. -/
theorem covered_iff : Covered bs x ↔ FreeAt bs x ∨ UsedAt bs x := by
  constructor
  · rintro ⟨c, member, has⟩
    cases flag : c.used
    · exact Or.inl ⟨c, member, flag, has⟩
    · exact Or.inr ⟨c, member, flag, has⟩
  · rintro (⟨c, member, -, has⟩ | ⟨c, member, -, has⟩) <;> exact ⟨c, member, has⟩

/-- A block has no address exactly when its size is zero. -/
theorem empty_iff (b : Block) : (∀ x, ¬ b.Has x) ↔ b.size = 0 := by
  constructor
  · intro none
    by_contra filled
    exact none b.start ⟨Nat.le_refl _, Nat.lt_add_of_pos_right (Nat.pos_of_ne_zero filled)⟩
  · intro zero x has
    unfold Block.Has Block.stop at has
    omega

/-- A split block has the addresses of its two parts. -/
theorem has_front_or_back {b : Block} {n : Nat} (fits : n ≤ b.size) :
    (b.front n).Has x ∨ (b.back n).Has x ↔ b.Has x := by
  simp only [Block.Has, Block.stop, Block.front, Block.back]
  omega

/-- A joined block has the addresses of its two parts. -/
theorem has_join {a b : Block} (touch : a.stop = b.start) :
    (a.join b).Has x ↔ a.Has x ∨ b.Has x := by
  simp only [Block.Has, Block.stop, Block.join] at *
  omega

/-- The two parts of a split block are apart. -/
theorem front_apart_back (b : Block) (n : Nat) : (b.front n).Apart (b.back n) := by
  intro x
  simp only [Block.Has, Block.stop, Block.front, Block.back]
  omega

end Addresses

/-- The layout of a list, block by block. -/
theorem layout_cons {b : Block} : Layout grain limit (b :: bs) ↔
    (grain ∣ b.start ∧ grain ∣ b.size) ∧ b.stop ≤ limit ∧
      (∀ x, b.Has x → ¬ Covered bs x) ∧ Layout grain limit bs := by
  constructor
  · intro layout
    have pairs := List.pairwise_cons.mp layout.apart
    refine ⟨layout.aligned b List.mem_cons_self, layout.below b List.mem_cons_self, ?_, ?_⟩
    · rintro x has ⟨c, member, hasC⟩
      exact pairs.1 c member x has hasC
    · exact ⟨fun c member => layout.aligned c (List.mem_cons_of_mem b member),
        fun c member => layout.below c (List.mem_cons_of_mem b member), pairs.2⟩
  · rintro ⟨aligned, below, apart, rest⟩
    refine ⟨?_, ?_, List.pairwise_cons.mpr ⟨?_, rest.apart⟩⟩
    · simpa using ⟨aligned, rest.aligned⟩
    · simpa using ⟨below, rest.below⟩
    · intro c member x has hasC
      exact apart x has ⟨c, member, hasC⟩

namespace Layout

/-- Neighbouring blocks may be replaced by blocks that only use their addresses. -/
theorem replace (news : List Block) (layout : Layout grain limit (pre ++ olds ++ post))
    (aligned : ∀ b ∈ news, grain ∣ b.start ∧ grain ∣ b.size)
    (below : ∀ b ∈ news, b.stop ≤ limit)
    (inside : ∀ x, Covered news x → Covered olds x)
    (apart : news.Pairwise Block.Apart) : Layout grain limit (pre ++ news ++ post) := by
  have pairs := layout.apart
  simp only [List.pairwise_append, List.mem_append] at pairs
  obtain ⟨⟨preApart, -, preOlds⟩, postApart, rest⟩ := pairs
  refine ⟨?_, ?_, ?_⟩
  · intro b member
    simp only [List.mem_append] at member
    rcases member with (left | middle) | right
    · exact layout.aligned b (by simp [left])
    · exact aligned b middle
    · exact layout.aligned b (by simp [right])
  · intro b member
    simp only [List.mem_append] at member
    rcases member with (left | middle) | right
    · exact layout.below b (by simp [left])
    · exact below b middle
    · exact layout.below b (by simp [right])
  · simp only [List.pairwise_append, List.mem_append]
    refine ⟨⟨preApart, apart, ?_⟩, postApart, ?_⟩
    · intro a left b middle x hasA hasB
      obtain ⟨old, member, hasOld⟩ := inside x ⟨b, middle, hasB⟩
      exact preOlds a left old member x hasA hasOld
    · rintro a (left | middle) b right x hasA hasB
      · exact rest a (Or.inl left) b right x hasA hasB
      · obtain ⟨old, member, hasOld⟩ := inside x ⟨a, middle, hasA⟩
        exact rest old (Or.inr member) b right x hasOld hasB

/-- An address decides the block that has it. -/
theorem unique (layout : Layout grain limit bs) {b c : Block} {x : Nat} (memberB : b ∈ bs)
    (memberC : c ∈ bs) (hasB : b.Has x) (hasC : c.Has x) : b = c := by
  by_contra different
  exact layout.apart.forall memberB memberC different x hasB hasC

/-- A free address is not handed out. -/
theorem not_used_of_free (layout : Layout grain limit bs) {x : Nat} (free : FreeAt bs x) :
    ¬ UsedAt bs x := by
  rintro ⟨c, memberC, usedC, hasC⟩
  obtain ⟨b, memberB, freeB, hasB⟩ := free
  obtain rfl := layout.unique memberB memberC hasB hasC
  rw [freeB] at usedC
  contradiction

/-- Two lists with the same addresses have the same free ones when none of those is taken that one
has handed out more than the other. -/
theorem freeAt_same_iff {cs : List Block} (before : Layout grain limit bs)
    (after : Layout grain limit cs) (covered : ∀ x, Covered cs x ↔ Covered bs x) {taken : Nat → Prop}
    (used : ∀ x, UsedAt cs x ↔ UsedAt bs x ∨ taken x) (wasFree : ∀ x, taken x → FreeAt bs x) :
    (∀ x, FreeAt cs x ↔ FreeAt bs x) ↔ ∀ x, ¬ taken x := by
  constructor
  · intro same x takes
    exact after.not_used_of_free ((same x).mpr (wasFree x takes)) ((used x).mpr (Or.inr takes))
  · intro nothing x
    have sameUsed : UsedAt cs x ↔ UsedAt bs x := (used x).trans (or_iff_left (nothing x))
    have either := covered x
    rw [covered_iff, covered_iff] at either
    constructor
    · intro free
      refine (either.mp (Or.inl free)).resolve_right fun handed => ?_
      exact after.not_used_of_free free (sameUsed.mpr handed)
    · intro free
      refine (either.mpr (Or.inl free)).resolve_right fun handed => ?_
      exact before.not_used_of_free free (sameUsed.mp handed)

/-- Changing the flag of one block keeps the layout. -/
theorem reflag {b : Block} (layout : Layout grain limit (pre ++ b :: post)) (flag : Bool) :
    Layout grain limit (pre ++ { b with used := flag } :: post) := by
  have regrouped : pre ++ b :: post = pre ++ [b] ++ post := by simp
  rw [regrouped] at layout
  have replaced := layout.replace [{ b with used := flag }]
    (by simpa using layout.aligned b (by simp))
    (by simpa [Block.stop] using layout.below b (by simp))
    (by simp [Block.Has, Block.stop]) (by simp)
  simpa using replaced

/-- Splitting one block on the grain keeps the layout. -/
theorem split {b : Block} {n : Nat} (layout : Layout grain limit (pre ++ b :: post))
    (grained : grain ∣ n) (fits : n ≤ b.size) :
    Layout grain limit (pre ++ b.front n :: b.back n :: post) := by
  have regrouped : pre ++ b :: post = pre ++ [b] ++ post := by simp
  rw [regrouped] at layout
  obtain ⟨startAligned, sizeAligned⟩ := layout.aligned b (by simp)
  have bound := layout.below b (by simp)
  have replaced := layout.replace [b.front n, b.back n] ?_ ?_ ?_ ?_
  · simpa using replaced
  · simp only [List.mem_cons, List.not_mem_nil, or_false, forall_eq_or_imp, forall_eq]
    exact ⟨⟨startAligned, grained⟩, Nat.dvd_add startAligned grained, Nat.dvd_sub sizeAligned grained⟩
  · simp only [List.mem_cons, List.not_mem_nil, or_false, forall_eq_or_imp, forall_eq]
    simp only [Block.stop, Block.front, Block.back] at *
    omega
  · intro x
    simpa using (has_front_or_back fits).mp
  · simpa using front_apart_back b n

/-- Joining two blocks that touch keeps the layout. -/
theorem join {a b : Block} (layout : Layout grain limit (pre ++ a :: b :: post))
    (touch : a.stop = b.start) : Layout grain limit (pre ++ a.join b :: post) := by
  have regrouped : pre ++ a :: b :: post = pre ++ [a, b] ++ post := by simp
  rw [regrouped] at layout
  obtain ⟨startAligned, sizeA⟩ := layout.aligned a (by simp)
  obtain ⟨-, sizeB⟩ := layout.aligned b (by simp)
  have bound := layout.below b (by simp)
  have replaced := layout.replace [a.join b] ?_ ?_ ?_ ?_
  · simpa using replaced
  · simpa using ⟨startAligned, Nat.dvd_add sizeA sizeB⟩
  · simp only [List.mem_singleton, forall_eq]
    simp only [Block.stop, Block.join] at *
    omega
  · intro x
    simpa using (has_join touch).mp
  · simp

end Layout

/-! ## Blocks narrowed along the list -/

section Narrows

variable {cs : List Block} (narrows : bs.Forall₂ (Block.Narrows grain) cs)

include narrows

/-- Narrowing blocks brings no address in. -/
theorem covered_of_narrows {x : Nat} (covered : Covered cs x) : Covered bs x := by
  induction narrows with
  | nil => exact covered
  | cons head _ ih =>
    rw [covered_cons] at covered ⊢
    rcases covered with has | later
    · exact Or.inl (head.inside x has)
    · exact Or.inr (ih later)

/-- Narrowing blocks keeps the layout. -/
theorem layout_narrows (layout : Layout grain limit bs) : Layout grain limit cs := by
  induction narrows with
  | nil => exact layout
  | cons head tail ih =>
    obtain ⟨-, below, apart, rest⟩ := layout_cons.mp layout
    refine layout_cons.mpr ⟨head.aligned, Nat.le_trans head.stop below, ?_, ih rest⟩
    intro x has covered
    exact apart x (head.inside x has) (covered_of_narrows tail covered)

end Narrows

/-! ## Blocks handed out along the list -/

section Claims

variable {cs : List Block} (claims : bs.Forall₂ Block.Claims cs) {x : Nat}

include claims

/-- Handing blocks out moves no address in or out. -/
theorem covered_claims : Covered cs x ↔ Covered bs x := by
  induction claims with
  | nil => rfl
  | cons head _ ih => simp only [covered_cons, head.has_iff, ih]

/-- Blocks handed out stay as they are. -/
theorem mem_claims {c : Block} (member : c ∈ bs) (used : c.used = true) : c ∈ cs := by
  induction claims with
  | nil => exact member
  | @cons b d _ _ head _ ih =>
    rcases List.mem_cons.mp member with rfl | later
    · have same : d = c := by
        obtain ⟨start, size, flag⟩ := head
        cases c
        cases d
        simp_all
      rw [same]
      exact List.mem_cons_self
    · exact List.mem_cons_of_mem _ (ih later)

/-- Addresses handed out stay so. -/
theorem usedAt_claims (used : UsedAt bs x) : UsedAt cs x := by
  induction claims with
  | nil => exact used
  | cons head _ ih =>
    rw [usedAt_cons] at used ⊢
    rcases used with ⟨flag, has⟩ | later
    · exact Or.inl ⟨head.used flag, (head.has_iff x).mpr has⟩
    · exact Or.inr (ih later)

/-- Handing blocks out keeps the layout. -/
theorem layout_claims (layout : Layout grain limit bs) : Layout grain limit cs := by
  induction claims with
  | nil => exact layout
  | @cons b c _ _ head tail ih =>
    obtain ⟨aligned, below, apart, rest⟩ := layout_cons.mp layout
    refine layout_cons.mpr ⟨?_, ?_, ?_, ih rest⟩
    · rwa [head.start, head.size]
    · unfold Block.stop at *
      rwa [head.start, head.size]
    · intro x has
      rw [covered_claims tail]
      exact apart x ((head.has_iff x).mp has)

end Claims

/-! ## The normal form under merging -/

/-- Merge every run of free blocks that touch. -/
def coalesce : List Block → List Block
  | [] => []
  | b :: bs =>
    match coalesce bs with
    | [] => [b]
    | c :: cs => if b.Mergeable c then b.join c :: cs else b :: c :: cs

/-- No two neighbours can be merged. -/
def Coalesced (bs : List Block) : Prop := bs.IsChain fun a b => ¬ a.Mergeable b

/-- A list without mergeable neighbours is its own normal form. -/
theorem coalesce_eq_self (settled : Coalesced bs) : coalesce bs = bs := by
  induction bs with
  | nil => rfl
  | cons b bs ih =>
    have rest : coalesce bs = bs := ih settled.tail
    cases bs with
    | nil => rfl
    | cons c cs =>
      have apart : ¬ b.Mergeable c := (List.isChain_cons_cons.mp settled).1
      simp only [coalesce] at rest ⊢
      rw [rest]
      simp [apart]

/-- The normal form of the tail decides the normal form of the whole. -/
theorem coalesce_append_congr (pre : List Block) (same : coalesce olds = coalesce news) :
    coalesce (pre ++ olds) = coalesce (pre ++ news) := by
  induction pre with
  | nil => exact same
  | cons b pre ih => simp only [List.cons_append, coalesce, ih]

/-- Merging two neighbours does not change the normal form. -/
theorem coalesce_join {a b : Block} (mergeable : a.Mergeable b) :
    coalesce (a :: b :: post) = coalesce (a.join b :: post) := by
  obtain ⟨freeA, freeB, touch⟩ := mergeable
  cases tail : coalesce post with
  | nil => simp [coalesce, tail, Block.Mergeable, freeA, freeB, touch]
  | cons c cs =>
    have stop : (a.join b).stop = b.stop := by
      simp only [Block.stop, Block.join] at *
      omega
    by_cases more : b.Mergeable c
    · have whole : (a.join b).Mergeable c := ⟨freeA, more.2.1, stop.trans more.2.2⟩
      have first : a.Mergeable (b.join c) := ⟨freeA, freeB, touch⟩
      simp only [coalesce, tail, if_pos more, if_pos whole, if_pos first]
      simp only [Block.join, Nat.add_assoc]
    · have whole : ¬ (a.join b).Mergeable c := fun h => more ⟨freeB, h.2.1, stop ▸ h.2.2⟩
      have first : a.Mergeable b := ⟨freeA, freeB, touch⟩
      simp only [coalesce, tail, if_neg more, if_neg whole, if_pos first]

/-- Merge the first block with its follower when both are free and touch. -/
def mergeHead : List Block → List Block
  | a :: b :: post => if a.Mergeable b then a.join b :: post else a :: b :: post
  | bs => bs

/-- Merge across the seam of two lists. -/
def mergeSeam (pre post : List Block) : List Block :=
  match pre.getLast? with
  | none => post
  | some a => pre.dropLast ++ mergeHead (a :: post)

/-- The seam behind a last block is the head of the rest. -/
@[simp] theorem mergeSeam_concat (pre post : List Block) (a : Block) :
    mergeSeam (pre ++ [a]) post = pre ++ mergeHead (a :: post) := by
  simp [mergeSeam]

section Relabel

variable {relabel : Block → Block} (keeps : ∀ b : Block, b.used = false → relabel b = b)

include keeps

/-- Merging at the head does not change the normal form, under any relabelling that leaves
free blocks alone. -/
theorem coalesce_mergeHead (bs : List Block) :
    coalesce ((mergeHead bs).map relabel) = coalesce (bs.map relabel) := by
  match bs with
  | [] => rfl
  | [_] => rfl
  | a :: b :: post =>
    by_cases mergeable : a.Mergeable b
    · have joined : (a.join b).used = false := mergeable.1
      simp only [mergeHead, if_pos mergeable, List.map_cons, keeps _ joined,
        keeps a mergeable.1, keeps b mergeable.2.1]
      exact (coalesce_join mergeable).symm
    · simp only [mergeHead, if_neg mergeable]

/-- Merging at a seam does not change the normal form either. -/
theorem coalesce_mergeSeam (pre post : List Block) :
    coalesce ((mergeSeam pre post).map relabel) = coalesce ((pre ++ post).map relabel) := by
  rcases List.eq_nil_or_concat pre with rfl | ⟨init, a, rfl⟩
  · rfl
  · rw [List.concat_eq_append, mergeSeam_concat, List.append_assoc, List.map_append,
      List.map_append]
    exact coalesce_append_congr _ (coalesce_mergeHead keeps _)

end Relabel

/-- Merging at the head leaves the stop of the first block's run unmergeable with the rest. -/
theorem coalesced_mergeHead {b : Block} (settled : Coalesced post) :
    Coalesced (mergeHead (b :: post)) := by
  match post with
  | [] => exact List.isChain_singleton b
  | c :: cs =>
    by_cases mergeable : b.Mergeable c
    · simp only [mergeHead, if_pos mergeable]
      refine List.isChain_cons.mpr ⟨?_, settled.tail⟩
      intro d head contrary
      have next := (List.isChain_cons.mp settled).1 d head
      refine next ⟨mergeable.2.1, contrary.2.1, ?_⟩
      have touch := mergeable.2.2
      have stop := contrary.2.2
      simp only [Block.stop, Block.join] at *
      omega
    · simp only [mergeHead, if_neg mergeable]
      exact List.isChain_cons_cons.mpr ⟨mergeable, settled⟩

/-- Merging at a seam keeps both sides unmergeable. -/
theorem coalesced_mergeSeam (left : Coalesced pre) (right : Coalesced post) :
    Coalesced (mergeSeam pre post) := by
  rcases List.eq_nil_or_concat pre with rfl | ⟨init, a, rfl⟩
  · exact right
  · rw [List.concat_eq_append] at left ⊢
    rw [mergeSeam_concat]
    have merged : Coalesced (mergeHead (a :: post)) := coalesced_mergeHead right
    refine List.isChain_append.mpr ⟨left.left_of_append, merged, ?_⟩
    intro z last y head
    have before := (List.isChain_append.mp left).2.2 z last a rfl
    -- The block behind the seam starts where `a` does and has its flag.
    have like : y.start = a.start ∧ y.used = a.used := by
      cases post with
      | nil => simp_all [mergeHead]
      | cons c cs =>
        by_cases mergeable : a.Mergeable c
        · simp only [mergeHead, if_pos mergeable, List.head?_cons, Option.mem_some_iff] at head
          subst head
          exact ⟨rfl, rfl⟩
        · simp only [mergeHead, if_neg mergeable, List.head?_cons, Option.mem_some_iff] at head
          subst head
          exact ⟨rfl, rfl⟩
    exact fun h => before ⟨h.1, like.2 ▸ h.2.1, like.1 ▸ h.2.2⟩

/-- Merging at the head keeps the place and the flag of the first block. -/
theorem mergeHead_cons (b : Block) (post : List Block) :
    ∃ m rest, mergeHead (b :: post) = m :: rest ∧ m.start = b.start ∧ m.used = b.used := by
  match post with
  | [] => exact ⟨b, [], rfl, rfl, rfl⟩
  | c :: post =>
    by_cases mergeable : b.Mergeable c
    · exact ⟨b.join c, post, if_pos mergeable, rfl, rfl⟩
    · exact ⟨b, c :: post, if_neg mergeable, rfl, rfl⟩

/-- Merging at the head does not touch the blocks handed out. -/
theorem filter_mergeHead (bs : List Block) :
    (mergeHead bs).filter Block.used = bs.filter Block.used := by
  match bs with
  | [] => rfl
  | [_] => rfl
  | a :: b :: post =>
    by_cases mergeable : a.Mergeable b
    · have joined : (a.join b).used = false := mergeable.1
      simp [mergeHead, if_pos mergeable, joined, mergeable.1, mergeable.2.1]
    · simp [mergeHead, if_neg mergeable]

/-- Merging across a seam does not touch the blocks handed out. -/
theorem filter_mergeSeam (pre post : List Block) :
    (mergeSeam pre post).filter Block.used = (pre ++ post).filter Block.used := by
  rcases List.eq_nil_or_concat pre with rfl | ⟨init, a, rfl⟩
  · rfl
  · rw [List.concat_eq_append, mergeSeam_concat, List.filter_append, filter_mergeHead,
      ← List.filter_append, List.append_assoc]
    rfl

/-! ## Handing out from a merged list -/

/-- Handing out a block leaves no new free neighbours. -/
theorem Coalesced.hand {b : Block} (settled : Coalesced (pre ++ b :: post)) :
    Coalesced (pre ++ { b with used := true } :: post) := by
  unfold Coalesced at *
  rw [List.isChain_append] at settled ⊢
  obtain ⟨left, right, -⟩ := settled
  refine ⟨left, ?_, ?_⟩
  · cases post with
    | nil => exact List.isChain_singleton _
    | cons c post =>
      rw [List.isChain_cons_cons] at right ⊢
      exact ⟨fun mergeable => Bool.noConfusion mergeable.1, right.2⟩
  · intro a _ c head mergeable
    obtain rfl : { b with used := true } = c := by simpa using head
    exact Bool.noConfusion mergeable.2.1

/-- Cutting a free block and handing out its first part leaves no new free neighbours. -/
theorem Coalesced.cut {b : Block} {n : Nat} (settled : Coalesced (pre ++ b :: post))
    (free : b.used = false) (fits : n ≤ b.size) :
    Coalesced (pre ++ b.front n :: b.back n :: post) := by
  unfold Coalesced at *
  rw [List.isChain_append] at settled ⊢
  obtain ⟨left, right, -⟩ := settled
  refine ⟨left, List.isChain_cons_cons.mpr ⟨fun mergeable => Bool.noConfusion mergeable.1, ?_⟩, ?_⟩
  · cases post with
    | nil => exact List.isChain_singleton _
    | cons c post =>
      rw [List.isChain_cons_cons] at right ⊢
      refine ⟨fun mergeable => right.1 ⟨free, mergeable.2.1, ?_⟩, right.2⟩
      rw [← mergeable.2.2]
      simp only [Block.back, Block.stop]
      omega
  · intro a _ c head mergeable
    obtain rfl : b.front n = c := by simpa using head
    exact Bool.noConfusion mergeable.2.1

end Library
