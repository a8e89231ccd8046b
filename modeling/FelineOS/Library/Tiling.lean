import FelineOS.Library.Blocks

/-!
# Blocks that tile a range

`Tiles start bs stop` says that the blocks lie one behind the other, from `start` to `stop`,
with nothing between them. Handing a block out, cutting it and merging neighbours keep the
tiling. A tiled range whose blocks are all free and merged is a single block
(`Tiles.eq_singleton`).
-/

namespace Library

/-- The blocks lie one behind the other, from `start` to `stop`. -/
def Tiles : Nat → List Block → Nat → Prop
  | start, [], stop => start = stop
  | start, b :: bs, stop => b.start = start ∧ Tiles b.stop bs stop

variable {start stop n : Nat} {a b c : Block} {bs pre post : List Block}

/-- A tiling of a concatenation is a tiling of each half, meeting at a middle address. -/
theorem tiles_append : Tiles start (pre ++ post) stop ↔
    ∃ middle, Tiles start pre middle ∧ Tiles middle post stop := by
  induction pre generalizing start with
  | nil => simp [Tiles]
  | cons b pre ih => simp only [List.cons_append, Tiles, ih, and_assoc, exists_and_left]

namespace Tiles

/-- A tiling never runs backwards. -/
theorem le (tiles : Tiles start bs stop) : start ≤ stop := by
  induction bs generalizing start with
  | nil => exact Nat.le_of_eq tiles
  | cons b bs ih =>
    obtain ⟨first, rest⟩ := tiles
    have behind := ih rest
    unfold Block.stop at behind
    omega

/-- The blocks lie in the range. -/
theorem bounds (tiles : Tiles start bs stop) (member : b ∈ bs) :
    start ≤ b.start ∧ b.stop ≤ stop := by
  obtain ⟨pre, post, rfl⟩ := List.append_of_mem member
  obtain ⟨middle, left, first, right⟩ := tiles_append.mp tiles
  have before := left.le
  have behind := right.le
  omega

/-- Each block ends before the later ones start. -/
theorem ordered (tiles : Tiles start bs stop) : bs.Pairwise fun a b => a.stop ≤ b.start := by
  induction bs generalizing start with
  | nil => exact List.Pairwise.nil
  | cons b bs ih =>
    obtain ⟨-, rest⟩ := tiles
    exact List.pairwise_cons.mpr ⟨fun c member => (rest.bounds member).1, ih rest⟩

/-- The sizes of the blocks add up to the size of the range. -/
theorem sum_size (tiles : Tiles start bs stop) : start + (bs.map Block.size).sum = stop := by
  induction bs generalizing start with
  | nil => simpa [Tiles] using tiles
  | cons b bs ih =>
    obtain ⟨first, rest⟩ := tiles
    have total := ih rest
    simp only [List.map_cons, List.sum_cons]
    unfold Block.stop at total
    omega

/-- Neighbouring blocks of a tiling touch. -/
theorem touch (tiles : Tiles start (pre ++ a :: b :: post) stop) : a.stop = b.start := by
  obtain ⟨middle, -, -, next, -⟩ := tiles_append.mp tiles
  exact next.symm

/-- Neighbouring blocks may be replaced by others over the same range. -/
theorem replace {olds : List Block} (news : List Block)
    (tiles : Tiles start (pre ++ olds ++ post) stop)
    (same : ∀ first last, Tiles first olds last → Tiles first news last) :
    Tiles start (pre ++ news ++ post) stop := by
  obtain ⟨last, outer, right⟩ := tiles_append.mp tiles
  obtain ⟨first, left, inner⟩ := tiles_append.mp outer
  exact tiles_append.mpr ⟨last, tiles_append.mpr ⟨first, left, same first last inner⟩, right⟩

/-- Changing the flag of a block keeps the tiling. -/
theorem reflag (tiles : Tiles start (pre ++ b :: post) stop) (flag : Bool) :
    Tiles start (pre ++ { b with used := flag } :: post) stop := by
  obtain ⟨middle, left, first, right⟩ := tiles_append.mp tiles
  exact tiles_append.mpr ⟨middle, left, first, right⟩

/-- Cutting a block in two keeps the tiling. -/
theorem cut (tiles : Tiles start (pre ++ b :: post) stop) (fits : n ≤ b.size) (flag : Bool) :
    Tiles start (pre ++ ⟨b.start, n, flag⟩ :: b.back n :: post) stop := by
  obtain ⟨middle, left, first, right⟩ := tiles_append.mp tiles
  have ends : (b.back n).stop = b.stop := by
    simp only [Block.back, Block.stop]
    omega
  refine tiles_append.mpr ⟨middle, left, first, rfl, ?_⟩
  rw [ends]
  exact right

/-- Merging at the head keeps the tiling. -/
theorem mergeHead (tiles : Tiles start bs stop) : Tiles start (mergeHead bs) stop := by
  match bs, tiles with
  | [], tiles => exact tiles
  | [_], tiles => exact tiles
  | a :: b :: post, ⟨first, next, rest⟩ =>
    by_cases mergeable : a.Mergeable b
    · have ends : (a.join b).stop = b.stop := by
        simp only [Block.join, Block.stop] at *
        omega
      simp only [Library.mergeHead, if_pos mergeable, Tiles]
      rw [ends]
      exact ⟨first, rest⟩
    · simp only [Library.mergeHead, if_neg mergeable]
      exact ⟨first, next, rest⟩

/-- Merging across a seam keeps the tiling. -/
theorem mergeSeam (tiles : Tiles start (pre ++ post) stop) :
    Tiles start (mergeSeam pre post) stop := by
  rcases List.eq_nil_or_concat pre with rfl | ⟨init, a, rfl⟩
  · exact tiles
  · rw [List.concat_eq_append] at tiles ⊢
    rw [mergeSeam_concat]
    rw [List.append_assoc] at tiles
    obtain ⟨middle, left, right⟩ := tiles_append.mp tiles
    exact tiles_append.mpr ⟨middle, left, right.mergeHead⟩

/-- Free neighbours of a tiling can always be merged, so of two merged neighbours one is
handed out. -/
theorem isChain_used (tiles : Tiles start bs stop) (settled : Coalesced bs) :
    bs.IsChain fun a b => a.used = true ∨ b.used = true := by
  unfold Coalesced at settled
  rw [List.isChain_iff_forall_rel_of_append_cons_cons] at settled ⊢
  intro a b pre post shape
  have apart := settled shape
  rw [shape] at tiles
  by_contra free
  push Not at free
  exact apart ⟨by simpa using free.1, by simpa using free.2, tiles.touch⟩

/-- Merged free blocks that tile a range are one block. -/
theorem eq_singleton (tiles : Tiles start bs stop) (settled : Coalesced bs)
    (free : ∀ b ∈ bs, b.used = false) (some : bs ≠ []) : ∃ b, bs = [b] := by
  match bs, some with
  | [b], _ => exact ⟨b, rfl⟩
  | a :: b :: post, _ =>
    have apart : ¬ a.Mergeable b := (List.isChain_cons_cons.mp settled).1
    have whole : Tiles start ([] ++ a :: b :: post) stop := tiles
    exact absurd ⟨free a (by simp), free b (by simp), whole.touch⟩ apart

end Tiles

/-- A property of blocks that joining keeps is kept by merging at the head. -/
theorem forall_mergeHead {P : Block → Prop} (joins : ∀ a b, P a → P b → P (a.join b))
    (all : ∀ b ∈ bs, P b) : ∀ b ∈ mergeHead bs, P b := by
  match bs with
  | [] => exact all
  | [_] => exact all
  | a :: b :: post =>
    by_cases mergeable : a.Mergeable b
    · simp only [mergeHead, if_pos mergeable]
      intro c member
      rcases List.mem_cons.mp member with rfl | later
      · exact joins a b (all a (by simp)) (all b (by simp))
      · exact all c (by simp [later])
    · simp only [mergeHead, if_neg mergeable]
      exact all

/-- A property of blocks that joining keeps is kept by merging across a seam. -/
theorem forall_mergeSeam {P : Block → Prop} (joins : ∀ a b, P a → P b → P (a.join b))
    (all : ∀ b ∈ pre ++ post, P b) : ∀ b ∈ mergeSeam pre post, P b := by
  rcases List.eq_nil_or_concat pre with rfl | ⟨init, a, rfl⟩
  · exact all
  · rw [List.concat_eq_append] at all ⊢
    rw [mergeSeam_concat]
    intro b member
    rcases List.mem_append.mp member with left | right
    · exact all b (by simp [left])
    · refine forall_mergeHead joins ?_ b right
      intro c inside
      refine all c ?_
      rw [List.append_assoc]
      exact List.mem_append_right init inside

end Library
