import Mathlib.Data.List.Nodup
import Mathlib.Data.List.Basic
import Mathlib.Tactic.Common

/-!
# Doubly linked chains

A store of nodes is seen only through its two link functions. `Chain next prev before xs
after` says that the nodes `xs` are linked both ways in this order, that the first of them
points back to `before` and that the last points on to `after`. Chains of a concatenation
are chains of the halves (`chain_append`), and the edits of a list implementation are stated
on the link functions alone: a node linked in behind another (`Chain.insert`), the follower
of a node or any node taken out (`Chain.remove`, `Chain.unlink`), and a whole chain linked in
behind the last node (`Chain.splice`).
-/

namespace Library

variable {ι : Type}

/-- The nodes are linked both ways, from `before` to `after`. -/
def Chain (next prev : ι → Option ι) : Option ι → List ι → Option ι → Prop
  | _, [], _ => True
  | before, x :: xs, after =>
    prev x = before ∧ next x = xs.head?.or after ∧ Chain next prev (some x) xs after

variable {next prev next' prev' : ι → Option ι} {before after : Option ι} {xs ys : List ι}

/-- A chain of a concatenation is a chain of each half, linked at the seam. -/
theorem chain_append : Chain next prev before (xs ++ ys) after ↔
    Chain next prev before xs (ys.head?.or after) ∧
      Chain next prev (xs.getLast?.or before) ys after := by
  induction xs generalizing before with
  | nil => simp [Chain]
  | cons x xs ih =>
    have seam : (xs ++ ys).head?.or after = xs.head?.or (ys.head?.or after) := by
      rw [List.head?_append, Option.or_assoc]
    have last : (x :: xs).getLast?.or before = xs.getLast?.or (some x) := by
      rw [List.getLast?_cons]
      cases xs.getLast? <;> rfl
    simp only [List.cons_append, Chain, seam, last, ih, and_assoc]

/-- A chain reads only the links of its own nodes. -/
theorem Chain.congr (chain : Chain next prev before xs after)
    (same : ∀ x ∈ xs, next' x = next x ∧ prev' x = prev x) :
    Chain next' prev' before xs after := by
  induction xs generalizing before with
  | nil => trivial
  | cons x xs ih =>
    obtain ⟨back, forth, rest⟩ := chain
    obtain ⟨sameNext, samePrev⟩ := same x List.mem_cons_self
    exact ⟨samePrev.trans back, sameNext.trans forth,
      ih rest fun y member => same y (List.mem_cons_of_mem x member)⟩

/-- The back link of the first node can be redirected without touching the others. -/
theorem Chain.redirect {before' : Option ι} (chain : Chain next prev before xs after)
    (first : ∀ x ∈ xs.head?, prev' x = before' ∧ next' x = next x)
    (same : ∀ x ∈ xs.tail, next' x = next x ∧ prev' x = prev x) :
    Chain next' prev' before' xs after := by
  cases xs with
  | nil => trivial
  | cons x xs =>
    obtain ⟨back, forth, rest⟩ := chain
    obtain ⟨redirected, kept⟩ := first x rfl
    exact ⟨redirected, kept.trans forth, rest.congr same⟩

/-- The forward link of the last node can be redirected without touching the others. -/
theorem Chain.redirectLast {after' : Option ι} (chain : Chain next prev before xs after)
    (last : ∀ x ∈ xs.getLast?, next' x = after' ∧ prev' x = prev x)
    (same : ∀ x ∈ xs.dropLast, next' x = next x ∧ prev' x = prev x) :
    Chain next' prev' before xs after' := by
  rcases List.eq_nil_or_concat xs with rfl | ⟨init, x, rfl⟩
  · trivial
  · rw [List.concat_eq_append] at chain last same ⊢
    obtain ⟨left, back, -, -⟩ := chain_append.mp chain
    obtain ⟨redirected, kept⟩ := last x (by simp)
    rw [List.dropLast_concat] at same
    exact chain_append.mpr ⟨left.congr same, kept.trans back, redirected, trivial⟩

/-- Link a chain in behind the last node of another. -/
theorem Chain.splice {before' after' : Option ι} {x y : ι} (front : Chain next prev before (xs ++ [x]) after)
    (rear : Chain next prev before' (y :: ys) after')
    (xLinks : next' x = some y ∧ prev' x = prev x) (yLinks : prev' y = some x ∧ next' y = next y)
    (same : ∀ z ∈ xs ++ ys, next' z = next z ∧ prev' z = prev z) :
    Chain next' prev' before (xs ++ x :: y :: ys) after' := by
  obtain ⟨left, back, -, -⟩ := chain_append.mp front
  obtain ⟨-, forward, right⟩ := rear
  apply chain_append.mpr
  refine ⟨?_, xLinks.2.trans back, xLinks.1, yLinks.1, yLinks.2.trans forward, ?_⟩
  · exact left.congr fun z member => same z (List.mem_append_left _ member)
  · exact right.congr fun z member => same z (List.mem_append_right _ member)

/-- In a chain a node's forward link is the next node of the list. -/
theorem Chain.next_eq {x : ι} (chain : Chain next prev before (xs ++ x :: ys) after) :
    next x = ys.head?.or after := (chain_append.mp chain).2.2.1

/-- In a chain a node's back link is the previous node of the list. -/
theorem Chain.prev_eq {x : ι} (chain : Chain next prev before (xs ++ x :: ys) after) :
    prev x = xs.getLast?.or before := (chain_append.mp chain).2.1

/-- Take a node out: its neighbours take over its links, and every other link is kept. -/
theorem Chain.unlink {y : ι} (chain : Chain next prev before (xs ++ y :: ys) after)
    (left : ∀ x ∈ xs.getLast?, next' x = next y ∧ prev' x = prev x)
    (right : ∀ z ∈ ys.head?, prev' z = prev y ∧ next' z = next z)
    (same : ∀ z ∈ xs.dropLast ++ ys.tail, next' z = next z ∧ prev' z = prev z) :
    Chain next' prev' before (xs ++ ys) after := by
  have forward := chain.next_eq
  have back := chain.prev_eq
  obtain ⟨first, -, -, last⟩ := chain_append.mp chain
  rw [forward] at left
  rw [back] at right
  apply chain_append.mpr
  refine ⟨first.redirectLast left ?_, last.redirect right ?_⟩
  · exact fun z member => same z (List.mem_append_left _ member)
  · exact fun z member => same z (List.mem_append_right _ member)

/-- Link a new node in behind `x`: the new node takes over the forward link of `x`, its
follower and `x` point at it, and every other link is kept. -/
theorem Chain.insert {x t : ι} (chain : Chain next prev before (xs ++ x :: ys) after)
    (tNext : next' t = next x) (tPrev : prev' t = some x)
    (xNext : next' x = some t) (xPrev : prev' x = prev x)
    (follower : ∀ y ∈ ys.head?, prev' y = some t ∧ next' y = next y)
    (same : ∀ y ∈ xs ++ ys.tail, next' y = next y ∧ prev' y = prev y) :
    Chain next' prev' before (xs ++ x :: t :: ys) after := by
  have forward := chain.next_eq
  obtain ⟨left, back, -, right⟩ := chain_append.mp chain
  apply chain_append.mpr
  refine ⟨?_, xPrev.trans back, xNext, tPrev, tNext.trans forward, ?_⟩
  · exact left.congr fun y member => same y (List.mem_append_left _ member)
  · exact right.redirect follower fun y member => same y (List.mem_append_right _ member)

/-- Take the node behind `x` out: `x` takes over its forward link, its follower points back
at `x`, and every other link is kept. -/
theorem Chain.remove {x y : ι} (chain : Chain next prev before (xs ++ x :: y :: ys) after)
    (xNext : next' x = next y) (xPrev : prev' x = prev x)
    (follower : ∀ z ∈ ys.head?, prev' z = some x ∧ next' z = next z)
    (same : ∀ z ∈ xs ++ ys.tail, next' z = next z ∧ prev' z = prev z) :
    Chain next' prev' before (xs ++ x :: ys) after := by
  obtain ⟨left, back, -, -, forward, right⟩ := chain_append.mp chain
  apply chain_append.mpr
  refine ⟨?_, xPrev.trans back, xNext.trans forward, ?_⟩
  · exact left.congr fun z member => same z (List.mem_append_left _ member)
  · exact right.redirect follower fun z member => same z (List.mem_append_right _ member)

/-- A forward link inside a closed chain stays inside and is answered by a back link. -/
theorem Chain.prev_of_next (chain : Chain next prev none xs none) {x y : ι} (member : x ∈ xs)
    (link : next x = some y) : y ∈ xs ∧ prev y = some x := by
  obtain ⟨left, right, rfl⟩ := List.append_of_mem member
  have forward := chain.next_eq
  rw [link, Option.or_none] at forward
  cases right with
  | nil => simp at forward
  | cons z right =>
    obtain rfl : y = z := by simpa using forward
    refine ⟨by simp, ?_⟩
    have regrouped : left ++ x :: y :: right = (left ++ [x]) ++ y :: right := by simp
    rw [regrouped] at chain
    simpa using chain.prev_eq

/-- A back link inside a closed chain stays inside and is answered by a forward link. -/
theorem Chain.next_of_prev (chain : Chain next prev none xs none) {x y : ι} (member : y ∈ xs)
    (link : prev y = some x) : x ∈ xs ∧ next x = some y := by
  obtain ⟨left, right, rfl⟩ := List.append_of_mem member
  have back := chain.prev_eq
  rw [link, Option.or_none] at back
  rcases List.eq_nil_or_concat left with rfl | ⟨init, z, rfl⟩
  · simp at back
  · obtain rfl : x = z := by simpa using back
    refine ⟨by simp, ?_⟩
    have regrouped : init.concat x ++ y :: right = init ++ x :: y :: right := by simp
    rw [regrouped] at chain
    simpa using chain.next_eq

/-- A loop that follows the forward link: the nodes it passes with at most `fuel` steps. -/
def follow (next : ι → Option ι) : Nat → Option ι → List ι
  | 0, _ => []
  | _ + 1, none => []
  | fuel + 1, some x => x :: follow next fuel (next x)

/-- With enough steps the loop passes exactly the nodes of a chain that ends. -/
theorem Chain.follow_eq (chain : Chain next prev before xs none) {fuel : Nat}
    (enough : xs.length < fuel) : follow next fuel xs.head? = xs := by
  induction xs generalizing before fuel with
  | nil =>
    cases fuel with
    | zero => rfl
    | succ fuel => rfl
  | cons x xs ih =>
    obtain ⟨-, forward, rest⟩ := chain
    rw [Option.or_none] at forward
    cases fuel with
    | zero => simp at enough
    | succ fuel =>
      simp only [List.head?_cons, follow, forward]
      rw [ih rest (by simpa using enough)]

end Library
