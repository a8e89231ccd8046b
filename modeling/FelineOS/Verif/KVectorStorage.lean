import FelineOS.Kernel.KVectorStorage
import Mathlib.Data.List.Nodup

/-!
# Who owns the elements of a vector

The elements of the vector stand in its first places, and whatever else the block holds is never
read again. An erase makes some of these places dead and then swaps the later elements down over
them, one by one, so that the dead contents wander up behind the last element. Every buffer that
was pushed and every block that was allocated is at any time either released or still held, by an
element or by the vector itself.
-/

namespace FelineOS.Storage

variable {α ι : Type}

/-! ## The loops -/

section Loops

variable (elem : ElementType α ι)

/-- A place behind others. -/
theorem object_append (front : List (Option α)) (element : α) (rest : List (Option α)) :
    object (front ++ some element :: rest) front.length = .ok element := by
  unfold object
  rw [List.getElem?_append_right (Nat.le_refl _), Nat.sub_self, List.getElem?_cons_zero]

/-- A write to a place behind others. -/
theorem set_append (front : List (Option α)) (old new : Option α) (rest : List (Option α)) :
    (front ++ old :: rest).set front.length new = front ++ new :: rest := by
  rw [List.set_append_right _ _ (Nat.le_refl _), Nat.sub_self, List.set_cons_zero]

/-- Releases add up. -/
theorem release_release (heap : HeapLog ι) (first second : List ι) :
    (heap.release first).release second = heap.release (first ++ second) := by
  unfold HeapLog.release
  simp only [List.append_assoc]

/-- Whether the allocator has the bytes. -/
def answers (malloc : Nat → Option ι) (bytes : Nat) : Bool := (malloc bytes).isSome

/-- An allocation hands out one block, or aborts, as it does without the blocks. -/
theorem allocate_spec (malloc : Nat → Option ι) (sizeofT count : Nat) (heap : HeapLog ι) :
    (allocate malloc sizeofT count heap = .error .abort ∧
      FelineOS.allocate (answers malloc) sizeofT count = .error .abort) ∨
    ∃ block, allocate malloc sizeofT count heap =
        .ok (block, { heap with granted := heap.granted ++ [block] }) ∧
      FelineOS.allocate (answers malloc) sizeofT count = .ok () ∧
      count ≤ uintptrMax / sizeofT := by
  unfold allocate FelineOS.allocate answers
  by_cases large : uintptrMax / sizeofT < count
  · rw [if_pos large, if_pos large]
    exact .inl ⟨rfl, rfl⟩
  · rw [if_neg large, if_neg large]
    cases malloc (count * sizeofT) with
    | none => exact .inl ⟨rfl, rfl⟩
    | some block => exact .inr ⟨block, rfl, rfl, Nat.le_of_not_lt large⟩

/-- An allocator that always answers refuses only what is larger than the address space. -/
theorem allocate_large {malloc : Nat → Option ι} {sizeofT count : Nat}
    (granted : ∀ bytes, (malloc bytes).isSome)
    (refused : FelineOS.allocate (answers malloc) sizeofT count = .error .abort) :
    uintptrMax / sizeofT < count := by
  unfold FelineOS.allocate answers at refused
  by_contra small
  rw [if_neg small, if_pos (granted _)] at refused
  cases refused

/-- Destroying elements releases what each of them owns. -/
theorem destroyN_spec (dying : List α) (front rest : List (Option α)) (heap : HeapLog ι) :
    destroyN elem (front ++ dying.map some ++ rest) dying.length front.length heap =
      .ok (heap.release (dying.flatMap elem.destroy)) := by
  induction dying generalizing front heap with
  | nil => simp [destroyN, HeapLog.release]
  | cons element dying ih =>
    have shifted : front ++ (element :: dying).map some ++ rest =
        front ++ some element :: (dying.map some ++ rest) := by simp
    have next : front ++ some element :: (dying.map some ++ rest) =
        (front ++ [some element]) ++ dying.map some ++ rest := by simp
    have following := ih (front ++ [some element]) (heap.release (elem.destroy element))
    rw [List.length_append, List.length_singleton] at following
    rw [shifted, List.length_cons, destroyN, object_append, ok_bind, next, following,
      release_release, List.flatMap_cons]

/-- One element moves to the same place of the new block. -/
theorem uninitializedMove_step (count : Nat) (front rest done free : List (Option α)) (other : α)
    (even : front.length = done.length) :
    uninitializedMove elem (count + 1) front.length (front ++ some other :: rest)
        (done ++ none :: free) =
      uninitializedMove elem count (front.length + 1)
        (front ++ some (elem.moveConstruct other).2 :: rest) (done ++ some other :: free) := by
  have fits : front.length < (done ++ none :: free).length := by simp [even]
  rw [uninitializedMove, object_append, ok_bind]
  simp only [construct, elem.constructed, if_pos fits, ok_bind]
  rw [set_append, even, set_append]

/-- Moving to a new block carries the elements over and leaves nothing to release. -/
theorem uninitializedMove_spec (moving : List α) (front rest done : List (Option α)) (room : Nat)
    (even : front.length = done.length) (enough : moving.length ≤ room) :
    ∃ left : List α, left.length = moving.length ∧ left.flatMap elem.destroy = [] ∧
      uninitializedMove elem moving.length front.length (front ++ moving.map some ++ rest)
        (done ++ List.replicate room none) =
      .ok (front ++ left.map some ++ rest,
        done ++ moving.map some ++ List.replicate (room - moving.length) none) := by
  induction moving generalizing front done room with
  | nil => exact ⟨[], rfl, rfl, by simp [uninitializedMove]⟩
  | cons other moving ih =>
    obtain ⟨room, rfl⟩ : ∃ more, room = more + 1 := ⟨room - 1, by simp at enough; omega⟩
    obtain ⟨left, long, released, moved⟩ :=
      ih (front ++ [some (elem.moveConstruct other).2]) (done ++ [some other]) room
        (by simp [even]) (by simpa using enough)
    simp only [List.append_assoc, List.cons_append, List.nil_append, List.length_append,
      List.length_singleton] at moved
    refine ⟨(elem.moveConstruct other).2 :: left, ?_, ?_, ?_⟩
    · rw [List.length_cons, List.length_cons, long]
    · rw [List.flatMap_cons, elem.emptied, released, List.append_nil]
    · simp only [List.map_cons, List.cons_append, List.append_assoc, List.length_cons,
        List.replicate_succ, Nat.add_sub_add_right]
      rw [uninitializedMove_step elem _ _ _ _ _ _ even, moved]

/-- One element swaps with the dead place in front. -/
theorem moveDown_step (count : Nat) (front between rest : List (Option α)) (held other : α) :
    moveDown elem (count + 1) (front.length + (between.length + 1)) front.length
        (front ++ some held :: (between ++ some other :: rest)) =
      moveDown elem count (front.length + (between.length + 1) + 1) (front.length + 1)
        (front ++ some other :: (between ++ some (elem.moveAssign held other).2 :: rest)) := by
  have source (first : Option α) : front ++ first :: (between ++ some other :: rest) =
      (front ++ first :: between) ++ some other :: rest := by simp
  have place (first : Option α) : front.length + (between.length + 1) =
      (front ++ first :: between).length := by simp
  have read : object (front ++ some held :: (between ++ some other :: rest))
      (front.length + (between.length + 1)) = .ok other := by
    rw [source, place (some held), object_append]
  have written : (front ++ some other :: (between ++ some other :: rest)).set
      (front.length + (between.length + 1)) (some (elem.moveAssign held other).2) =
      front ++ some other :: (between ++ some (elem.moveAssign held other).2 :: rest) := by
    rw [source, place (some other), set_append]
    simp
  rw [moveDown, object_append, ok_bind, read, ok_bind]
  simp only [elem.assigned, set_append, written]

/-- Swapping elements down over dead places brings the dead contents behind the elements. -/
theorem moveDown_spec (moving dead : List α) (front rest : List (Option α))
    (dying : 0 < dead.length) :
    ∃ dead' : List α, dead'.length = dead.length ∧
      moveDown elem moving.length (front.length + dead.length) front.length
        (front ++ dead.map some ++ moving.map some ++ rest) =
      .ok (front ++ moving.map some ++ dead'.map some ++ rest) := by
  induction moving generalizing front dead with
  | nil => exact ⟨dead, rfl, by simp [moveDown]⟩
  | cons other moving ih =>
    obtain ⟨first, dead, rfl⟩ : ∃ first later, dead = first :: later :=
      List.exists_cons_of_length_pos dying
    obtain ⟨dead', long, moved⟩ :=
      ih (dead ++ [(elem.moveAssign first other).2]) (front ++ [some other]) (by simp)
    refine ⟨dead', by simpa using long, ?_⟩
    have next : front.length + ((dead.map some).length + 1) + 1 =
        (front ++ [some other]).length + (dead ++ [(elem.moveAssign first other).2]).length := by
      simp only [List.length_append, List.length_map, List.length_singleton]
      omega
    have step := moveDown_step elem moving.length front (dead.map some) (moving.map some ++ rest)
      first other
    rw [next] at step
    simp only [List.map_cons, List.map_append, List.map_nil, List.cons_append, List.append_assoc,
      List.nil_append, List.length_cons, List.length_append, List.length_nil, List.length_map,
      Nat.zero_add] at moved step ⊢
    rw [step, moved]

end Loops

/-! ## What a sequence of calls should do -/

/-- The elements that a call should leave. -/
def Call.expected : Call α ι → List α → List α
  | .pushBack _ item, elements => elements ++ [item]
  | .reserve _ _, elements => elements
  | .erase pos, elements => elements.eraseIdx pos
  | .eraseRange first last, elements => elements.take first ++ elements.drop last
  | .clear, _ => []

/-- The iterators of a call point into the vector, or behind its last element. -/
def Call.Valid : Call α ι → List α → Prop
  | .erase pos, elements => pos ≤ elements.length
  | .eraseRange first last, elements => first ≤ last ∧ last ≤ elements.length
  | _, _ => True

/-- The element that a call hands over. -/
def Call.pushed : Call α ι → List α
  | .pushBack _ item => [item]
  | _ => []

/-- The elements that the calls should leave. -/
def expected (calls : List (Call α ι)) (elements : List α) : List α :=
  calls.foldl (fun elements call => call.expected elements) elements

/-- The elements that the calls hand over. -/
def pushed (calls : List (Call α ι)) : List α := calls.flatMap Call.pushed

/-- Every call gets iterators of the vector as it is then. -/
def ValidRun : List (Call α ι) → List α → Prop
  | [], _ => True
  | call :: calls, elements => call.Valid elements ∧ ValidRun calls (call.expected elements)

/-- The allocator grants what a call asks it for. -/
def Call.Granted (sizeofT : Nat) : Call α ι → Prop
  | .pushBack malloc _ => ∀ bytes, (malloc bytes).isSome
  | .reserve malloc num => (∀ bytes, (malloc bytes).isSome) ∧ num ≤ uintptrMax / sizeofT
  | _ => True

/-- A call adds no more elements than it is handed. -/
theorem Call.expected_length_le (call : Call α ι) {elements : List α}
    (valid : call.Valid elements) :
    (call.expected elements).length ≤ elements.length + call.pushed.length := by
  cases call with
  | pushBack malloc item =>
    simp only [Call.expected, Call.pushed, List.length_append]
    exact Nat.le_refl _
  | reserve malloc num => exact Nat.le_refl _
  | erase pos => exact List.length_eraseIdx_le elements pos
  | eraseRange first last =>
    have ordered := valid.1
    simp only [Call.expected, List.length_append, List.length_take, List.length_drop]
    omega
  | clear => exact Nat.zero_le _

/-! ## One call -/

section Step

variable [DecidableEq ι] {elem : ElementType α ι} {given : List ι} {elements : List α}
  {v : Storage α ι} {heap : HeapLog ι}

/-- The vector holds the elements, and every buffer that was handed over and every block is either
released or held. -/
structure Holds (elem : ElementType α ι) (given : List ι) (elements : List α) (v : Storage α ι)
    (heap : HeapLog ι) : Prop where
  /-- The elements are in the first places. -/
  first : ∃ rest, v.places = elements.map some ++ rest
  /-- `num_items` is their number. -/
  number : v.numItems = elements.length
  /-- `m_capacity` is the number of places. -/
  block : v.places.length = v.capacity
  /-- The block is smaller than the address space. -/
  bounded : v.capacity ≤ uintptrMax / elem.sizeof
  /-- Everything is released or held. -/
  account : ∀ buffer, heap.released.count buffer + (elements.flatMap elem.destroy).count buffer +
    v.items.toList.count buffer = given.count buffer + heap.granted.count buffer

/-- The elements fit in the block. -/
theorem Holds.fits (holds : Holds elem given elements v heap) : v.numItems ≤ v.capacity := by
  obtain ⟨rest, places⟩ := holds.first
  rw [holds.number, ← holds.block, places, List.length_append, List.length_map]
  omega

/-- A larger number of elements still is a word. -/
theorem Holds.word (holds : Holds elem given elements v heap) : v.numItems + 1 < wordLimit := by
  have sized := elem.sized
  have fits := holds.fits
  have small : uintptrMax / elem.sizeof ≤ uintptrMax / 4 := Nat.div_le_div_left sized (by decide)
  have bounded := holds.bounded
  unfold uintptrMax at *
  unfold wordLimit
  omega

/-- A vector that was just constructed holds nothing. -/
theorem holds_empty (elem : ElementType α ι) : Holds elem [] [] empty ⟨[], []⟩ where
  first := ⟨[], rfl⟩
  number := rfl
  block := rfl
  bounded := Nat.zero_le _
  account _ := rfl

/-- Making room keeps the elements. -/
theorem Holds.reserve (holds : Holds elem given elements v heap) (malloc : Nat → Option ι)
    (num : Nat) :
    (v.reserve elem malloc num heap = .error .abort ∧ v.capacity < num ∧
      FelineOS.allocate (answers malloc) elem.sizeof num = .error .abort) ∨
    ∃ w after, v.reserve elem malloc num heap = .ok (w, after) ∧
      Holds elem given elements w after ∧ w.capacity = max v.capacity num ∧
      (v.capacity < num → FelineOS.allocate (answers malloc) elem.sizeof num = .ok ()) := by
  unfold Storage.reserve
  by_cases enough : num ≤ v.capacity
  · rw [if_pos enough]
    exact .inr ⟨v, heap, rfl, holds, (Nat.max_eq_left enough).symm, fun short => by omega⟩
  · rw [if_neg enough]
    have short : v.capacity < num := Nat.lt_of_not_le enough
    obtain ⟨rest, places⟩ := holds.first
    have room : elements.length ≤ num := by
      have fits := holds.fits
      have number := holds.number
      omega
    rcases allocate_spec malloc elem.sizeof num heap with
      ⟨refused, aborts⟩ | ⟨block, granted, returns, small⟩
    · rw [refused]
      exact .inl ⟨rfl, short, aborts⟩
    · obtain ⟨left, long, released, moved⟩ :=
        uninitializedMove_spec elem elements [] rest [] num rfl room
      have destroyed := destroyN_spec elem left [] rest
        { heap with granted := heap.granted ++ [block] }
      simp only [List.nil_append, List.length_nil] at moved destroyed
      rw [released, long] at destroyed
      let grown : Storage α ι := ⟨some block,
        elements.map some ++ List.replicate (num - elements.length) none, elements.length, num⟩
      refine .inr ⟨grown, HeapLog.release ⟨heap.granted ++ [block], heap.released ++ []⟩
        v.items.toList, ?_, ⟨⟨_, rfl⟩, rfl, ?_, small, ?_⟩,
        (Nat.max_eq_right (Nat.le_of_lt short)).symm, fun _ => returns⟩
      · rw [granted, ok_bind]
        simp only [holds.number, places, moved, ok_bind, destroyed]
        rfl
      · simp only [grown, List.length_append, List.length_map, List.length_replicate]
        omega
      · intro buffer
        have account := holds.account buffer
        simp only [grown, HeapLog.release, List.append_nil, List.count_append, Option.toList_some]
        omega

/-- An element that is pushed stands at the end. -/
theorem Holds.pushBack (holds : Holds elem given elements v heap) (malloc : Nat → Option ι)
    (item : α) :
    (v.pushBack elem malloc item heap = .error .abort ∧ v.capacity < elements.length + 1 ∧
      FelineOS.allocate (answers malloc) elem.sizeof (elements.length + 1) = .error .abort) ∨
    ∃ w after, v.pushBack elem malloc item heap = .ok (w, after) ∧
      Holds elem (given ++ elem.destroy item) (elements ++ [item]) w after ∧
      w.capacity = max v.capacity (elements.length + 1) ∧
      (v.capacity < elements.length + 1 →
        FelineOS.allocate (answers malloc) elem.sizeof (elements.length + 1) = .ok ()) := by
  unfold Storage.pushBack
  rw [wrap_of_lt holds.word, holds.number]
  rcases holds.reserve malloc (elements.length + 1) with
    ⟨refused, short, aborts⟩ | ⟨w, after, made, kept, capacity, returns⟩
  · rw [refused]
    exact .inl ⟨rfl, short, aborts⟩
  · obtain ⟨rest, places⟩ := kept.first
    have number := kept.number
    obtain ⟨old, rest, rfl⟩ : ∃ old later, rest = old :: later := by
      apply List.exists_cons_of_length_pos
      have block := kept.block
      rw [places, List.length_append, List.length_map] at block
      omega
    have fits : w.numItems < w.places.length := by
      rw [kept.block]
      omega
    have written : w.places.set w.numItems (some item) =
        (elements ++ [item]).map some ++ rest := by
      have place : w.numItems = (elements.map some).length := by rw [List.length_map, number]
      rw [places, place, set_append, List.map_append, List.append_assoc]
      rfl
    let longer : Storage α ι :=
      ⟨w.items, w.places.set w.numItems (some item), wrap (w.numItems + 1), w.capacity⟩
    refine .inr ⟨longer, after.release (elem.destroy (elem.moveConstruct item).2), ?_,
      ⟨⟨rest, written⟩, ?_, ?_, kept.bounded, ?_⟩, capacity, returns⟩
    · rw [made, ok_bind]
      simp only [construct, elem.constructed, if_pos fits, ok_bind]
      rfl
    · have word := wrap_of_lt kept.word
      rw [number] at word
      simp only [longer, number, word, List.length_append, List.length_singleton]
    · simp only [longer, List.length_set, kept.block]
    · intro buffer
      have account := kept.account buffer
      simp only [longer, HeapLog.release, elem.emptied, List.append_nil, List.count_append,
        List.flatMap_append, List.flatMap_cons, List.flatMap_nil]
      omega

/-- A range that is erased is gone with its buffers, and the later elements follow the earlier
ones. -/
theorem Holds.eraseRange (holds : Holds elem given elements v heap) {first last : Nat}
    (ordered : first ≤ last) (inside : last ≤ elements.length) :
    ∃ w after, v.eraseRange elem first last heap = .ok (w, after) ∧
      Holds elem given (elements.take first ++ elements.drop last) w after ∧
      w.capacity = v.capacity ∧
      after = heap.release (((elements.drop first).take (last - first)).flatMap elem.destroy) := by
  unfold Storage.eraseRange
  by_cases none : first = last
  · rw [if_pos none, ← none, List.take_append_drop, Nat.sub_self, List.take_zero]
    refine ⟨v, heap, rfl, holds, rfl, ?_⟩
    simp only [List.flatMap_nil, HeapLog.release, List.append_nil]
  · rw [if_neg none]
    obtain ⟨rest, places⟩ := holds.first
    -- the elements before, in and behind the range
    obtain ⟨before, dying, later, rfl, long, many⟩ : ∃ before dying later,
        elements = before ++ dying ++ later ∧ before.length = first ∧
        dying.length = last - first := by
      refine ⟨elements.take first, (elements.drop first).take (last - first),
        (elements.drop first).drop (last - first), ?_, ?_, ?_⟩
      · rw [List.append_assoc, List.take_append_drop, List.take_append_drop]
      · rw [List.length_take]
        omega
      · rw [List.length_take, List.length_drop]
        omega
    have number := holds.number
    rw [List.length_append, List.length_append] at number
    have behind : (before ++ dying).length = last := by
      rw [List.length_append]
      omega
    have kept : (before ++ dying ++ later).take first ++ (before ++ dying ++ later).drop last =
        before ++ later := by
      rw [← behind, List.drop_left, List.append_assoc, ← long, List.take_left]
    obtain ⟨dead, deadLong, moved⟩ :=
      moveDown_spec elem later dying (before.map some) rest (by omega)
    have destroyed := destroyN_spec elem dying (before.map some) (later.map some ++ rest) heap
    rw [List.map_append, List.map_append] at places
    rw [List.length_map, long, many, show first + (last - first) = last by omega, ← places] at moved
    rw [List.length_map, long, many, ← List.append_assoc, ← places] at destroyed
    let shorter : Storage α ι := ⟨v.items, before.map some ++ later.map some ++ dead.map some ++ rest,
      v.numItems - (last - first), v.capacity⟩
    have range : ((before ++ dying ++ later).drop first).take (last - first) = dying := by
      rw [List.append_assoc, ← long, List.drop_left, long, ← many, List.take_left]
    rw [kept, range]
    refine ⟨shorter, heap.release (dying.flatMap elem.destroy), ?_,
      ⟨⟨dead.map some ++ rest, ?_⟩, ?_, ?_, holds.bounded, ?_⟩, rfl, rfl⟩
    · rw [destroyed, ok_bind, show v.numItems - last = later.length by omega, moved]
      rfl
    · simp only [shorter, List.map_append, List.append_assoc]
    · simp only [shorter, List.length_append]
      omega
    · have block := holds.block
      rw [places] at block
      simp only [shorter, List.length_append, List.length_map] at block ⊢
      omega
    · intro buffer
      have account := holds.account buffer
      simp only [shorter, HeapLog.release, List.flatMap_append, List.count_append] at account ⊢
      omega

/-- An element that is erased is gone with its buffers. -/
theorem Holds.erase (holds : Holds elem given elements v heap) {pos : Nat}
    (inside : pos ≤ elements.length) :
    ∃ w after, v.erase elem pos heap = .ok (w, after) ∧
      Holds elem given (elements.eraseIdx pos) w after ∧ w.capacity = v.capacity ∧
      after = heap.release (((elements.drop pos).take 1).flatMap elem.destroy) := by
  by_cases end_ : pos = v.numItems
  · have behind : elements.length ≤ pos := by rw [end_, holds.number]
    rw [List.eraseIdx_of_length_le behind, List.drop_of_length_le behind]
    refine ⟨v, heap, ?_, holds, rfl, ?_⟩
    · rw [Storage.erase, if_pos end_]
    · simp only [List.take_nil, List.flatMap_nil, HeapLog.release, List.append_nil]
  · have within : pos + 1 ≤ elements.length := by
      have number := holds.number
      omega
    obtain ⟨w, after, erased, shorter, same, released⟩ :=
      holds.eraseRange (Nat.le_add_right pos 1) within
    rw [Nat.add_sub_cancel_left] at released
    rw [List.eraseIdx_eq_take_drop_succ]
    refine ⟨w, after, ?_, shorter, same, released⟩
    rw [Storage.eraseRange, if_neg (by omega), Nat.add_sub_cancel_left] at erased
    rw [Storage.erase, if_neg end_]
    exact erased

/-- A vector that is cleared has no elements, and its block stays. -/
theorem Holds.clear (holds : Holds elem given elements v heap) :
    ∃ w after, v.clear elem heap = .ok (w, after) ∧ Holds elem given [] w after := by
  obtain ⟨rest, places⟩ := holds.first
  have destroyed := destroyN_spec elem elements [] rest heap
  rw [List.nil_append, List.length_nil, ← places, ← holds.number] at destroyed
  refine ⟨{ v with numItems := 0 }, heap.release (elements.flatMap elem.destroy), ?_,
    ⟨⟨v.places, rfl⟩, rfl, holds.block, holds.bounded, ?_⟩⟩
  · rw [Storage.clear, destroyed]
    rfl
  · intro buffer
    have account := holds.account buffer
    simp only [HeapLog.release, List.count_append, List.flatMap_nil, List.count_nil]
    omega

/-- The destructor releases what is still held. -/
theorem Holds.destroy (holds : Holds elem given elements v heap) :
    ∃ gone, v.destroy elem heap = .ok gone ∧ gone.granted = heap.granted ∧
      gone.released.Perm (given ++ heap.granted) := by
  obtain ⟨rest, places⟩ := holds.first
  have destroyed := destroyN_spec elem elements [] rest heap
  rw [List.nil_append, List.length_nil, ← places, ← holds.number] at destroyed
  refine ⟨(heap.release (elements.flatMap elem.destroy)).release v.items.toList, ?_, rfl, ?_⟩
  · rw [Storage.destroy, destroyed]
    rfl
  · rw [List.perm_iff_count]
    intro buffer
    have account := holds.account buffer
    simp only [HeapLog.release, List.count_append]
    omega

/-! ### The vector without its storage -/

/-- The elements and the capacity. -/
def Holds.vector (holds : Holds elem given elements v heap) : KVector α :=
  ⟨elements, v.capacity, holds.number ▸ holds.fits⟩

/-- A list with one more element. -/
theorem length_concat_le {items : List α} {item : α} {n : Nat} (room : items.length + 1 ≤ n) :
    (items ++ [item]).length ≤ n := by
  simpa using room

/-- With room for it the element is appended. -/
theorem pushBack_room (k : KVector α) (malloc : Nat → Bool) (sizeofT : Nat) (item : α)
    (room : k.items.length + 1 ≤ k.capacity) :
    k.pushBack malloc sizeofT item =
      .ok ⟨k.items ++ [item], k.capacity, length_concat_le room⟩ := by
  obtain ⟨⟨w, kept, more⟩, made, same⟩ :
      ∃ w, k.reserve malloc sizeofT (k.items.length + 1) = .ok w ∧ w.1 = k := by
    unfold KVector.reserve
    rw [dif_pos room]
    exact ⟨_, rfl, rfl⟩
  have same : w = k := same
  subst w
  unfold KVector.pushBack
  rw [made]
  rfl

/-- Without room the vector first asks for one more place. -/
theorem pushBack_grow (k : KVector α) (malloc : Nat → Bool) (sizeofT : Nat) (item : α)
    (short : k.capacity < k.items.length + 1) :
    k.pushBack malloc sizeofT item =
      FelineOS.allocate malloc sizeofT (k.items.length + 1) >>= fun _ =>
        .ok ⟨k.items ++ [item], k.items.length + 1, length_concat_le (Nat.le_refl _)⟩ := by
  cases answer : FelineOS.allocate malloc sizeofT (k.items.length + 1) with
  | error fault =>
    unfold KVector.pushBack KVector.reserve
    rw [dif_neg (Nat.not_le_of_lt short), answer]
    rfl
  | ok granted =>
    obtain ⟨⟨w, kept, more⟩, made, rfl⟩ :
        ∃ w, k.reserve malloc sizeofT (k.items.length + 1) = .ok w ∧
          w.1 = ⟨k.items, k.items.length + 1, Nat.le_succ _⟩ := by
      unfold KVector.reserve
      rw [dif_neg (Nat.not_le_of_lt short), answer]
      exact ⟨_, rfl, rfl⟩
    unfold KVector.pushBack
    rw [made]
    rfl

/-- Pushing an element does to the storage what `KVector.pushBack` does to the elements. -/
theorem Holds.pushBack_vector (holds : Holds elem given elements v heap)
    (malloc : Nat → Option ι) (item : α) :
    (v.pushBack elem malloc item heap = .error .abort ∧
      holds.vector.pushBack (answers malloc) elem.sizeof item = .error .abort) ∨
    ∃ w after, ∃ longer : Holds elem (given ++ elem.destroy item) (elements ++ [item]) w after,
      v.pushBack elem malloc item heap = .ok (w, after) ∧
      holds.vector.pushBack (answers malloc) elem.sizeof item = .ok longer.vector := by
  rcases holds.pushBack malloc item with
    ⟨refused, short, aborts⟩ | ⟨w, after, done, longer, capacity, returns⟩
  · refine .inl ⟨refused, ?_⟩
    rw [pushBack_grow _ _ _ _ short]
    simp only [vector, aborts, error_bind]
  · refine .inr ⟨w, after, longer, done, ?_⟩
    by_cases room : elements.length + 1 ≤ v.capacity
    · rw [Nat.max_eq_left room] at capacity
      rw [pushBack_room _ _ _ _ room]
      simp only [vector, capacity]
    · have short : v.capacity < elements.length + 1 := Nat.lt_of_not_le room
      rw [Nat.max_eq_right (Nat.le_of_lt short)] at capacity
      rw [pushBack_grow _ _ _ _ short]
      simp only [vector, capacity, returns short, ok_bind]

/-- Erasing an element does to the storage what `KVector.erase` does to the elements. -/
theorem Holds.erase_vector (holds : Holds elem given elements v heap) {pos : Nat}
    (inside : pos ≤ elements.length) :
    ∃ w after, ∃ shorter : Holds elem given (elements.eraseIdx pos) w after,
      v.erase elem pos heap = .ok (w, after) ∧ holds.vector.erase pos = shorter.vector := by
  obtain ⟨w, after, done, shorter, capacity, -⟩ := holds.erase inside
  refine ⟨w, after, shorter, done, ?_⟩
  unfold KVector.erase
  simp only [vector, capacity]

end Step

/-! ## Whole runs -/

section Runs

variable [DecidableEq ι] {elem : ElementType α ι}

/-- A call leaves the elements it should, unless it runs out of memory. -/
theorem Holds.exec {given : List ι} {elements : List α} {v : Storage α ι} {heap : HeapLog ι}
    (holds : Holds elem given elements v heap) (call : Call α ι) (valid : call.Valid elements) :
    (exec elem call v heap = .error .abort ∧
      (call.Granted elem.sizeof →
        uintptrMax / elem.sizeof < elements.length + call.pushed.length)) ∨
    ∃ w after, exec elem call v heap = .ok (w, after) ∧
      Holds elem (given ++ call.pushed.flatMap elem.destroy) (call.expected elements) w after := by
  cases call with
  | pushBack malloc item =>
    have single : [item].flatMap elem.destroy = elem.destroy item := List.flatMap_singleton ..
    rcases holds.pushBack malloc item with ⟨refused, -, aborts⟩ | ⟨w, after, done, longer, -⟩
    · exact .inl ⟨refused, fun granted => allocate_large granted aborts⟩
    · refine .inr ⟨w, after, done, ?_⟩
      simp only [Call.pushed, single]
      exact longer
  | reserve malloc num =>
    rcases holds.reserve malloc num with ⟨refused, -, aborts⟩ | ⟨w, after, done, same, -⟩
    · exact .inl ⟨refused, fun granted =>
        absurd (allocate_large granted.1 aborts) (Nat.not_lt_of_le granted.2)⟩
    · refine .inr ⟨w, after, done, ?_⟩
      simpa only [Call.pushed, Call.expected, List.flatMap_nil, List.append_nil] using same
  | erase pos =>
    obtain ⟨w, after, done, shorter, -⟩ := holds.erase valid
    refine .inr ⟨w, after, done, ?_⟩
    simpa only [Call.pushed, Call.expected, List.flatMap_nil, List.append_nil] using shorter
  | eraseRange first last =>
    obtain ⟨w, after, done, shorter, -⟩ := holds.eraseRange valid.1 valid.2
    refine .inr ⟨w, after, done, ?_⟩
    simpa only [Call.pushed, Call.expected, List.flatMap_nil, List.append_nil] using shorter
  | clear =>
    obtain ⟨w, after, done, none⟩ := holds.clear
    refine .inr ⟨w, after, done, ?_⟩
    simpa only [Call.pushed, Call.expected, List.flatMap_nil, List.append_nil] using none

/-- A run leaves the elements it should, unless it runs out of memory. -/
theorem Holds.run (calls : List (Call α ι)) {given : List ι} {elements : List α} {v : Storage α ι}
    {heap : HeapLog ι} (holds : Holds elem given elements v heap)
    (valid : ValidRun calls elements) :
    (run elem calls v heap = .error .abort ∧
      ((∀ call ∈ calls, call.Granted elem.sizeof) →
        uintptrMax / elem.sizeof < elements.length + (pushed calls).length)) ∨
    ∃ w after, run elem calls v heap = .ok (w, after) ∧
      Holds elem (given ++ (pushed calls).flatMap elem.destroy) (expected calls elements) w after := by
  induction calls generalizing given elements v heap with
  | nil =>
    refine .inr ⟨v, heap, rfl, ?_⟩
    simpa only [pushed, expected, List.foldl_nil, List.flatMap_nil, List.append_nil] using holds
  | cons call calls ih =>
    have total : (pushed (call :: calls)).length = call.pushed.length + (pushed calls).length := by
      simp only [pushed, List.flatMap_cons, List.length_append]
    rw [Storage.run]
    rcases holds.exec call valid.1 with ⟨refused, large⟩ | ⟨w, after, done, next⟩
    · rw [refused]
      refine .inl ⟨rfl, fun granted => ?_⟩
      have exceeded := large (granted call (List.mem_cons_self ..))
      omega
    · rw [done, ok_bind]
      rcases ih next valid.2 with ⟨refused, large⟩ | ⟨u, final, ran, held⟩
      · refine .inl ⟨refused, fun granted => ?_⟩
        have exceeded := large fun later listed => granted later (List.mem_cons_of_mem _ listed)
        have growth := call.expected_length_le valid.1
        omega
      · refine .inr ⟨u, final, ran, ?_⟩
        simpa only [pushed, expected, List.foldl_cons, List.flatMap_cons, List.flatMap_append,
          List.append_assoc] using held

/-- A run leaves exactly the elements it should and room for them, or aborts for want of memory;
and once the vector is destroyed, every buffer that was pushed and every block that the vector
asked for has been released exactly as often as it was handed over. -/
theorem run_owns (elem : ElementType α ι) (calls : List (Call α ι)) (valid : ValidRun calls []) :
    (run elem calls empty ⟨[], []⟩ = .error .abort ∧
      ¬((∀ call ∈ calls, call.Granted elem.sizeof) ∧
        (pushed calls).length ≤ uintptrMax / elem.sizeof)) ∨
    ∃ v heap gone, run elem calls empty ⟨[], []⟩ = .ok (v, heap) ∧
      v.places.take v.numItems = (expected calls []).map some ∧
      v.numItems = (expected calls []).length ∧ v.numItems ≤ v.capacity ∧
      v.destroy elem heap = .ok gone ∧
      gone.released.Perm ((pushed calls).flatMap elem.destroy ++ gone.granted) ∧
      (((pushed calls).flatMap elem.destroy ++ gone.granted).Nodup →
        ∀ item ∈ pushed calls, ∀ buffer ∈ elem.destroy item,
          heap.released.count buffer ≤ 1 ∧ gone.released.count buffer = 1) := by
  rcases (holds_empty elem).run calls valid with ⟨refused, large⟩ | ⟨v, heap, ran, held⟩
  · refine .inl ⟨refused, fun enough => ?_⟩
    have exceeded := large enough.1
    have room := enough.2
    simp only [List.length_nil] at exceeded
    omega
  · obtain ⟨gone, destroyed, same, released⟩ := held.destroy
    obtain ⟨rest, places⟩ := held.first
    rw [List.nil_append, ← same] at released
    refine .inr ⟨v, heap, gone, ran, ?_, held.number, held.fits, destroyed, released, ?_⟩
    · rw [places, held.number, ← List.length_map some, List.take_left]
    · intro distinct item handed buffer owned
      have listed : buffer ∈ (pushed calls).flatMap elem.destroy :=
        List.mem_flatMap.mpr ⟨item, handed, owned⟩
      have once := List.count_eq_one_of_mem distinct (List.mem_append_left gone.granted listed)
      have whole := (released.count_eq buffer).trans once
      have account := held.account buffer
      rw [List.nil_append, ← same] at account
      rw [List.count_append] at once
      exact ⟨by omega, whole⟩

end Runs

/-! ## Strings in a vector -/

/-- A string with the given characters and a buffer of that size. -/
def text (buffer : Nat) (characters : List UInt8) : KString Nat :=
  ⟨some buffer, characters, characters.length, Nat.le_refl _⟩

/-- Three strings are pushed, two of them are erased and their place is filled again. -/
def stringCalls : List (Call (KString Nat) Nat) :=
  [.pushBack (fun _ => some 10) (text 1 [97]), .pushBack (fun _ => some 11) (text 2 [98]),
    .pushBack (fun _ => some 12) (text 3 [99]), .eraseRange 0 2,
    .pushBack (fun _ => some 13) (text 4 [100]), .erase 0, .reserve (fun _ => some 14) 8]

/-- The last string stays, and in the end each of the four buffers is released once. -/
theorem run_owns_strings : ∃ v heap gone,
    run (KString.element Nat) stringCalls empty ⟨[], []⟩ = .ok (v, heap) ∧
      v.places.take v.numItems = [some (text 4 [100])] ∧
      v.destroy (KString.element Nat) heap = .ok gone ∧
      gone.released.Perm ([1, 2, 3, 4] ++ gone.granted) := by
  have range : 2 ≤ 3 := by decide
  have valid : ValidRun stringCalls [] :=
    ⟨trivial, trivial, trivial, ⟨Nat.zero_le _, range⟩, trivial, Nat.zero_le _, trivial, trivial⟩
  have granted : ∀ call ∈ stringCalls, call.Granted 16 := by
    simp [stringCalls, Call.Granted, uintptrMax]
  rcases run_owns (KString.element Nat) stringCalls valid with
    ⟨-, refused⟩ | ⟨v, heap, gone, ran, elements, -, -, destroyed, released, -⟩
  · exact absurd ⟨granted, by decide⟩ refused
  · exact ⟨v, heap, gone, ran, elements, destroyed, released⟩

end FelineOS.Storage
