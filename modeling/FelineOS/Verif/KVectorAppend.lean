import FelineOS.Kernel.KVectorAppend
import FelineOS.Verif.KVectorStorage
import Mathlib.Data.List.Iterate

/-!
# When appending is appending to a list

The elements stand in the first places of the block, and a call that finds its memory writes the
places behind them. Copied elements are what a list gets as well. An item that is appended several
times is moved from again and again, and all but its first copy are what a move leaves in it; and a
count that overflows `size_t` makes no room at all for the items.
-/

namespace FelineOS.KVector.Block

open Storage (object construct object_append set_append)

variable {α : Type}

/-! ## What calls should do -/

section Purpose

variable {elem : Elements α}

/-- The contents of the vector are those of a list. -/
structure Contents (v : Block α) (items : List α) : Prop where
  /-- `size()`. -/
  number : v.numItems = items.length
  /-- The elements are alive in the first places. -/
  first : v.places.take v.numItems = items.map some

/-- What a call does to a list. -/
def Call.onList : Call elem → List α → List α
  | .pushBack item, items => items ++ [item]
  | .appendItem item count, items => items ++ List.replicate count.toNat item
  | .appendVector other, items => items ++ other.elements
  | .appendConst other, items => items ++ other.elements
  | .appendPointer other, items => items ++ other.elements
  | .appendRange range, items => items ++ range.elements
  | .reserve _, items => items
  | .clear, _ => []

/-- Whatever memory the calls find, each one of them either aborts for want of it or leaves the
contents of the list, with the capacity it found or a larger one. -/
def Follows : List (Call elem) → List α → Block α → Prop
  | [], _, _ => True
  | call :: calls, items, v => ∀ memory, exec memory call v = .error .abort ∨
    ∃ w, exec memory call v = .ok w ∧ w.Contents (call.onList items) ∧
      v.capacity ≤ w.capacity ∧ Follows calls (call.onList items) w

/-- The number of places that a call needs. -/
def Call.needs : Call elem → Nat → Nat
  | .pushBack _, n => n + 1
  | .appendItem _ count, n => n + count.toNat
  | .appendVector other, n => n + other.elements.length
  | .appendConst other, n => n + other.elements.length
  | .appendPointer other, n => n + other.elements.length
  | .appendRange range, n => n + range.elements.length
  | .reserve num, _ => num.toNat
  | .clear, _ => 0

/-- An object has as many places. -/
def Call.Fits (call : Call elem) (n : Nat) : Prop :=
  call.needs n * elem.sizeof ≤ Logger.ptrdiffMax

/-- An item that is appended several times has a number of places that is a `size_t`, and is one
that a move leaves as it was unless there are too many places for an object. -/
def Call.Keeps : Call elem → Nat → Prop
  | .appendItem item count, n => n + count.toNat < wordLimit ∧
    ((n + count.toNat) * elem.sizeof ≤ Logger.ptrdiffMax →
      count.toNat ≤ 1 ∨ elem.left item = item)
  | _, _ => True

/-- The calls do so, as far as what is asked for fits in memory. -/
def Meets : List (Call elem) → List α → Prop
  | [], _ => True
  | call :: calls, items => call.Keeps items.length ∧
    (call.Fits items.length → Meets calls (call.onList items))

end Purpose

/-! ## The loops -/

/-- A place behind others is written. -/
theorem construct_append (front : List (Option α)) (old : Option α) (rest : List (Option α))
    (element : α) :
    construct (front ++ old :: rest) front.length element = .ok (front ++ some element :: rest) := by
  have inside : front.length < (front ++ old :: rest).length := by simp
  unfold construct
  rw [if_pos inside, set_append]

/-- There is no place behind the last one. -/
theorem construct_behind (places : List (Option α)) (element : α) :
    construct places places.length element = .error .undefined := by
  unfold construct
  rw [if_neg (Nat.lt_irrefl _)]

/-- Elements move to a new block. -/
theorem uninitializedMove_spec (moving : List α) (front rest done : List (Option α)) (room : Nat)
    (even : front.length = done.length) (enough : moving.length ≤ room) :
    uninitializedMove (front ++ (moving.map some ++ rest)) moving.length front.length
        (done ++ List.replicate room none) =
      .ok (done ++ (moving.map some ++ List.replicate (room - moving.length) none)) := by
  induction moving generalizing front done room with
  | nil => rfl
  | cons element moving ih =>
    rw [List.length_cons] at enough
    obtain ⟨room, rfl⟩ : ∃ more, room = more + 1 := ⟨room - 1, by omega⟩
    have next := ih (front ++ [some element]) (done ++ [some element]) room
      (by rw [List.length_append, List.length_append, even]) (by omega)
    rw [List.append_assoc, List.append_assoc, List.append_assoc, List.length_append] at next
    rw [List.map_cons, List.cons_append, List.length_cons, uninitializedMove, object_append, ok_bind,
      List.replicate_succ, even, construct_append, ok_bind, ← even, Nat.add_sub_add_right]
    exact next

/-- Elements are copied behind others, unless a copy finds no memory. -/
theorem uninitializedCopy_spec (copies : Nat → Bool) (source : List α)
    (front rest : List (Option α)) (enough : source.length ≤ rest.length) :
    (uninitializedCopy copies source front.length (front ++ rest) = .error .abort ∧
        ¬∀ pos, copies pos) ∨
      uninitializedCopy copies source front.length (front ++ rest) =
        .ok (front ++ (source.map some ++ rest.drop source.length)) := by
  induction source generalizing front rest with
  | nil => exact .inr rfl
  | cons element source ih =>
    obtain ⟨old, rest, rfl⟩ := List.exists_cons_of_length_pos (Nat.lt_of_lt_of_le (by simp) enough)
    have next := ih (front ++ [some element]) rest (Nat.le_of_succ_le_succ enough)
    rw [List.append_assoc, List.append_assoc, List.length_append] at next
    rw [uninitializedCopy]
    by_cases found : copies front.length
    · rw [if_pos found, construct_append, ok_bind]
      exact next
    · rw [if_neg found]
      exact .inl ⟨rfl, fun all => found (all front.length)⟩

/-- An item is appended once, and then what each move left of it. -/
theorem constructMoved_spec (left : α → α) (count : Nat) (item : α) (front rest : List (Option α))
    (enough : count ≤ rest.length) :
    constructMoved left count front.length item (front ++ rest) =
      .ok (front ++ ((List.iterate left item count).map some ++ rest.drop count)) := by
  induction count generalizing item front rest with
  | zero => rfl
  | succ count ih =>
    obtain ⟨old, rest, rfl⟩ := List.exists_cons_of_length_pos (Nat.lt_of_lt_of_le (by simp) enough)
    have next := ih (left item) (front ++ [some item]) rest (Nat.le_of_succ_le_succ enough)
    rw [List.append_assoc, List.append_assoc, List.length_append] at next
    rw [constructMoved, construct_append, ok_bind]
    exact next

/-- Without a place for each of them the loop leaves the block. -/
theorem constructMoved_short (left : α → α) (count : Nat) (item : α) (front rest : List (Option α))
    (short : rest.length < count) :
    constructMoved left count front.length item (front ++ rest) = .error .undefined := by
  induction rest generalizing count item front with
  | nil =>
    obtain ⟨count, rfl⟩ := Nat.exists_eq_add_one_of_ne_zero (Nat.ne_of_gt short)
    rw [List.append_nil, constructMoved, construct_behind]
    rfl
  | cons old rest ih =>
    obtain ⟨count, rfl⟩ := Nat.exists_eq_add_one_of_ne_zero (Nat.ne_of_gt (Nat.zero_lt_of_lt short))
    have next := ih count (left item) (front ++ [some item]) (Nat.lt_of_succ_lt_succ short)
    rw [List.append_assoc, List.length_append] at next
    rw [constructMoved, construct_append, ok_bind]
    exact next

/-- Elements that are destroyed are no longer in their places. -/
theorem destroyN_spec (dying : List α) (front rest : List (Option α)) :
    destroyN dying.length front.length (front ++ (dying.map some ++ rest)) =
      .ok (front ++ (List.replicate dying.length none ++ rest)) := by
  induction dying generalizing front with
  | nil => rfl
  | cons element dying ih =>
    have next := ih (front ++ [none])
    rw [List.append_assoc, List.append_assoc, List.length_append] at next
    rw [List.map_cons, List.cons_append, List.length_cons, destroyN, object_append, ok_bind,
      set_append]
    exact next

/-- What is appended is the item each time exactly if a second move takes what the first one took. -/
theorem iterate_eq_replicate (left : α → α) (item : α) (count : Nat) :
    List.iterate left item count = List.replicate count item ↔ count ≤ 1 ∨ left item = item := by
  constructor
  · intro same
    match count with
    | 0 => exact .inl (Nat.zero_le 1)
    | 1 => exact .inl (Nat.le_refl 1)
    | count + 2 =>
      rw [List.iterate, List.iterate, List.replicate_succ, List.replicate_succ] at same
      exact .inr (List.cons.inj (List.cons.inj same).2).1
  · rintro (few | fixed)
    · match count with
      | 0 => rfl
      | 1 => rfl
    · induction count with
      | zero => rfl
      | succ count ih => rw [List.iterate, fixed, ih, List.replicate_succ]

/-! ## One call -/

/-- Memory that has everything that is not larger than an object. -/
def ample : Memory := ⟨fun bytes => bytes ≤ Logger.ptrdiffMax, fun _ => true, fun _ => of_decide_eq_true⟩

section Step

variable {elem : Elements α} {items : List α} {v : Block α}

/-- The vector has the elements in the first places of an object. -/
structure Stores (elem : Elements α) (items : List α) (v : Block α) : Prop where
  /-- The elements are in the first places. -/
  first : ∃ rest, v.places = items.map some ++ rest
  /-- `num_items` is their number. -/
  number : v.numItems = items.length
  /-- `m_capacity` is the number of places. -/
  block : v.places.length = v.capacity
  /-- The block is an object. -/
  object : v.capacity * elem.sizeof ≤ Logger.ptrdiffMax

/-- A vector that was just constructed has none. -/
theorem stores_empty (elem : Elements α) : Stores elem [] (empty : Block α) where
  first := ⟨[], rfl⟩
  number := rfl
  block := rfl
  object := by rw [empty, Nat.zero_mul]; exact Nat.zero_le _

/-- The elements fit in the block. -/
theorem Stores.fits (stores : Stores elem items v) : items.length ≤ v.capacity := by
  obtain ⟨rest, places⟩ := stores.first
  rw [← stores.block, places, List.length_append, List.length_map]
  exact Nat.le_add_right _ _

/-- The places behind the elements. -/
theorem Stores.parts (stores : Stores elem items v) : ∃ rest,
    v.places = items.map some ++ rest ∧ items.length + rest.length = v.capacity ∧
      v.numItems = (items.map some).length := by
  obtain ⟨rest, places⟩ := stores.first
  refine ⟨rest, places, ?_, ?_⟩
  · rw [← stores.block, places, List.length_append, List.length_map]
  · rw [stores.number, List.length_map]

/-- The elements are what the vector has. -/
theorem Stores.contents (stores : Stores elem items v) : v.Contents items := by
  obtain ⟨rest, places⟩ := stores.first
  refine ⟨stores.number, ?_⟩
  rw [places, stores.number, ← List.length_map some, List.take_left]

/-- A vector has the contents of one list only. -/
theorem Contents.unique {one other : List α} (first : v.Contents one) (second : v.Contents other) :
    one = other := by
  have same : one.map some = other.map some := first.first.symm.trans second.first
  exact List.map_injective_iff.mpr (fun _ _ => Option.some.inj) same

/-- Places that are an object are no more than its bytes. -/
theorem places_le (elem : Elements α) {places : Nat}
    (object : places * elem.sizeof ≤ Logger.ptrdiffMax) : places ≤ Logger.ptrdiffMax :=
  Nat.le_trans (Nat.le_mul_of_pos_right places elem.sized) object

/-- The places of two objects have a number that is a `size_t`. -/
theorem wrap_add (elem : Elements α) {one other : Nat}
    (first : one * elem.sizeof ≤ Logger.ptrdiffMax)
    (second : other * elem.sizeof ≤ Logger.ptrdiffMax) : wrap (one + other) = one + other := by
  have few := places_le elem first
  have more := places_le elem second
  unfold Logger.ptrdiffMax at few more
  apply wrap_of_lt
  unfold wordLimit
  omega

/-- The elements of a vector are an object. -/
theorem Stores.items_object (stores : Stores elem items v) :
    items.length * elem.sizeof ≤ Logger.ptrdiffMax :=
  Nat.le_trans (Nat.mul_le_mul_right _ stores.fits) stores.object

/-- An allocation is granted for an object only, and ample memory grants it. -/
theorem allocate_object (memory : Memory) (elem : Elements α) (num : Nat) :
    (allocate memory.malloc elem.sizeof num = .error .abort ∧
        (memory = ample → Logger.ptrdiffMax < num * elem.sizeof)) ∨
      (allocate memory.malloc elem.sizeof num = .ok () ∧
        num * elem.sizeof ≤ Logger.ptrdiffMax) := by
  unfold allocate
  by_cases large : uintptrMax / elem.sizeof < num
  · rw [if_pos large]
    have overflows := (Nat.div_lt_iff_lt_mul elem.sized).mp large
    refine .inl ⟨rfl, fun _ => Nat.lt_trans ?_ overflows⟩
    decide
  · rw [if_neg large]
    cases answer : memory.malloc (num * elem.sizeof) with
    | true => exact .inr ⟨rfl, memory.bounded _ answer⟩
    | false =>
      refine .inl ⟨rfl, ?_⟩
      rintro rfl
      exact Nat.lt_of_not_le (of_decide_eq_false answer)

/-- The elements move to the first places of a larger block. -/
theorem Stores.moved (stores : Stores elem items v) {num : Nat} (room : items.length ≤ num) :
    uninitializedMove v.places v.numItems 0 (List.replicate num none) =
      .ok (items.map some ++ List.replicate (num - items.length) none) := by
  obtain ⟨rest, places⟩ := stores.first
  have moved := uninitializedMove_spec items [] rest [] num rfl room
  rw [List.nil_append, List.nil_append, List.nil_append, List.length_nil, ← places] at moved
  rw [stores.number]
  exact moved

/-- The larger block has them. -/
theorem Stores.grown (stores : Stores elem items v) {num : Nat} (room : items.length ≤ num)
    (object : num * elem.sizeof ≤ Logger.ptrdiffMax) : Stores elem items
      ⟨true, items.map some ++ List.replicate (num - items.length) none, v.numItems, num⟩ := by
  refine ⟨⟨_, rfl⟩, stores.number, ?_, object⟩
  rw [List.length_append, List.length_map, List.length_replicate]
  exact Nat.add_sub_cancel' room

/-- Making room keeps the elements, and ample memory has it for an object. -/
theorem Stores.reserve (stores : Stores elem items v) (memory : Memory) (num : Nat) :
    (v.reserve elem memory num = .error .abort ∧
        (memory = ample → Logger.ptrdiffMax < num * elem.sizeof)) ∨
      ∃ w, v.reserve elem memory num = .ok w ∧ Stores elem items w ∧ num ≤ w.capacity ∧
        v.capacity ≤ w.capacity := by
  unfold Block.reserve
  by_cases enough : num ≤ v.capacity
  · rw [if_pos enough]
    exact .inr ⟨v, rfl, stores, enough, Nat.le_refl _⟩
  · rw [if_neg enough]
    have short : v.capacity ≤ num := Nat.le_of_not_le enough
    have room : items.length ≤ num := Nat.le_trans stores.fits short
    rcases allocate_object memory elem num with ⟨refused, large⟩ | ⟨granted, object⟩
    · rw [refused]
      exact .inl ⟨rfl, large⟩
    · rw [granted, ok_bind, stores.moved room, ok_bind]
      exact .inr ⟨_, rfl, stores.grown room object, Nat.le_refl _, short⟩

/-- With room for them, elements that are written behind the others are appended. -/
theorem Stores.written (stores : Stores elem items v) (added : List α) (places : List (Option α))
    (room : items.length + added.length ≤ v.capacity)
    (behind : ∀ rest, v.places = items.map some ++ rest →
      places = items.map some ++ (added.map some ++ rest.drop added.length)) :
    Stores elem (items ++ added)
      { v with places, numItems := wrap (v.numItems + added.length) } := by
  obtain ⟨rest, before, long, -⟩ := stores.parts
  have after := behind rest before
  have word : items.length + added.length < wordLimit := by
    have few := places_le elem stores.object
    unfold Logger.ptrdiffMax at few
    unfold wordLimit
    omega
  refine ⟨⟨rest.drop added.length, ?_⟩, ?_, ?_, stores.object⟩
  · rw [after, List.map_append, List.append_assoc]
  · rw [stores.number, List.length_append]
    exact wrap_of_lt word
  · rw [after, List.length_append, List.length_append, List.length_map, List.length_map,
      List.length_drop]
    show _ = v.capacity
    omega

/-- With room for them, an item and what each move leaves of it are appended. -/
theorem Stores.construct_moved (stores : Stores elem items v) (item : α) {count : Nat}
    (room : items.length + count ≤ v.capacity) : ∃ places,
      constructMoved elem.left count v.numItems item v.places = .ok places ∧
        Stores elem (items ++ List.iterate elem.left item count)
          { v with places, numItems := wrap (v.numItems + count) } := by
  obtain ⟨rest, places, long, place⟩ := stores.parts
  have written := constructMoved_spec elem.left count item (items.map some) rest (by omega)
  have added : (List.iterate elem.left item count).length = count :=
    List.length_iterate elem.left item count
  have stored := stores.written (List.iterate elem.left item count)
    (items.map some ++ ((List.iterate elem.left item count).map some ++ rest.drop count))
    (by rw [added]; exact room) (by
      intro other before
      rw [places, List.append_cancel_left_eq] at before
      rw [before, added])
  rw [added] at stored
  rw [← places, ← place] at written
  exact ⟨_, written, stored⟩

/-- With room for them, elements that are copied are appended, unless a copy finds no memory. -/
theorem Stores.copied (stores : Stores elem items v) (copies : Nat → Bool) {source : List α}
    (room : items.length + source.length ≤ v.capacity) :
    (uninitializedCopy copies source v.numItems v.places = .error .abort ∧ ¬∀ pos, copies pos) ∨
      ∃ places, uninitializedCopy copies source v.numItems v.places = .ok places ∧
        Stores elem (items ++ source)
          { v with places, numItems := wrap (v.numItems + source.length) } := by
  obtain ⟨rest, places, long, place⟩ := stores.parts
  have written := uninitializedCopy_spec copies source (items.map some) rest (by omega)
  rw [← places, ← place] at written
  rcases written with refused | written
  · exact .inl refused
  · refine .inr ⟨_, written, stores.written source _ room ?_⟩
    intro other before
    rw [places, List.append_cancel_left_eq] at before
    rw [before]

/-- Without room for them the items are written behind the block. -/
theorem Stores.construct_short (stores : Stores elem items v) (item : α) {count : Nat}
    (short : v.capacity < items.length + count) :
    constructMoved elem.left count v.numItems item v.places = .error .undefined := by
  obtain ⟨rest, places, long, place⟩ := stores.parts
  have behind := constructMoved_short elem.left count item (items.map some) rest (by omega)
  rw [← places, ← place] at behind
  exact behind

/-- A call that needs a number of places leaves a list, or aborts for want of memory, which ample
memory is never in for the places of an object. -/
def Leaves (elem : Elements α) (memory : Memory) (v : Block α) (needs : Nat) (items : List α)
    (outcome : Except Fault (Block α)) : Prop :=
  (outcome = .error .abort ∧ (memory = ample → Logger.ptrdiffMax < needs * elem.sizeof)) ∨
    ∃ w, outcome = .ok w ∧ Stores elem items w ∧ v.capacity ≤ w.capacity ∧
      needs * elem.sizeof ≤ Logger.ptrdiffMax

/-- An element that is pushed stands at the end. -/
theorem Stores.pushBack (stores : Stores elem items v) (memory : Memory) (item : α) :
    Leaves elem memory v (items.length + 1) (items ++ [item])
      (v.pushBack elem memory item) := by
  have small := places_le elem stores.object
  have fits := stores.fits
  have word : v.numItems + 1 < wordLimit := by
    rw [stores.number]
    unfold Logger.ptrdiffMax at small
    unfold wordLimit
    omega
  unfold Block.pushBack
  rw [wrap_of_lt word]
  rcases stores.reserve memory (v.numItems + 1) with ⟨refused, large⟩ | ⟨w, made, kept, room, grown⟩
  · rw [refused, ← stores.number]
    exact .inl ⟨rfl, large⟩
  · rw [stores.number] at room
    obtain ⟨rest, places, long, place⟩ := kept.parts
    have positive : 0 < rest.length := by omega
    obtain ⟨old, rest, rfl⟩ := List.exists_cons_of_length_pos positive
    have written := construct_append (items.map some) old rest item
    rw [← places, ← place] at written
    rw [made, ok_bind, written, ok_bind]
    refine .inr ⟨_, rfl, kept.written [item] _ room ?_, grown,
      Nat.le_trans (Nat.mul_le_mul_right _ room) kept.object⟩
    intro other before
    rw [places, List.append_cancel_left_eq] at before
    rw [← before]
    rfl

/-- Elements that are copied stand at the end. -/
theorem Stores.appendCopied (stores : Stores elem items v) (memory : Memory)
    (source : Source elem) : Leaves elem memory v (items.length + source.elements.length)
      (items ++ source.elements) (v.appendCopied elem memory source.elements) := by
  have word := wrap_add elem stores.items_object source.object
  unfold Block.appendCopied
  rw [stores.number, word]
  rcases stores.reserve memory (items.length + source.elements.length) with
    ⟨refused, large⟩ | ⟨w, made, kept, room, grown⟩
  · rw [refused]
    exact .inl ⟨rfl, large⟩
  · rw [made, ok_bind]
    rcases kept.copied memory.copies room with ⟨refused, missing⟩ | ⟨places, written, stored⟩
    · rw [refused]
      refine .inl ⟨rfl, ?_⟩
      rintro rfl
      exact absurd (fun _ => rfl) missing
    · rw [written, ok_bind]
      exact .inr ⟨_, rfl, stored, grown, Nat.le_trans (Nat.mul_le_mul_right _ room) kept.object⟩

/-- The null pointer has no places, so that asking for room again does nothing. -/
theorem appendVector_eq (elem : Elements α) (memory : Memory) (other : List α) (v : Block α) :
    v.appendVector elem memory other = v.appendCopied elem memory other := by
  unfold appendVector Block.appendCopied
  by_cases short : v.capacity < wrap (v.numItems + other.length) ∨ v.items = false
  · rw [if_pos short]
  · rw [if_neg short]
    have enough : wrap (v.numItems + other.length) ≤ v.capacity := by
      rw [not_or] at short
      exact Nat.le_of_not_lt short.1
    unfold Block.reserve
    rw [if_pos enough]

/-- An item that is appended several times stands at the end once, with what each move leaves of it
behind it. -/
theorem Stores.appendItem (stores : Stores elem items v) (memory : Memory) (item : α) (count : Nat)
    (word : items.length + count < wordLimit) :
    Leaves elem memory v (items.length + count) (items ++ List.iterate elem.left item count)
      (v.appendItem elem memory item count) := by
  unfold Block.appendItem
  rw [stores.number, wrap_of_lt word]
  rcases stores.reserve memory (items.length + count) with
    ⟨refused, large⟩ | ⟨w, made, kept, room, grown⟩
  · rw [refused]
    exact .inl ⟨rfl, large⟩
  · obtain ⟨places, written, stored⟩ := kept.construct_moved item room
    rw [made, ok_bind, written, ok_bind]
    exact .inr ⟨_, rfl, stored, grown, Nat.le_trans (Nat.mul_le_mul_right _ room) kept.object⟩

/-- A count that overflows makes no room, and the items are written behind the block. -/
theorem Stores.appendItem_overflow (stores : Stores elem items v) (memory : Memory) (item : α)
    {count : Nat} (word : count < wordLimit) (overflow : wordLimit ≤ items.length + count) :
    v.appendItem elem memory item count = .error .undefined := by
  have fits := stores.fits
  have few := places_le elem stores.object
  unfold Logger.ptrdiffMax at few
  have cut : wrap (items.length + count) ≤ v.capacity := by
    unfold wrap
    unfold wordLimit at *
    omega
  have short : v.capacity < items.length + count := by
    unfold wordLimit at *
    omega
  unfold Block.appendItem Block.reserve
  rw [stores.number, if_pos cut, ok_bind, stores.construct_short item short]
  rfl

/-- A vector that is cleared has no elements, and its block stays. -/
theorem Stores.clear (stores : Stores elem items v) (memory : Memory) :
    Leaves elem memory v 0 [] v.clear := by
  obtain ⟨rest, places, long, -⟩ := stores.parts
  have destroyed := destroyN_spec items [] rest
  rw [List.nil_append, List.nil_append, List.length_nil, ← places, ← stores.number] at destroyed
  unfold Block.clear
  rw [destroyed, ok_bind]
  refine .inr ⟨_, rfl, ⟨⟨_, rfl⟩, rfl, ?_, stores.object⟩, Nat.le_refl _, ?_⟩
  · rw [List.length_append, List.length_replicate, stores.number]
    exact long
  · rw [Nat.zero_mul]
    exact Nat.zero_le _

/-- A call that keeps to the condition leaves what it leaves of a list. -/
theorem Stores.exec (stores : Stores elem items v) (memory : Memory) {call : Call elem}
    (keeps : call.Keeps items.length) :
    Leaves elem memory v (call.needs items.length) (call.onList items) (exec memory call v) := by
  cases call with
  | pushBack item => exact stores.pushBack memory item
  | appendItem item count =>
    have left := stores.appendItem memory item count.toNat keeps.1
    by_cases fits : (items.length + count.toNat) * elem.sizeof ≤ Logger.ptrdiffMax
    · rw [(iterate_eq_replicate elem.left item count.toNat).mpr (keeps.2 fits)] at left
      exact left
    · rcases left with refused | ⟨-, -, -, -, fitting⟩
      · exact .inl refused
      · exact absurd fitting fits
  | appendVector other =>
    have left := stores.appendCopied memory other
    rw [← appendVector_eq] at left
    exact left
  | appendConst other => exact stores.appendCopied memory other
  | appendPointer other => exact stores.appendCopied memory other
  | appendRange range => exact stores.appendCopied memory range
  | reserve num =>
    rcases stores.reserve memory num.toNat with refused | ⟨w, made, kept, room, grown⟩
    · exact .inl refused
    · exact .inr ⟨w, made, kept, grown, Nat.le_trans (Nat.mul_le_mul_right _ room) kept.object⟩
  | clear => exact stores.clear memory

/-- A call that does not keep to it leaves something else when memory is ample. -/
theorem Stores.exec_other (stores : Stores elem items v) {call : Call elem}
    (breaks : ¬call.Keeps items.length) : Block.exec ample call v ≠ .error .abort ∧
      ∀ w, Block.exec ample call v = .ok w → ¬w.Contents (call.onList items) := by
  cases call with
  | appendItem item count =>
    show v.appendItem elem ample item count.toNat ≠ .error .abort ∧
      ∀ w, v.appendItem elem ample item count.toNat = .ok w →
        ¬w.Contents (items ++ List.replicate count.toNat item)
    by_cases word : items.length + count.toNat < wordLimit
    · have broken : (items.length + count.toNat) * elem.sizeof ≤ Logger.ptrdiffMax ∧
          ¬(count.toNat ≤ 1 ∨ elem.left item = item) := by
        by_contra other
        exact breaks ⟨word, fun fits => by_contra fun moved => other ⟨fits, moved⟩⟩
      rcases stores.appendItem ample item count.toNat word with
        ⟨-, large⟩ | ⟨w, made, kept, -, -⟩
      · exact absurd broken.1 (Nat.not_le_of_lt (large rfl))
      · rw [made]
        refine ⟨nofun, ?_⟩
        intro other same contents
        cases same
        have equal := List.append_cancel_left (kept.contents.unique contents)
        exact broken.2 ((iterate_eq_replicate elem.left item count.toNat).mp equal)
    · rw [stores.appendItem_overflow ample item count.toNat_lt (Nat.le_of_not_lt word)]
      exact ⟨nofun, nofun⟩
  | pushBack item => exact absurd trivial breaks
  | appendVector other => exact absurd trivial breaks
  | appendConst other => exact absurd trivial breaks
  | appendPointer other => exact absurd trivial breaks
  | appendRange range => exact absurd trivial breaks
  | reserve num => exact absurd trivial breaks
  | clear => exact absurd trivial breaks

end Step

/-! ## Sequences of calls -/

section Runs

variable {elem : Elements α}

/-- Whatever memory they find, the calls do what they do to a list exactly if every item that is
appended several times, as far as what is asked for fits in memory, is one that a move leaves as it
was, and the number of places for it is a `size_t`. -/
theorem follows_iff (calls : List (Call elem)) {items : List α} {v : Block α}
    (stores : Stores elem items v) : Follows calls items v ↔ Meets calls items := by
  induction calls generalizing items v with
  | nil => exact Iff.rfl
  | cons call calls ih =>
    constructor
    · intro follows
      have keeps : call.Keeps items.length := by
        by_contra breaks
        have other := stores.exec_other breaks
        rcases follows ample with aborts | ⟨w, made, contents, -, -⟩
        · exact other.1 aborts
        · exact other.2 w made contents
      refine ⟨keeps, fun fits => ?_⟩
      rcases stores.exec ample keeps with ⟨-, large⟩ | ⟨w, made, kept, -, -⟩
      · exact absurd fits (Nat.not_le_of_lt (large rfl))
      · rcases follows ample with aborts | ⟨other, same, -, -, following⟩
        · rw [made] at aborts
          cases aborts
        · rw [made] at same
          cases same
          exact (ih kept).mp following
    · rintro ⟨keeps, meets⟩ memory
      rcases stores.exec memory keeps with ⟨aborts, -⟩ | ⟨w, made, kept, grown, fits⟩
      · exact .inl aborts
      · exact .inr ⟨w, made, kept.contents, grown, (ih kept).mpr (meets fits)⟩

end Runs

/-! ## The vector without its storage -/

section Storage

variable {elem : Elements α} {items : List α} {v : Block α}

/-- The elements and the capacity. -/
def Stores.vector (stores : Stores elem items v) : KVector α := ⟨items, v.capacity, stores.fits⟩

/-- What a block comes to, as elements and capacity. -/
def outline (v : Block α) : List (Option α) × Nat := (v.places.take v.numItems, v.capacity)

/-- The same of the vector without storage. -/
def outlineOf (v : KVector α) : List (Option α) × Nat := (v.items.map some, v.capacity)

/-- A block with elements has the outline of its vector. -/
theorem Stores.outline (stores : Stores elem items v) :
    v.outline = outlineOf stores.vector :=
  Prod.ext stores.contents.first rfl

/-- Making room in the block is making room in `KVector.reserve`. -/
theorem Stores.reserve_vector (stores : Stores elem items v) (memory : Memory) (num : Nat) :
    (v.reserve elem memory num = .error .abort ∧
        stores.vector.reserve memory.malloc elem.sizeof num = .error .abort) ∨
      ∃ w, ∃ kept : Stores elem items w, ∃ k, v.reserve elem memory num = .ok w ∧
        stores.vector.reserve memory.malloc elem.sizeof num = .ok k ∧ k.1 = kept.vector := by
  unfold Block.reserve KVector.reserve
  by_cases enough : num ≤ v.capacity
  · have same : num ≤ stores.vector.capacity := enough
    rw [if_pos enough, dif_pos same]
    exact .inr ⟨v, stores, _, rfl, rfl, rfl⟩
  · have same : ¬num ≤ stores.vector.capacity := enough
    have room : items.length ≤ num := Nat.le_trans stores.fits (Nat.le_of_not_le enough)
    rw [if_neg enough, dif_neg same]
    rcases allocate_object memory elem num with ⟨refused, -⟩ | ⟨granted, object⟩
    · rw [refused]
      exact .inl ⟨rfl, rfl⟩
    · rw [granted, ok_bind, ok_bind, stores.moved room, ok_bind]
      exact .inr ⟨_, stores.grown room object, _, rfl, rfl, rfl⟩

/-- For an item that a move leaves as it is, appending it to the block is what
`KVector.appendCopies` does, with its faults. -/
theorem Stores.appendItem_vector (stores : Stores elem items v) (memory : Memory) {item : α}
    (count : Nat) (fixed : elem.left item = item) :
    (v.appendItem elem memory item count).map Block.outline =
      (stores.vector.appendCopies memory.malloc elem.sizeof item count).map outlineOf := by
  have copies := (iterate_eq_replicate elem.left item count).mpr (.inr fixed)
  have number : v.numItems = stores.vector.items.length := stores.number
  unfold Block.appendItem KVector.appendCopies
  rw [number]
  rcases stores.reserve_vector memory (wrap (stores.vector.items.length + count)) with
    ⟨refused, aborts⟩ | ⟨w, kept, ⟨k, same, enough⟩, made, reserved, rfl⟩
  · rw [refused, aborts]
    rfl
  · have total : (kept.vector.items ++ List.replicate count item).length = items.length + count := by
      rw [List.length_append, List.length_replicate]
      rfl
    rw [made, reserved, ok_bind, ok_bind]
    dsimp only
    by_cases room : items.length + count ≤ w.capacity
    · have fits : (kept.vector.items ++ List.replicate count item).length ≤
          kept.vector.capacity := by
        rw [total]
        exact room
      obtain ⟨places, written, stored⟩ := kept.construct_moved item room
      rw [copies] at stored
      rw [written, ok_bind, dif_pos fits]
      exact congrArg Except.ok stored.outline
    · have full : ¬(kept.vector.items ++ List.replicate count item).length ≤
          kept.vector.capacity := by
        rw [total]
        exact room
      rw [kept.construct_short item (Nat.lt_of_not_le room), dif_neg full]
      rfl

/-- For elements that are copied without memory of their own, appending them to the block is what
`KVector.append` does. -/
theorem Stores.appendCopied_vector (stores : Stores elem items v) (memory : Memory)
    (source : Source elem) (owned : ∀ pos, memory.copies pos) :
    (v.appendCopied elem memory source.elements).map Block.outline =
      (stores.vector.append memory.malloc elem.sizeof source.elements).map outlineOf := by
  have word := wrap_add elem stores.items_object source.object
  have number : items.length + source.elements.length =
      stores.vector.items.length + source.elements.length := rfl
  unfold Block.appendCopied KVector.append
  rw [stores.number, word, number]
  rcases stores.reserve_vector memory (stores.vector.items.length + source.elements.length) with
    ⟨refused, aborts⟩ | ⟨w, kept, ⟨k, same, enough⟩, made, reserved, rfl⟩
  · rw [refused, aborts]
    rfl
  · rw [made, reserved, ok_bind, ok_bind]
    rcases kept.copied memory.copies enough with ⟨-, missing⟩ | ⟨places, written, stored⟩
    · exact absurd owned missing
    · rw [written, ok_bind]
      exact congrArg Except.ok stored.outline

end Storage

/-! ## Bytes and strings -/

/-- Bytes are pushed, appended one by one and several times, and cleared. -/
def byteCalls : List (Call Elements.bytes) :=
  [.reserve 8, .pushBack 1, .appendItem 2 3, .appendPointer ⟨[3, 4], by decide⟩, .reserve 4,
    .appendRange ⟨[5], by decide⟩, .appendVector ⟨[6, 7], by decide⟩, .clear, .pushBack 8]

/-- They are what a list has, whatever memory the calls find. -/
theorem follows_bytes : Follows byteCalls [] empty := by
  apply (follows_iff byteCalls (stores_empty Elements.bytes)).mpr
  have few : 1 + 3 < wordLimit := by decide
  exact ⟨trivial, fun _ => ⟨trivial, fun _ => ⟨⟨few, fun _ => .inr rfl⟩, fun _ => ⟨trivial,
    fun _ => ⟨trivial, fun _ => ⟨trivial, fun _ => ⟨trivial, fun _ => ⟨trivial, fun _ => ⟨trivial,
    fun _ => trivial⟩⟩⟩⟩⟩⟩⟩⟩⟩

/-- A string that is appended twice is there once, and then an empty one. -/
def stringTwice : Call (Elements.vectors UInt8) := .appendItem [0x61] 2

/-- The second string is not what was appended. -/
theorem appendItem_moved :
    exec ample stringTwice empty = .ok ⟨true, [some [0x61], some []], 2, 2⟩ ∧
      ¬Follows [stringTwice] [] empty := by
  have leaves : exec ample stringTwice empty = .ok ⟨true, [some [0x61], some []], 2, 2⟩ := by
    decide +kernel
  refine ⟨leaves, ?_⟩
  intro follows
  rcases follows ample with aborts | ⟨w, made, contents, -⟩
  · rw [leaves] at aborts
    cases aborts
  · rw [leaves] at made
    cases made
    exact absurd contents.first (by decide)

end FelineOS.KVector.Block
