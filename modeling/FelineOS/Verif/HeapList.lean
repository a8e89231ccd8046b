import FelineOS.Spec.Heap

/-!
# The headers of the heap

The edits of the header list, each with its effect on the blocks that the memory holds:
splitting a block, taking a flag back or handing it out, merging with a neighbour, linking a
new page in behind the last block and taking a page out.
-/

namespace FelineOS.Malloc

open Library

variable {h h' : Heap} {b c : Block} {bs xs ys : List Block}

namespace Heap

/-! ## Reading and writing -/

theorem modify_mem (addr a : Nat) (change : Header → Header) :
    (h.modify addr change).mem a = if a = addr then change (h.mem addr) else h.mem a := by
  simp [modify, Function.update_apply]

@[simp] theorem modify_firstHeader (addr : Nat) (change : Header → Header) :
    (h.modify addr change).firstHeader = h.firstHeader := rfl

@[simp] theorem modify_obtained (addr : Nat) (change : Header → Header) :
    (h.modify addr change).obtained = h.obtained := rfl

@[simp] theorem modify_returned (addr : Nat) (change : Header → Header) :
    (h.modify addr change).returned = h.returned := rfl

theorem modifyAt_mem (pointer : Option Nat) (a : Nat) (change : Header → Header) :
    (h.modifyAt pointer change).mem a =
      if pointer = some a then change (h.mem a) else h.mem a := by
  cases pointer with
  | none => simp [modifyAt]
  | some addr =>
    simp only [modifyAt, modify_mem, Option.some.injEq]
    by_cases same : a = addr
    · simp [same]
    · simp [same, Ne.symm same]

/-- A write to headers keeps everything but the memory. -/
structure SameBooks (h h' : Heap) : Prop where
  /-- The head of the list. -/
  firstHeader : h'.firstHeader = h.firstHeader
  /-- What was handed out. -/
  obtained : h'.obtained = h.obtained
  /-- What was taken back. -/
  returned : h'.returned = h.returned

theorem SameBooks.refl (h : Heap) : SameBooks h h := ⟨rfl, rfl, rfl⟩

theorem SameBooks.trans {h'' : Heap} (first : SameBooks h h') (second : SameBooks h' h'') :
    SameBooks h h'' :=
  ⟨second.firstHeader.trans first.firstHeader, second.obtained.trans first.obtained,
    second.returned.trans first.returned⟩

theorem sameBooks_modify (addr : Nat) (change : Header → Header) :
    SameBooks h (h.modify addr change) := ⟨rfl, rfl, rfl⟩

theorem sameBooks_modifyAt (pointer : Option Nat) (change : Header → Header) :
    SameBooks h (h.modifyAt pointer change) := by
  cases pointer with
  | none => exact SameBooks.refl h
  | some addr => exact sameBooks_modify addr change

/-! ## Listed blocks -/

/-- A description reads one header only. -/
theorem Describes.congr (describes : h.Describes b) (same : h'.mem b.start = h.mem b.start) :
    h'.Describes b := by
  refine ⟨?_, ?_, ?_⟩
  · rw [same]
    exact describes.len
  · rw [same]
    exact describes.inUse
  · rw [same]
    exact describes.startOfAllocation

/-- A listing reads the headers of its blocks only. -/
theorem Listed.congr (listed : h.Listed bs) (same : ∀ b ∈ bs, h'.mem b.start = h.mem b.start) :
    h'.Listed bs := by
  constructor
  · apply listed.links.congr
    intro addr member
    obtain ⟨b, inside, rfl⟩ := List.mem_map.mp member
    unfold next prev
    rw [same b inside]
    exact ⟨rfl, rfl⟩
  · intro b member
    exact (listed.describes b member).congr (same b member)

/-- The forward link of a block. -/
theorem Listed.next_eq (listed : h.Listed (xs ++ b :: ys)) :
    (h.mem b.start).next = ys.head?.map Block.start := by
  have links := listed.links
  rw [List.map_append, List.map_cons] at links
  have forward := links.next_eq
  rw [Option.or_none, List.head?_map] at forward
  exact forward

/-- The back link of a block. -/
theorem Listed.prev_eq (listed : h.Listed (xs ++ b :: ys)) :
    (h.mem b.start).prev = xs.getLast?.map Block.start := by
  have links := listed.links
  rw [List.map_append, List.map_cons] at links
  have back := links.prev_eq
  rw [Option.or_none, List.getLast?_map] at back
  exact back

/-- A write that leaves a header's length and flags alone. -/
structure SameFields (h h' : Heap) (addr : Nat) : Prop where
  /-- The length. -/
  len : (h'.mem addr).len = (h.mem addr).len
  /-- The flag. -/
  inUse : (h'.mem addr).inUse = (h.mem addr).inUse
  /-- The mark. -/
  startOfAllocation : (h'.mem addr).startOfAllocation = (h.mem addr).startOfAllocation

theorem SameFields.of_eq {addr : Nat} (same : h'.mem addr = h.mem addr) : SameFields h h' addr := by
  constructor <;> rw [same]

/-- A description is kept with the length and the flags. -/
theorem Describes.of_fields (describes : h.Describes b) (same : SameFields h h' b.start) :
    h'.Describes b :=
  ⟨same.len ▸ describes.len, same.inUse.trans describes.inUse,
    same.startOfAllocation.trans describes.startOfAllocation⟩

/-- Equal headers have equal links. -/
theorem links_of_eq {addr : Nat} (same : h'.mem addr = h.mem addr) :
    h'.next addr = h.next addr ∧ h'.prev addr = h.prev addr := by
  unfold next prev
  rw [same]
  exact ⟨rfl, rfl⟩

/-- The blocks behind an edit: the first of them points back elsewhere. -/
structure Rear (h h' : Heap) (ys : List Block) (pointer : Option Nat) : Prop where
  /-- The first block is linked back to the new neighbour. -/
  head : ∀ c ∈ ys.head?, h'.mem c.start = { h.mem c.start with prev := pointer }
  /-- The others are not touched. -/
  tail : ∀ c ∈ ys.tail, h'.mem c.start = h.mem c.start

/-- The links of the first block behind an edit. -/
theorem Rear.links_head {pointer : Option Nat} (rear : Rear h h' ys pointer) :
    ∀ addr ∈ (ys.map Block.start).head?, h'.prev addr = pointer ∧ h'.next addr = h.next addr := by
  intro addr member
  rw [List.head?_map] at member
  obtain ⟨c, inside, rfl⟩ := Option.map_eq_some_iff.mp member
  unfold next prev
  rw [rear.head c inside]
  exact ⟨rfl, rfl⟩

/-- The links of the other blocks behind an edit. -/
theorem Rear.links_tail {pointer : Option Nat} (rear : Rear h h' ys pointer) :
    ∀ addr ∈ (ys.map Block.start).tail, h'.next addr = h.next addr ∧ h'.prev addr = h.prev addr := by
  intro addr member
  rw [← List.map_tail] at member
  obtain ⟨c, inside, rfl⟩ := List.mem_map.mp member
  exact links_of_eq (rear.tail c inside)

/-- The blocks behind an edit are still described. -/
theorem Rear.describes {pointer : Option Nat} (rear : Rear h h' ys pointer)
    (before : ∀ c ∈ ys, h.Describes c) : ∀ c ∈ ys, h'.Describes c := by
  intro c member
  have old := before c member
  cases ys with
  | nil => simp at member
  | cons d ys =>
    rcases List.mem_cons.mp member with rfl | later
    · have relinked := rear.head c rfl
      exact old.of_fields (by constructor <;> rw [relinked])
    · exact old.of_fields (SameFields.of_eq (rear.tail c later))

/-- The blocks before an edit: the last of them points on elsewhere. -/
structure Front (h h' : Heap) (xs : List Block) (pointer : Option Nat) : Prop where
  /-- The last block is linked on to the new neighbour. -/
  last : ∀ c ∈ xs.getLast?, h'.mem c.start = { h.mem c.start with next := pointer }
  /-- The others are not touched. -/
  init : ∀ c ∈ xs.dropLast, h'.mem c.start = h.mem c.start

/-- The links of the last block before an edit. -/
theorem Front.links_last {pointer : Option Nat} (front : Front h h' xs pointer) :
    ∀ addr ∈ (xs.map Block.start).getLast?,
      h'.next addr = pointer ∧ h'.prev addr = h.prev addr := by
  intro addr member
  rw [List.getLast?_map] at member
  obtain ⟨c, inside, rfl⟩ := Option.map_eq_some_iff.mp member
  unfold next prev
  rw [front.last c inside]
  exact ⟨rfl, rfl⟩

/-- The links of the other blocks before an edit. -/
theorem Front.links_init {pointer : Option Nat} (front : Front h h' xs pointer) :
    ∀ addr ∈ (xs.map Block.start).dropLast,
      h'.next addr = h.next addr ∧ h'.prev addr = h.prev addr := by
  intro addr member
  rw [← List.map_dropLast] at member
  obtain ⟨c, inside, rfl⟩ := List.mem_map.mp member
  exact links_of_eq (front.init c inside)

/-- The blocks before an edit are still described. -/
theorem Front.describes {pointer : Option Nat} (front : Front h h' xs pointer)
    (before : ∀ c ∈ xs, h.Describes c) : ∀ c ∈ xs, h'.Describes c := by
  intro c member
  have old := before c member
  rcases List.eq_nil_or_concat xs with rfl | ⟨init, d, rfl⟩
  · simp at member
  · rw [List.concat_eq_append] at front member
    rcases List.mem_append.mp member with inside | last
    · exact old.of_fields (SameFields.of_eq (front.init c (by simpa using inside)))
    · obtain rfl := List.mem_singleton.mp last
      have relinked := front.last c (by simp)
      exact old.of_fields (by constructor <;> rw [relinked])

/-- The blocks before an edit that leaves them alone have the links they had. -/
theorem links_of_same (same : ∀ c ∈ xs, h'.mem c.start = h.mem c.start) :
    ∀ addr ∈ xs.map Block.start, h'.next addr = h.next addr ∧ h'.prev addr = h.prev addr := by
  intro addr member
  obtain ⟨c, inside, rfl⟩ := List.mem_map.mp member
  exact links_of_eq (same c inside)

/-- A block is cut in two: the second part is linked in behind the first. -/
theorem Listed.insert {front back : Block} (listed : h.Listed (xs ++ b :: ys))
    (start : front.start = b.start)
    (frontNext : h'.next b.start = some back.start) (frontPrev : h'.prev b.start = h.prev b.start)
    (backNext : h'.next back.start = h.next b.start) (backPrev : h'.prev back.start = some b.start)
    (describesFront : h'.Describes front) (describesBack : h'.Describes back)
    (same : ∀ c ∈ xs, h'.mem c.start = h.mem c.start) (rear : Rear h h' ys (some back.start)) :
    h'.Listed (xs ++ front :: back :: ys) := by
  constructor
  · have links := listed.links
    simp only [List.map_append, List.map_cons] at links ⊢
    rw [start]
    refine links.insert backNext backPrev frontNext frontPrev rear.links_head ?_
    intro addr member
    rcases List.mem_append.mp member with left | right
    · exact links_of_same same addr left
    · exact rear.links_tail addr right
  · have behind := rear.describes fun c member => listed.describes c (by simp [member])
    intro c member
    simp only [List.mem_append, List.mem_cons] at member
    rcases member with left | rfl | rfl | right
    · exact (listed.describes c (by simp [left])).congr (same c left)
    · exact describesFront
    · exact describesBack
    · exact behind c right

/-- Two neighbours become one block at the place of the first. -/
theorem Listed.remove {joined : Block} (listed : h.Listed (xs ++ b :: c :: ys))
    (start : joined.start = b.start)
    (nextOf : h'.next b.start = h.next c.start) (prevOf : h'.prev b.start = h.prev b.start)
    (describes : h'.Describes joined)
    (same : ∀ d ∈ xs, h'.mem d.start = h.mem d.start) (rear : Rear h h' ys (some b.start)) :
    h'.Listed (xs ++ joined :: ys) := by
  constructor
  · have links := listed.links
    simp only [List.map_append, List.map_cons] at links ⊢
    rw [start]
    refine links.remove nextOf prevOf rear.links_head ?_
    intro addr member
    rcases List.mem_append.mp member with left | right
    · exact links_of_same same addr left
    · exact rear.links_tail addr right
  · have behind := rear.describes fun d member => listed.describes d (by simp [member])
    intro d member
    simp only [List.mem_append, List.mem_cons] at member
    rcases member with left | rfl | right
    · exact (listed.describes d (by simp [left])).congr (same d left)
    · exact describes
    · exact behind d right

/-- A block is taken out: its neighbours are linked to each other. -/
theorem Listed.unlink (listed : h.Listed (xs ++ b :: ys)) (front : Front h h' xs (h.next b.start))
    (rear : Rear h h' ys (h.prev b.start)) : h'.Listed (xs ++ ys) := by
  constructor
  · have links := listed.links
    simp only [List.map_append, List.map_cons] at links ⊢
    refine links.unlink front.links_last rear.links_head ?_
    intro addr member
    rcases List.mem_append.mp member with left | right
    · exact front.links_init addr left
    · exact rear.links_tail addr right
  · intro c member
    rcases List.mem_append.mp member with left | right
    · exact front.describes (fun d inside => listed.describes d (by simp [inside])) c left
    · exact rear.describes (fun d inside => listed.describes d (by simp [inside])) c right

/-- A change of one header's flag or length changes one block. -/
theorem Listed.update {changed : Block} (listed : h.Listed (xs ++ b :: ys))
    (start : changed.start = b.start)
    (links : h'.next b.start = h.next b.start ∧ h'.prev b.start = h.prev b.start)
    (describes : h'.Describes changed)
    (same : ∀ c ∈ xs ++ ys, h'.mem c.start = h.mem c.start) :
    h'.Listed (xs ++ changed :: ys) := by
  constructor
  · have addresses : (xs ++ changed :: ys).map Block.start = (xs ++ b :: ys).map Block.start := by
      simp [start]
    rw [addresses]
    apply listed.links.congr
    intro addr member
    obtain ⟨c, inside, rfl⟩ := List.mem_map.mp member
    simp only [List.mem_append, List.mem_cons] at inside
    rcases inside with left | rfl | right
    · exact links_of_eq (same c (by simp [left]))
    · exact links
    · exact links_of_eq (same c (by simp [right]))
  · intro c member
    simp only [List.mem_append, List.mem_cons] at member
    rcases member with left | rfl | right
    · exact (listed.describes c (by simp [left])).congr (same c (by simp [left]))
    · exact describes
    · exact (listed.describes c (by simp [right])).congr (same c (by simp [right]))

/-! ## Splitting -/

/-- The other blocks of a list without repetition start elsewhere. -/
theorem start_ne (nodup : ((xs ++ b :: ys).map Block.start).Nodup) {c : Block}
    (member : c ∈ xs ++ ys) : c.start ≠ b.start := by
  rw [List.map_append, List.map_cons] at nodup
  intro same
  apply (List.nodup_middle.mp nodup).notMem
  rw [← same, ← List.map_append]
  exact List.mem_map_of_mem member

/-- A new address linked in leaves the list without repetition. -/
theorem nodup_cut {front back : Block} (nodup : ((xs ++ b :: ys).map Block.start).Nodup)
    (start : front.start = b.start) (fresh : ∀ c ∈ xs ++ b :: ys, c.start ≠ back.start) :
    ((xs ++ front :: back :: ys).map Block.start).Nodup := by
  have regrouped : (xs ++ front :: back :: ys).map Block.start =
      (xs ++ [b]).map Block.start ++ back.start :: ys.map Block.start := by simp [start]
  rw [regrouped, List.nodup_middle, List.nodup_cons, ← List.map_append]
  have together : xs ++ [b] ++ ys = xs ++ b :: ys := by simp
  rw [together]
  refine ⟨?_, nodup⟩
  intro member
  obtain ⟨c, inside, same⟩ := List.mem_map.mp member
  exact fresh c inside same

/-- The first block behind another is the only one its forward link names. -/
theorem Listed.next_ne (listed : h.Listed (xs ++ b :: ys))
    (nodup : ((xs ++ b :: ys).map Block.start).Nodup) {c : Block}
    (member : c ∈ xs ++ b :: ys.tail) : (h.mem b.start).next ≠ some c.start := by
  rw [listed.next_eq]
  cases ys with
  | nil => simp
  | cons d ys =>
    simp only [List.head?_cons, Option.map_some, ne_eq, Option.some.injEq]
    intro same
    have regrouped : xs ++ b :: d :: ys = (xs ++ [b]) ++ d :: ys := by simp
    rw [regrouped] at nodup
    refine start_ne nodup (c := c) ?_ same.symm
    simpa using member

/-- The memory after `split_header`. -/
theorem splitHeader_mem {current split n new : Nat} (unused : (h.mem current).inUse = false)
    (rounded : roundToMultipleOf split headerSize = n) (fits : n + headerSize ≤ (h.mem current).len)
    (place : current + n + headerSize = new) (newWord : new < wordLimit)
    (lenWord : (h.mem current).len < wordLimit)
    (notSelf : (h.mem current).next ≠ some current) (notNew : (h.mem current).next ≠ some new) :
    ∃ h', h.splitHeader current split = .ok h' ∧ SameBooks h h' ∧
      h'.mem current = { h.mem current with next := some new, len := n } ∧
      h'.mem new = ⟨(h.mem current).next, some current, (h.mem current).len - (n + headerSize),
        false, false⟩ ∧
      ∀ a, a ≠ current → a ≠ new → h'.mem a =
        if (h.mem current).next = some a then { h.mem a with prev := some new } else h.mem a := by
  have elsewhere : current ≠ new := by
    unfold headerSize at place
    omega
  have short : wrap (n + headerSize) = n + headerSize := wrap_of_lt (by omega)
  have long : ¬ (h.mem current).len < n + headerSize := by omega
  have rest : wrapSub (h.mem current).len (n + headerSize) =
      (h.mem current).len - (n + headerSize) := wrapSub_of_le fits (by omega)
  have placed : wrap new = new := wrap_of_lt (by omega)
  let h₁ := h.modify new fun _ => ⟨(h.mem current).next, some current,
    (h.mem current).len - (n + headerSize), false, false⟩
  let h₂ := h₁.modifyAt (h₁.mem current).next fun header => { header with prev := some new }
  let h₃ := h₂.modify current fun header => { header with next := some new, len := n }
  have kept : h₁.mem current = h.mem current := by simp [h₁, modify_mem, elsewhere]
  have kept₂ : h₂.mem current = h.mem current := by
    simp only [h₂, modifyAt_mem, kept, if_neg notSelf]
  refine ⟨h₃, ?_, ?_, ?_, ?_, ?_⟩
  · simp only [splitHeader, rounded, short, place, placed, rest, unused, if_neg long,
      Bool.false_eq_true, if_false]
    rfl
  · exact (sameBooks_modify _ _).trans ((sameBooks_modifyAt _ _).trans (sameBooks_modify _ _))
  · simp [h₃, modify_mem, kept₂]
  · simp only [h₃, h₂, modify_mem, modifyAt_mem, kept, if_neg (Ne.symm elsewhere), if_neg notNew]
    simp [h₁, modify_mem]
  · intro a notCurrent notPlace
    have untouched : h₁.mem a = h.mem a := by simp [h₁, modify_mem, notPlace]
    simp only [h₃, h₂, modify_mem, modifyAt_mem, kept, if_neg notCurrent, untouched]

/-- `split_header` cuts a free block in two. -/
theorem splitHeader_spec {n : Nat} (split : Nat) (listed : h.Listed (xs ++ b :: ys))
    (nodup : ((xs ++ b :: ys).map Block.start).Nodup) (free : b.used = false)
    (rounded : roundToMultipleOf split headerSize = n)
    (fits : n + headerSize + headerSize ≤ b.size) (small : b.stop < wordLimit)
    (fresh : ∀ c ∈ xs ++ b :: ys, c.start ≠ b.start + n + headerSize)
    (inner : ¬ defaultMemreserveSize ∣ b.start + n + headerSize) :
    ∃ h', h.splitHeader b.start split = .ok h' ∧ SameBooks h h' ∧
      h'.Listed (xs ++ ⟨b.start, n + headerSize, false⟩ :: b.back (n + headerSize) :: ys) ∧
      ∀ a, a ≠ b.start + n + headerSize → (∀ c ∈ xs ++ b :: ys, c.start ≠ a) →
        h'.mem a = h.mem a := by
  have described : h.Describes b := listed.describes b (by simp)
  have len := described.len
  have headerPos : 0 < headerSize := by decide
  unfold Block.stop at small
  have linked : ∀ addr, (h.mem b.start).next = some addr → ∃ c ∈ ys.head?, c.start = addr := by
    intro addr link
    rw [listed.next_eq] at link
    exact Option.map_eq_some_iff.mp link
  obtain ⟨h', splits, books, atFront, atBack, others⟩ :=
    splitHeader_mem (described.inUse.trans free) rounded (by omega) rfl (by omega) (by omega)
      (listed.next_ne nodup (by simp))
      (fun link => by
        obtain ⟨c, inside, same⟩ := linked _ link
        exact fresh c (by simp [List.mem_of_head? inside]) same)
  have place : (b.back (n + headerSize)).start = b.start + n + headerSize := by
    simp [Block.back, Nat.add_assoc]
  have unlinked : ∀ c ∈ xs ++ ys.tail, h'.mem c.start = h.mem c.start := by
    intro c member
    have inside : c ∈ xs ++ ys := by
      rcases List.mem_append.mp member with left | right
      · exact List.mem_append_left ys left
      · exact List.mem_append_right xs (List.mem_of_mem_tail right)
    have other := start_ne nodup inside
    have beside : c ∈ xs ++ b :: ys.tail := by
      simp only [List.mem_append, List.mem_cons] at member ⊢
      tauto
    have notNew := fresh c (by simp only [List.mem_append, List.mem_cons] at inside ⊢; tauto)
    rw [others c.start other notNew, if_neg (listed.next_ne nodup beside)]
  refine ⟨h', splits, books, ?_, ?_⟩
  · refine listed.insert rfl ?_ ?_ ?_ ?_ ?_ ?_ (fun c left => unlinked c (by simp [left])) ?_
    · rw [place, next, atFront]
    · simp [prev, atFront]
    · rw [place, next, atBack, next]
    · rw [place, prev, atBack]
    · refine ⟨?_, ?_, ?_⟩
      · simp [atFront]
      · simpa [atFront] using described.inUse.trans free
      · simpa [atFront] using described.startOfAllocation
    · refine ⟨?_, ?_, ?_⟩
      · rw [place, atBack]
        simp only [Block.back]
        omega
      · rw [place, atBack]
        rfl
      · rw [place, atBack]
        simp [inner]
    · refine ⟨?_, fun c right => unlinked c (by simp [right])⟩
      intro c inside
      have member := List.mem_of_head? inside
      have link : (h.mem b.start).next = some c.start := by
        rw [listed.next_eq, inside]
        rfl
      rw [place, others c.start (start_ne nodup (by simp [member])) (fresh c (by simp [member])),
        if_pos link]
  · intro a notNew notListed
    have notNext : (h.mem b.start).next ≠ some a := by
      intro link
      obtain ⟨c, inside, same⟩ := linked a link
      exact notListed c (by simp [List.mem_of_head? inside]) same
    rw [others a (Ne.symm (notListed b (by simp))) notNew, if_neg notNext]

/-! ## Merging -/

/-- The memory after the header at `second` was merged into the one at `first`. -/
structure Merges (h h' : Heap) (first second : Nat) : Prop where
  /-- Only the memory changes. -/
  books : SameBooks h h'
  /-- The first header takes over the bytes and the forward link of the second. -/
  merged : h'.mem first = { h.mem first with
    next := (h.mem second).next
    len := (h.mem first).len + (h.mem second).len + headerSize }
  /-- The header behind is linked back to the first. -/
  others : ∀ a, a ≠ first → h'.mem a =
    if (h.mem second).next = some a then { h.mem a with prev := some first } else h.mem a

/-- A merge joins two neighbours. -/
theorem Merges.listed (merges : Merges h h' b.start c.start)
    (listed : h.Listed (xs ++ b :: c :: ys))
    (nodup : ((xs ++ b :: c :: ys).map Block.start).Nodup) :
    h'.Listed (xs ++ b.join c :: ys) := by
  have regrouped : xs ++ b :: c :: ys = (xs ++ [b]) ++ c :: ys := by simp
  have listedC := listed
  have nodupC := nodup
  rw [regrouped] at listedC nodupC
  have describedB : h.Describes b := listed.describes b (by simp)
  have describedC : h.Describes c := listed.describes c (by simp)
  have unlinked : ∀ d ∈ xs ++ ys.tail, h'.mem d.start = h.mem d.start := by
    intro d member
    have notB : d.start ≠ b.start := by
      apply start_ne nodup
      rcases List.mem_append.mp member with left | right
      · exact List.mem_append_left _ left
      · exact List.mem_append_right _ (List.mem_cons_of_mem c (List.mem_of_mem_tail right))
    have notNext : (h.mem c.start).next ≠ some d.start := by
      apply listedC.next_ne nodupC
      rcases List.mem_append.mp member with left | right
      · simp [left]
      · simp [right]
    rw [merges.others d.start notB, if_neg notNext]
  refine listed.remove rfl ?_ ?_ ?_ (fun d left => unlinked d (by simp [left])) ?_
  · rw [next, merges.merged, next]
  · rw [prev, merges.merged, prev]
  · refine ⟨?_, ?_, ?_⟩
    · have lenB := describedB.len
      have lenC := describedC.len
      simp only [Block.join, merges.merged]
      omega
    · simpa only [Block.join, merges.merged] using describedB.inUse
    · show (h'.mem b.start).startOfAllocation = decide (defaultMemreserveSize ∣ b.start)
      rw [merges.merged]
      exact describedB.startOfAllocation
  · refine ⟨?_, fun d right => unlinked d (by simp [right])⟩
    intro d inside
    have member := List.mem_of_head? inside
    have link : (h.mem c.start).next = some d.start := by
      rw [listedC.next_eq, inside]
      rfl
    rw [merges.others d.start (start_ne nodup (by simp [member])), if_pos link]

/-- Merging with the block behind. -/
theorem mergeNext_merges {hdr next : Nat} (link : (h.mem hdr).next = some next)
    (free : (h.mem next).inUse = false) (inner : (h.mem next).startOfAllocation = false)
    (touch : next = hdr + (h.mem hdr).len + headerSize)
    (small : next + (h.mem next).len + headerSize < wordLimit)
    (notSelf : (h.mem next).next ≠ some hdr) (notNext : (h.mem next).next ≠ some next) :
    Merges h (h.mergeNext hdr) hdr next := by
  have contiguous : wrap (hdr + (h.mem hdr).len + headerSize) = next := by
    rw [← touch]
    exact wrap_of_lt (by omega)
  have headerPos : 0 < headerSize := by decide
  have elsewhere : next ≠ hdr := by omega
  let h₁ := h.modifyAt (h.mem next).next fun header => { header with prev := some hdr }
  let h₂ := h₁.modify hdr fun header =>
    { header with len := wrap (header.len + (h₁.mem next).len + headerSize) }
  let h₃ := h₂.modify hdr fun header => { header with next := (h₂.mem next).next }
  have result : h.mergeNext hdr = h₃ := by
    unfold mergeNext
    rw [link]
    simp only [free, inner, contiguous, Bool.not_false, beq_self_eq_true, Bool.and_self, if_true]
    rfl
  have hdr₁ : h₁.mem hdr = h.mem hdr := by simp only [h₁, modifyAt_mem, if_neg notSelf]
  have next₁ : h₁.mem next = h.mem next := by simp only [h₁, modifyAt_mem, if_neg notNext]
  have next₂ : h₂.mem next = h.mem next := by
    simp only [h₂, modify_mem, if_neg elsewhere, next₁]
  have total : wrap ((h.mem hdr).len + (h.mem next).len + headerSize) =
      (h.mem hdr).len + (h.mem next).len + headerSize := wrap_of_lt (by omega)
  rw [result]
  refine ⟨?_, ?_, ?_⟩
  · exact (sameBooks_modifyAt _ _).trans ((sameBooks_modify _ _).trans (sameBooks_modify _ _))
  · simp only [h₃, modify_mem, if_true, next₂]
    simp only [h₂, modify_mem, if_true, hdr₁, next₁, total]
  · intro a other
    simp only [h₃, h₂, modify_mem, if_neg other]
    simp only [h₁, modifyAt_mem]

/-- Merging with the block before. -/
theorem mergePrev_merges {hdr prev : Nat} (link : (h.mem hdr).prev = some prev)
    (free : (h.mem prev).inUse = false) (inner : (h.mem hdr).startOfAllocation = false)
    (touch : hdr = prev + (h.mem prev).len + headerSize)
    (small : hdr + (h.mem hdr).len + headerSize < wordLimit)
    (notPrev : (h.mem hdr).next ≠ some prev) :
    ∃ h', h.mergePrev hdr = (prev, h') ∧ Merges h h' prev hdr := by
  have contiguous : wrap (prev + (h.mem prev).len + headerSize) = hdr := by
    rw [← touch]
    exact wrap_of_lt (by omega)
  have headerPos : 0 < headerSize := by decide
  have elsewhere : hdr ≠ prev := by omega
  let h₁ := h.modify prev fun header => { header with next := (h.mem hdr).next }
  let h₂ := h₁.modify prev fun header =>
    { header with len := wrap (header.len + (h₁.mem hdr).len + headerSize) }
  let h₃ := h₂.modifyAt (h₂.mem hdr).next fun header => { header with prev := some prev }
  have result : h.mergePrev hdr = (prev, h₃) := by
    unfold mergePrev
    rw [link]
    simp only [free, inner, contiguous, Bool.not_false, beq_self_eq_true, Bool.and_self, if_true]
    rfl
  have hdr₁ : h₁.mem hdr = h.mem hdr := by simp only [h₁, modify_mem, if_neg elsewhere]
  have hdr₂ : h₂.mem hdr = h.mem hdr := by simp only [h₂, modify_mem, if_neg elsewhere, hdr₁]
  have total : wrap ((h.mem prev).len + (h.mem hdr).len + headerSize) =
      (h.mem prev).len + (h.mem hdr).len + headerSize := wrap_of_lt (by omega)
  refine ⟨h₃, result, ?_, ?_, ?_⟩
  · exact (sameBooks_modify _ _).trans ((sameBooks_modify _ _).trans (sameBooks_modifyAt _ _))
  · simp only [h₃, modifyAt_mem, hdr₂, if_neg notPrev]
    simp only [h₂, modify_mem, if_true, hdr₁]
    simp only [h₁, modify_mem, if_true, total]
  · intro a other
    simp only [h₃, modifyAt_mem, hdr₂]
    simp only [h₂, h₁, modify_mem, if_neg other]

end Heap

end FelineOS.Malloc
