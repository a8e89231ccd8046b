import FelineOS.Verif.HeapMalloc

/-!
# Taking memory back

`free` from the bottom up: the header of the pointer is found (`findHeader_spec`), its block is
merged with its neighbours (`mergeNext_spec`, `mergePrev_spec`), and a page without a block
handed out is unlinked and returned (`returnPages_spec`). A whole call keeps the invariant
(`free_spec`).
-/

namespace FelineOS.Malloc

open Library Heap

variable {h h' : Heap} {calls : MemCalls} {b c : Block} {xs ys pl pr : List Block}
  {pages ps qs : List Page} {base ptr fuel : Nat} {w : World}

/-! ## Finding the header -/

/-- The pointer that belongs to a block is not cut. -/
theorem wrap_payload (header : headerSize ≤ b.size) (stop : b.stop < wordLimit) :
    wrap (b.start + headerSize) = payload b := by
  unfold Block.stop at stop
  exact wrap_of_lt (by omega)

/-- The loop of `free` follows the list to the header of the pointer. -/
theorem findHeader_spec {first : Block} (listed : h.Listed (xs ++ (ys ++ b :: pr)))
    (pointer : ∀ c ∈ ys ++ [b], wrap (c.start + headerSize) = payload c)
    (passes : ∀ c ∈ ys, c.start ≠ b.start) (head : (ys ++ b :: pr).head? = some first) :
    h.findHeader (payload b) (fuel + 1 + ys.length) first.start = .ok b.start := by
  induction ys generalizing xs first with
  | nil =>
    obtain rfl : b = first := by simpa using head
    rw [List.length_nil, Nat.add_zero, findHeader, if_pos (pointer b (by simp))]
  | cons c ys ih =>
    obtain rfl : c = first := by simpa using head
    obtain ⟨d, rest, shape, link, behind⟩ := listed.further
    have other : ¬ wrap (c.start + headerSize) = payload b := by
      rw [pointer c (by simp)]
      have different := passes c (by simp)
      unfold payload
      omega
    have further := ih behind (fun e member => pointer e (List.mem_cons_of_mem c member))
      (fun e member => passes e (by simp [member]))
      (show (ys ++ b :: pr).head? = some d by rw [shape]; rfl)
    rw [List.length_cons, ← Nat.add_assoc, findHeader, if_neg other]
    simp only [link]
    exact further

/-- More steps do not change a lookup that ended. -/
theorem findHeader_mono {start hdr : Nat} (more : Nat)
    (ends : h.findHeader ptr fuel start = .ok hdr) :
    h.findHeader ptr (fuel + more) start = .ok hdr := by
  induction fuel generalizing start with
  | zero => exact absurd ends (by simp [findHeader])
  | succ fuel ih =>
    rw [Nat.add_right_comm]
    rw [findHeader] at ends ⊢
    by_cases found : wrap (start + headerSize) = ptr
    · rw [if_pos found] at ends ⊢
      exact ends
    · rw [if_neg found] at ends ⊢
      cases link : (h.mem start).next with
      | some next =>
        simp only [link] at ends ⊢
        exact ih ends
      | none =>
        simp only [link] at ends ⊢
        exact ends

/-! ## Freeing the bytes -/

/-- `memset` on the bytes of a block keeps every header. -/
theorem memset_listed (listed : h.Listed (xs ++ b :: ys))
    (apart : (xs ++ b :: ys).Pairwise fun a b => a.stop ≤ b.start ∨ b.stop ≤ a.start)
    (headers : ∀ c ∈ xs ++ b :: ys, headerSize ≤ c.size) :
    (h.memset (b.start + headerSize) (h.mem b.start).len).Listed (xs ++ b :: ys) := by
  have len := (listed.describes b (by simp)).len
  refine listed.congr ?_
  intro c member
  have header := headers c member
  refine if_neg ?_
  rcases mem_middle.mp member with rfl | around
  · omega
  · have ordered := apart_of_spread apart around
    unfold Block.stop at ordered
    omega

/-! ## Merging -/

section Merging

variable (listed : h.Listed (blocksOf (ps ++ (base, pl ++ b :: pr) :: qs)))
  (grids : ∀ page ∈ ps ++ (base, pl ++ b :: pr) :: qs, PageGrid page)
  (distinct : ((ps ++ (base, pl ++ b :: pr) :: qs).map Prod.fst).Nodup) (free : b.used = false)

include listed grids distinct free

/-- A freed block is merged with the block behind it in its page. -/
theorem mergeNext_spec : SameBooks h (h.mergeNext b.start) ∧
    (h.mergeNext b.start).Listed (blocksOf (ps ++ (base, pl ++ mergeHead (b :: pr)) :: qs)) := by
  have grid : PageGrid (base, pl ++ b :: pr) := grids _ (by simp)
  have nodup := nodup_starts grids distinct
  rw [blocksOf_split] at listed nodup
  cases pr with
  | nil =>
    -- The next header, if any, starts another page.
    have same : h.mergeNext b.start = h := by
      have link := listed.next_eq
      unfold mergeNext
      cases head : (blocksOf qs).head? with
      | none =>
        rw [List.nil_append, head] at link
        simp [link]
      | some c =>
        rw [List.nil_append, head] at link
        have boundary : defaultMemreserveSize ∣ c.start :=
          dvd_start_head (fun page member => grids page (by simp [member])) head
        have member : c ∈ blocksOf qs := List.mem_of_head? head
        have marked := (listed.describes c (by simp [member])).startOfAllocation
        simp [link, marked, boundary]
    rw [same]
    exact ⟨SameBooks.refl h, by simpa [mergeHead] using listed⟩
  | cons c pr =>
    have link := listed.next_eq
    simp only [List.cons_append, List.head?_cons, Option.map_some] at link
    have describedB : h.Describes b := listed.describes b (by simp)
    have describedC : h.Describes c := listed.describes c (by simp)
    have touch : b.stop = c.start := grid.tiles.touch
    by_cases used : c.used = true
    · have same : h.mergeNext b.start = h := by
        unfold mergeNext
        simp [link, describedC.inUse, used]
      have apart : ¬ b.Mergeable c := fun mergeable => by
        have unused := mergeable.2.1
        simp [used] at unused
      rw [same]
      exact ⟨SameBooks.refl h, by simpa [mergeHead, apart] using listed⟩
    · rw [Bool.not_eq_true] at used
      have mergeable : b.Mergeable c := ⟨free, used, touch⟩
      have merges : Merges h (h.mergeNext b.start) b.start c.start := by
        have regrouped : pl ++ b :: c :: pr = (pl ++ [b]) ++ c :: pr := by simp
        have inner : ¬ defaultMemreserveSize ∣ c.start := by
          rw [regrouped] at grid
          rw [grid.dvd_start_iff]
          simp
        have stop := grid.stop_lt (b := c) (by simp)
        have lenB := describedB.len
        have lenC := describedC.len
        have together : blocksOf ps ++ pl ++ b :: (c :: pr ++ blocksOf qs) =
            (blocksOf ps ++ pl ++ [b]) ++ c :: (pr ++ blocksOf qs) := by simp
        rw [together] at listed nodup
        unfold Block.stop at touch stop
        refine mergeNext_merges link (describedC.inUse.trans used) ?_ (by omega) (by omega)
          (listed.next_ne nodup (by simp)) (listed.next_ne nodup (by simp))
        rw [describedC.startOfAllocation, decide_eq_false_iff_not]
        exact inner
      have joined := merges.listed listed nodup
      exact ⟨merges.books, by simpa [mergeHead, mergeable] using joined⟩

/-- A freed block is merged with the block before it in its page. -/
theorem mergePrev_spec : ∃ h' m pl', h.mergePrev b.start = (m.start, h') ∧ SameBooks h h' ∧
    mergeSeam pl (b :: pr) = pl' ++ m :: pr ∧ m.used = false ∧
    h'.Listed (blocksOf (ps ++ (base, mergeSeam pl (b :: pr)) :: qs)) := by
  have grid : PageGrid (base, pl ++ b :: pr) := grids _ (by simp)
  have nodup := nodup_starts grids distinct
  rw [blocksOf_split] at listed nodup
  have describedB : h.Describes b := listed.describes b (by simp)
  rcases List.eq_nil_or_concat pl with rfl | ⟨init, a, rfl⟩
  · -- The block starts the page.
    have boundary : defaultMemreserveSize ∣ b.start := grid.dvd_start_iff.mpr rfl
    have same : h.mergePrev b.start = (b.start, h) := by
      have marked := describedB.startOfAllocation
      unfold mergePrev
      cases h.mem b.start |>.prev with
      | none => rfl
      | some prev => simp [marked, boundary]
    exact ⟨h, b, [], same, SameBooks.refl h, rfl, free, by simpa [mergeSeam] using listed⟩
  · rw [List.concat_eq_append] at *
    have regrouped : init ++ [a] ++ b :: pr = init ++ a :: b :: pr := by simp
    have tiles := grid.tiles
    rw [regrouped] at tiles
    have touch : a.stop = b.start := tiles.touch
    have together : blocksOf ps ++ (init ++ [a]) ++ b :: (pr ++ blocksOf qs) =
        (blocksOf ps ++ init) ++ a :: b :: (pr ++ blocksOf qs) := by simp
    have describedA : h.Describes a := listed.describes a (by simp)
    have back : (h.mem b.start).prev = some a.start := by
      rw [listed.prev_eq, ← List.append_assoc, List.getLast?_concat]
      rfl
    rw [mergeSeam_concat]
    by_cases used : a.used = true
    · have same : h.mergePrev b.start = (b.start, h) := by
        unfold mergePrev
        simp [back, describedA.inUse, used]
      have apart : ¬ a.Mergeable b := fun mergeable => by
        have unused := mergeable.1
        simp [used] at unused
      refine ⟨h, b, init ++ [a], same, SameBooks.refl h, ?_, free, ?_⟩
      · simp [mergeHead, apart]
      · simpa [mergeHead, apart] using listed
    · rw [Bool.not_eq_true] at used
      have mergeable : a.Mergeable b := ⟨used, free, touch⟩
      have lenA := describedA.len
      have lenB := describedB.len
      have stop := grid.stop_lt (b := b) (by simp)
      have inner : ¬ defaultMemreserveSize ∣ b.start := by
        rw [grid.dvd_start_iff]
        simp
      have notPrev : (h.mem b.start).next ≠ some a.start := by
        rw [← List.append_assoc] at listed nodup
        exact listed.next_ne nodup (by simp)
      unfold Block.stop at touch stop
      obtain ⟨h', result, merges⟩ := mergePrev_merges back (describedA.inUse.trans used)
        (by rw [describedB.startOfAllocation, decide_eq_false_iff_not]; exact inner)
        (by omega) (by omega) notPrev
      rw [together] at listed nodup
      have joined := merges.listed listed nodup
      refine ⟨h', a.join b, init, result, merges.books, ?_, used, ?_⟩
      · simp [mergeHead, mergeable]
      · simpa [mergeHead, mergeable] using joined

end Merging

/-! ## Returning a page -/

/-- The neighbours of an unlinked header are linked to each other. -/
theorem unlink_spec (listed : h.Listed (xs ++ b :: ys))
    (nodup : ((xs ++ b :: ys).map Block.start).Nodup) :
    SameBooks h (h.unlink b.start) ∧ (h.unlink b.start).Listed (xs ++ ys) ∧
      (h.unlink b.start).mem b.start = h.mem b.start := by
  have back := listed.prev_eq
  have forward := listed.next_eq
  have prevIff : ∀ c ∈ xs ++ b :: ys,
      ((h.mem b.start).prev = some c.start ↔ c ∈ xs.getLast?) := by
    intro c member
    rw [back, Option.map_eq_some_iff]
    constructor
    · rintro ⟨d, last, same⟩
      have inside : d ∈ xs ++ b :: ys := by simp [List.mem_of_getLast? last]
      rwa [List.inj_on_of_nodup_map nodup inside member same] at last
    · exact fun last => ⟨c, last, rfl⟩
  have nextIff : ∀ c ∈ xs ++ b :: ys, ((h.mem b.start).next = some c.start ↔ c ∈ ys.head?) := by
    intro c member
    rw [forward, Option.map_eq_some_iff]
    constructor
    · rintro ⟨d, head, same⟩
      have inside : d ∈ xs ++ b :: ys := by simp [List.mem_of_head? head]
      rwa [List.inj_on_of_nodup_map nodup inside member same] at head
    · exact fun head => ⟨c, head, rfl⟩
  have blocks : (xs ++ b :: ys).Nodup := nodup.of_map
  obtain ⟨nodupXs, nodupRest, across⟩ := List.nodup_append.mp blocks
  obtain ⟨notBehind, nodupYs⟩ := List.nodup_cons.mp nodupRest
  have notPrev : (h.mem b.start).prev ≠ some b.start := by
    rw [ne_eq, prevIff b (by simp)]
    exact fun last => across b (List.mem_of_getLast? last) b (by simp) rfl
  have written : ∀ c ∈ xs ++ b :: ys, (h.unlink b.start).mem c.start =
      { h.mem c.start with
        next := if c ∈ xs.getLast? then (h.mem b.start).next else (h.mem c.start).next
        prev := if c ∈ ys.head? then (h.mem b.start).prev else (h.mem c.start).prev } := by
    intro c member
    simp only [Heap.unlink, modifyAt_mem, if_neg notPrev, prevIff c member, nextIff c member]
    split_ifs <;> rfl
  have notHead : ∀ c ∈ xs, c ∉ ys.head? := fun c left head =>
    across c left c (List.mem_cons_of_mem b (List.mem_of_head? head)) rfl
  have notLast : ∀ c ∈ ys, c ∉ xs.getLast? := fun c right last =>
    across c (List.mem_of_getLast? last) c (List.mem_cons_of_mem b right) rfl
  refine ⟨(sameBooks_modifyAt _ _).trans (sameBooks_modifyAt _ _), listed.unlink ⟨?_, ?_⟩ ⟨?_, ?_⟩, ?_⟩
  · intro c last
    have left := List.mem_of_getLast? last
    rw [written c (by simp [left]), if_pos last, if_neg (notHead c left)]
    rfl
  · intro c inside
    have left := List.dropLast_subset xs inside
    have inner : c ∉ xs.getLast? := by
      intro last
      rw [← List.dropLast_append_getLast? c last, List.nodup_append] at nodupXs
      exact nodupXs.2.2 c inside c (by simp) rfl
    rw [written c (by simp [left]), if_neg inner, if_neg (notHead c left)]
  · intro c head
    have right := List.mem_of_head? head
    rw [written c (by simp [right]), if_neg (notLast c right), if_pos head]
    rfl
  · intro c inside
    have right := List.mem_of_mem_tail inside
    have inner : c ∉ ys.head? := by
      intro head
      rw [← List.cons_head?_tail head] at nodupYs
      exact (List.nodup_cons.mp nodupYs).1 inside
    rw [written c (by simp [right]), if_neg (notLast c right), if_neg inner]
  · have alone : b ∉ xs.getLast? := fun last =>
      across b (List.mem_of_getLast? last) b (by simp) rfl
    have alone' : b ∉ ys.head? := fun head => notBehind (List.mem_of_head? head)
    rw [written b (by simp), if_neg alone, if_neg alone']

/-- The head of the list without one of its blocks. -/
theorem head_unlink (nodup : ((xs ++ b :: ys).map Block.start).Nodup) :
    (if ((xs ++ b :: ys).map Block.start).head? = some b.start then (ys.map Block.start).head?
      else ((xs ++ b :: ys).map Block.start).head?) = ((xs ++ ys).map Block.start).head? := by
  cases xs with
  | nil => simp
  | cons x xs =>
    have different : x.start ≠ b.start := start_ne nodup (by simp)
    simp [different]

/-- A page that is one free block is unlinked and returned. -/
theorem returnPages_fresh (calls : MemCalls) (listed : h.Listed (xs ++ freshBlock base :: ys))
    (nodup : ((xs ++ freshBlock base :: ys).map Block.start).Nodup)
    (aligned : defaultMemreserveSize ∣ base)
    (first : h.firstHeader = ((xs ++ freshBlock base :: ys).map Block.start).head?) :
    (∃ h', h.returnPages calls base = .ok h' ∧ h'.Listed (xs ++ ys) ∧
      h'.firstHeader = ((xs ++ ys).map Block.start).head? ∧ h'.obtained = h.obtained ∧
      h'.returned = (base, defaultMemreserveSize) :: h.returned) ∨
    h.returnPages calls base = .error .abort := by
  obtain ⟨books, unlinked, kept⟩ := unlink_spec listed nodup
  have described : h.Describes (freshBlock base) := listed.describes _ (by simp)
  have len : (h.mem base).len = defaultMemreserveSize - headerSize := by
    have size := described.len
    simp only [freshBlock] at size
    omega
  have marked : (h.mem base).startOfAllocation = true := by
    have mark := described.startOfAllocation
    simpa [freshBlock, aligned] using mark
  have forward : (h.mem base).next = (ys.map Block.start).head? := by
    rw [List.head?_map]
    exact listed.next_eq
  have kept' : (h.unlink base).mem base = h.mem base := kept
  have whole : wrap (defaultMemreserveSize - headerSize + headerSize) = defaultMemreserveSize := rfl
  let h₁ : Heap := if (h.unlink base).firstHeader = some base then
    { h.unlink base with firstHeader := (ys.map Block.start).head? } else h.unlink base
  have memory : h₁.mem = (h.unlink base).mem := by
    simp only [h₁]
    split <;> rfl
  have head : h₁.firstHeader = ((xs ++ ys).map Block.start).head? := by
    rw [← head_unlink nodup, ← first, ← books.firstHeader]
    by_cases isFirst : (h.unlink base).firstHeader = some base
    · simp [h₁, freshBlock, isFirst]
    · simp [h₁, freshBlock, isFirst]
  have obtained : h₁.obtained = h.obtained := by
    rw [← books.obtained]
    simp only [h₁]
    split <;> rfl
  have returned : h₁.returned = h.returned := by
    rw [← books.returned]
    simp only [h₁]
    split <;> rfl
  have result : h.returnPages calls base = h₁.returnMem calls base := by
    unfold returnPages
    rw [if_pos (by simp [marked, len]), if_pos len]
    simp only [kept', forward]
    rfl
  have length : wrap ((h₁.mem base).len + headerSize) = defaultMemreserveSize := by
    rw [memory, kept', len, whole]
  rw [result, returnMem]
  simp only [length]
  by_cases accepted : calls.freeMem h₁ base defaultMemreserveSize = true
  · rw [if_pos accepted]
    refine Or.inl ⟨_, rfl, ?_, head, obtained, by rw [returned]⟩
    exact unlinked.congr fun c _ => congrFun memory c.start
  · rw [if_neg accepted]
    exact Or.inr rfl

/-- A block that does not fill its page stays. -/
theorem returnPages_other (described : h.Describes b) (grid : PageGrid (base, pl ++ b :: pr))
    (partly : pl ++ b :: pr ≠ [{ freshBlock base with used := b.used }]) :
    h.returnPages calls b.start = .ok h := by
  have len := described.len
  have placed : Placed base b := grid.block (by simp)
  have stop := placed.stop
  unfold returnPages
  rw [if_neg]
  rw [Bool.and_eq_true, decide_eq_true_iff, described.startOfAllocation, decide_eq_true_iff]
  rintro ⟨boundary, long⟩
  obtain rfl := grid.dvd_start_iff.mp boundary
  have start : b.start = base := grid.tiles.1
  have size : b.size = defaultMemreserveSize := by
    unfold Block.stop at stop
    unfold headerSize defaultMemreserveSize at *
    omega
  have rest := grid.tiles.2
  have empty : pr = [] := by
    cases pr with
    | nil => rfl
    | cons c pr =>
      have bounds := Tiles.bounds rest (List.mem_cons_self (a := c) (l := pr))
      have header := (grid.block (b := c) (by simp)).header
      unfold Block.stop headerSize at *
      simp only at bounds
      omega
  apply partly
  rw [empty]
  cases b
  simp only at start size
  simp [freshBlock, start, size]

/-! ## The invariant -/

/-- No two callers hold one pointer. -/
theorem HeapInv.nodup_live (inv : HeapInv w pages) : (w.live.map Prod.fst).Nodup := by
  have starts := nodup_starts inv.grids inv.distinct
  rw [inv.held.nodup_iff]
  refine List.Nodup.map_on ?_ (starts.of_map.filter _)
  intro c inC d inD same
  refine List.inj_on_of_nodup_map starts (List.mem_of_mem_filter inC) (List.mem_of_mem_filter inD) ?_
  unfold payload at same
  omega

/-- The callers' side of the invariant once one of their blocks is no longer handed out. -/
theorem HeapInv.held_release (inv : HeapInv w pages) {block : Nat × Nat} (held : block ∈ w.live)
    (split : blocksOf pages = xs ++ b :: ys) (used : b.used = true) (pointer : block.1 = payload b)
    {blocks : List Block} (kept : blocks.filter Block.used = (xs ++ ys).filter Block.used) :
    ((w.live.erase block).map Prod.fst).Perm ((blocks.filter Block.used).map payload) ∧
    ∀ block' ∈ w.live.erase block, ∃ c ∈ blocks, c.used = true ∧ block'.1 = payload c ∧
      block'.2 + headerSize ≤ c.size := by
  have all : (w.live.map Prod.fst).Perm (((xs ++ b :: ys).filter Block.used).map payload) := by
    rw [← split]
    exact inv.held
  have distinct := inv.nodup_live
  constructor
  · rw [kept]
    have taken : ((xs ++ b :: ys).filter Block.used).map payload =
        (xs.filter Block.used).map payload ++ payload b :: (ys.filter Block.used).map payload := by
      simp [used]
    have order := ((List.perm_cons_erase held).map Prod.fst).symm.trans all
    rw [taken, List.map_cons, pointer] at order
    have rest := (order.trans List.perm_middle).cons_inv
    simpa using rest
  · intro block' member
    have nodup : w.live.Nodup := distinct.of_map
    obtain ⟨different, inLive⟩ := (nodup.mem_erase_iff).mp member
    obtain ⟨c, inside, usedC, pointerC, large⟩ := inv.enough block' inLive
    rw [split] at inside
    have around : c ∈ xs ++ ys := by
      rcases mem_middle.mp inside with rfl | around
      · exact absurd (List.inj_on_of_nodup_map distinct inLive held (pointerC.trans pointer.symm))
          different
      · exact around
    have filtered : c ∈ blocks.filter Block.used := by
      rw [kept]
      exact List.mem_filter.mpr ⟨around, usedC⟩
    exact ⟨c, List.mem_of_mem_filter filtered, usedC, pointerC, large⟩

/-- The loop of `free` ends at the block of the pointer. -/
theorem HeapInv.findHeader (inv : HeapInv w (ps ++ (base, pl ++ b :: pr) :: qs))
    (enough : (blocksOf (ps ++ (base, pl ++ b :: pr) :: qs)).length < fuel) :
    ∃ first, w.heap.firstHeader = some first ∧
      w.heap.findHeader (payload b) fuel first = .ok b.start := by
  have listed := inv.listed
  have nodup := nodup_starts inv.grids inv.distinct
  have pointers : ∀ c ∈ blocksOf (ps ++ (base, pl ++ b :: pr) :: qs),
      wrap (c.start + headerSize) = payload c := by
    intro c inside
    obtain ⟨page, inPages, inPage⟩ := mem_blocksOf.mp inside
    exact wrap_payload ((inv.grids page inPages).block inPage).header
      ((inv.grids page inPages).stop_lt inPage)
  have head := inv.first
  rw [blocksOf_split] at listed nodup pointers head enough
  obtain ⟨first, isFirst⟩ : ∃ first,
      (blocksOf ps ++ pl ++ b :: (pr ++ blocksOf qs)).head? = some first := by
    cases blocksOf ps ++ pl with
    | nil => exact ⟨b, rfl⟩
    | cons c rest => exact ⟨c, rfl⟩
  rw [List.head?_map, isFirst] at head
  obtain ⟨more, rfl⟩ : ∃ more, fuel = more + 1 + (blocksOf ps ++ pl).length := by
    rw [List.length_append, List.length_cons] at enough
    exact ⟨fuel - 1 - (blocksOf ps ++ pl).length, by omega⟩
  have whole : w.heap.Listed ([] ++ (blocksOf ps ++ pl ++ b :: (pr ++ blocksOf qs))) := listed
  refine ⟨first.start, head, findHeader_spec whole ?_ ?_ isFirst⟩
  · intro c inside
    apply pointers
    rcases List.mem_append.mp inside with left | only
    · exact List.mem_append_left _ left
    · simp [List.mem_singleton.mp only]
  · intro c inside
    exact start_ne nodup (List.mem_append_left _ inside)

/-- The header part of `free`: the flag, the bytes and the two merges. -/
theorem HeapInv.merge (inv : HeapInv w (ps ++ (base, pl ++ b :: pr) :: qs)) {h : Heap}
    (marked : h = w.heap.modify b.start fun header => { header with inUse := false }) :
    ∃ h' m pl' rest, ((h.memset (b.start + headerSize) (h.mem b.start).len).mergeNext
        b.start).mergePrev b.start = (m.start, h') ∧ SameBooks w.heap h' ∧
      mergeSeam pl (mergeHead ({ b with used := false } :: pr)) = pl' ++ m :: rest ∧
      m.used = false ∧
      h'.Listed (blocksOf
        (ps ++ (base, mergeSeam pl (mergeHead ({ b with used := false } :: pr))) :: qs)) := by
  have distinct := inv.distinct
  have replaced : ∀ {blocks : List Block}, PageGrid (base, blocks) →
      ∀ page ∈ ps ++ (base, blocks) :: qs, PageGrid page := by
    intro blocks grid page member
    rcases List.mem_append.mp member with left | right
    · exact inv.grids page (by simp [left])
    · rcases List.mem_cons.mp right with rfl | later
      · exact grid
      · exact inv.grids page (by simp [later])
  have distinct' : ∀ blocks : List Block, ((ps ++ (base, blocks) :: qs).map Prod.fst).Nodup := by
    intro blocks
    simpa using distinct
  have grid₁ : PageGrid (base, pl ++ { b with used := false } :: pr) :=
    (inv.grids _ (by simp)).reflag false
  have listed₁ : h.Listed (blocksOf (ps ++ (base, pl ++ { b with used := false } :: pr) :: qs)) := by
    have listed := inv.listed
    have nodup := nodup_starts inv.grids inv.distinct
    rw [blocksOf_split] at listed nodup ⊢
    rw [marked]
    exact listed.mark nodup false
  have listed₂ : (h.memset (b.start + headerSize) (h.mem b.start).len).Listed
      (blocksOf (ps ++ (base, pl ++ { b with used := false } :: pr) :: qs)) := by
    have apart := spread (replaced grid₁) (distinct' _)
    have headers : ∀ c ∈ blocksOf (ps ++ (base, pl ++ { b with used := false } :: pr) :: qs),
        headerSize ≤ c.size := by
      intro c inside
      obtain ⟨page, inPages, inPage⟩ := mem_blocksOf.mp inside
      exact ((replaced grid₁ page inPages).block inPage).header
    rw [blocksOf_split] at listed₁ apart headers ⊢
    exact memset_listed listed₁ apart headers
  obtain ⟨books₃, listed₃⟩ := mergeNext_spec listed₂ (replaced grid₁) (distinct' _) rfl
  have grid₃ := PageGrid.mergeHead grid₁
  obtain ⟨m, rest, shape, start, unused⟩ := mergeHead_cons { b with used := false } pr
  rw [shape] at listed₃ grid₃ ⊢
  obtain ⟨h', m', pl', result, books₄, shape', unused', listed₄⟩ :=
    mergePrev_spec listed₃ (replaced grid₃) (distinct' _) unused
  refine ⟨h', m', pl', rest, ?_, ?_, shape', unused', listed₄⟩
  · rw [← result, start]
  · have booksMark : SameBooks w.heap h := by
      rw [marked]
      exact sameBooks_modify _ _
    have booksSet : SameBooks h (h.memset (b.start + headerSize) (h.mem b.start).len) :=
      ⟨rfl, rfl, rfl⟩
    exact booksMark.trans (booksSet.trans (books₃.trans books₄))

section Release

variable (inv : HeapInv w (ps ++ (base, pl ++ b :: pr) :: qs)) {block : Nat × Nat}
  (held : block ∈ w.live) (used : b.used = true) (pointer : block.1 = payload b)

include inv held used pointer

/-- The invariant once a block was freed and its page went back. -/
theorem HeapInv.drop {h' : Heap} (unused : (pl ++ pr).filter Block.used = [])
    (listed : h'.Listed (blocksOf (ps ++ qs)))
    (first : h'.firstHeader = ((blocksOf (ps ++ qs)).map Block.start).head?)
    (obtained : h'.obtained = w.heap.obtained)
    (returned : h'.returned = (base, defaultMemreserveSize) :: w.heap.returned) :
    HeapInv ⟨h', w.live.erase block⟩ (ps ++ qs) := by
  have same : (blocksOf (ps ++ qs)).filter Block.used =
      (blocksOf ps ++ pl ++ (pr ++ blocksOf qs)).filter Block.used := by
    rw [List.filter_append] at unused
    obtain ⟨left, right⟩ := List.append_eq_nil_iff.mp unused
    simp only [blocksOf_append, List.filter_append, left, right, List.append_nil, List.nil_append]
  obtain ⟨heldRest, enoughRest⟩ := inv.held_release held blocksOf_split used pointer same
  refine ⟨first, listed, ?_, ?_, ?_, ?_, heldRest, enoughRest⟩
  · intro page inside
    exact inv.layout page (mem_middle.mpr (Or.inr inside))
  · have distinct := inv.distinct
    rw [List.map_append, List.map_cons] at distinct
    rw [List.map_append]
    exact (List.nodup_middle.mp distinct).of_cons
  · have ledger := inv.ledger
    rw [List.map_append, List.map_cons, List.append_assoc, List.cons_append] at ledger
    rw [obtained, returned, List.map_append, List.append_assoc]
    refine ledger.trans (List.perm_middle.trans ?_)
    have behind := @List.perm_middle _ (base, defaultMemreserveSize)
      ((ps.map fun page => (page.1, defaultMemreserveSize)) ++
        qs.map fun page => (page.1, defaultMemreserveSize)) w.heap.returned
    simpa using behind.symm
  · rw [returned]
    intro entry member
    rcases List.mem_cons.mp member with rfl | old
    · rfl
    · exact inv.whole entry old

/-- The invariant once a block was freed and its page stays. -/
theorem HeapInv.recut {h' : Heap} {blocks : List Block} (grid : PageGrid (base, blocks))
    (settled : Coalesced blocks) (partly : blocks ≠ [freshBlock base])
    (kept : blocks.filter Block.used = (pl ++ pr).filter Block.used)
    (listed : h'.Listed (blocksOf (ps ++ (base, blocks) :: qs)))
    (books : SameBooks w.heap h') :
    HeapInv ⟨h', w.live.erase block⟩ (ps ++ (base, blocks) :: qs) := by
  have same : (blocksOf (ps ++ (base, blocks) :: qs)).filter Block.used =
      (blocksOf ps ++ pl ++ (pr ++ blocksOf qs)).filter Block.used := by
    simp only [blocksOf_append, blocksOf_cons, List.filter_append, kept, List.append_assoc]
  obtain ⟨heldRest, enoughRest⟩ := inv.held_release held blocksOf_split used pointer same
  have occupied : ∃ c ∈ blocks, c.used = true := by
    by_contra none
    push Not at none
    exact partly (grid.eq_fresh settled fun c inside => by simpa using none c inside)
  refine ⟨?_, listed, ?_, ?_, ?_, ?_, heldRest, enoughRest⟩
  · have old : PageGrid (base, pl ++ b :: pr) := inv.grids _ (by simp)
    show h'.firstHeader = _
    rw [books.firstHeader, inv.first, head_page old, head_page grid]
  · intro page inside
    rcases mem_middle.mp inside with rfl | other
    · exact ⟨grid, settled, occupied⟩
    · exact inv.layout page (mem_middle.mpr (Or.inr other))
  · have distinct := inv.distinct
    simpa using distinct
  · have ledger := inv.ledger
    simp only [books.obtained, books.returned]
    simpa using ledger
  · simp only [books.returned]
    exact inv.whole

end Release

/-- `free` of a pointer that a caller holds keeps the invariant or aborts in `free_mem`. -/
theorem free_spec (calls : MemCalls) (inv : HeapInv w pages) {block : Nat × Nat} (held : block ∈ w.live)
    (enough : (blocksOf pages).length < fuel) :
    (∃ h' pages', w.heap.free calls fuel block.1 = .ok h' ∧
      HeapInv ⟨h', w.live.erase block⟩ pages') ∨
    w.heap.free calls fuel block.1 = .error .abort := by
  obtain ⟨b, member, used, pointer, -⟩ := inv.enough block held
  obtain ⟨ps, base, pl, pr, qs, rfl⟩ := exists_page member
  have layout : PageLayout (base, pl ++ b :: pr) := inv.layout _ (by simp)
  have placed : Placed base b := layout.toPageGrid.block (by simp)
  have nonnull : block.1 ≠ 0 := by
    rw [pointer]
    unfold payload headerSize
    omega
  obtain ⟨first, isFirst, found⟩ := inv.findHeader enough
  have described : w.heap.Describes b := inv.listed.describes b member
  have cut := wrap_payload placed.header (layout.toPageGrid.stop_lt (b := b) (by simp))
  obtain ⟨h₄, m, pl', rest, merged, books, shape, unused, listed⟩ := inv.merge rfl
  have result : w.heap.free calls fuel block.1 = h₄.returnPages calls m.start := by
    unfold free
    rw [if_neg nonnull, pointer]
    simp only [isFirst, found, ok_bind, cut, ne_eq, not_true_eq_false, if_false, described.inUse, used,
      Bool.not_true, Bool.false_eq_true]
    rw [merged]
  rw [result]
  have grid : PageGrid (base, mergeSeam pl (mergeHead ({ b with used := false } :: pr))) :=
    (layout.toPageGrid.reflag false).mergeHead.mergeSeam
  have settled := layout.coalesced_release
  have kept : (mergeSeam pl (mergeHead ({ b with used := false } :: pr))).filter Block.used =
      (pl ++ pr).filter Block.used := by
    rw [filter_mergeSeam, List.filter_append, filter_mergeHead]
    simp
  generalize mergeSeam pl (mergeHead ({ b with used := false } :: pr)) = blocks at *
  by_cases whole : blocks = [freshBlock base]
  · -- The page has no block handed out and goes back.
    have start : m.start = base := by
      have only : m ∈ [freshBlock base] := by
        rw [← whole, shape]
        simp
      rw [List.mem_singleton.mp only]
      rfl
    have flat : blocksOf (ps ++ (base, blocks) :: qs) =
        blocksOf ps ++ freshBlock base :: blocksOf qs := by simp [whole]
    have grids : ∀ page ∈ ps ++ (base, blocks) :: qs, PageGrid page := by
      intro page inside
      rcases mem_middle.mp inside with rfl | other
      · exact grid
      · exact inv.grids page (mem_middle.mpr (Or.inr other))
    have nodup := nodup_starts grids (by simpa using inv.distinct)
    have first₄ : h₄.firstHeader =
        ((blocksOf (ps ++ (base, blocks) :: qs)).map Block.start).head? := by
      rw [books.firstHeader, inv.first, head_page layout.toPageGrid, head_page grid]
    rw [flat] at listed first₄ nodup
    rw [start]
    rcases returnPages_fresh calls listed nodup layout.aligned first₄ with
      ⟨h', returns, listed', first', obtained, returned⟩ | aborts
    · rw [← blocksOf_append] at listed' first'
      rw [books.obtained] at obtained
      rw [books.returned] at returned
      have none : (pl ++ pr).filter Block.used = [] := by
        rw [← kept, whole]
        rfl
      exact Or.inl ⟨h', ps ++ qs, returns,
        inv.drop held used pointer none listed' first' obtained returned⟩
    · exact Or.inr aborts
  · -- Some block of the page is still handed out.
    have stays : h₄.returnPages calls m.start = .ok h₄ := by
      rw [shape] at grid listed whole
      refine returnPages_other (listed.describes m (by simp)) grid ?_
      rw [unused]
      exact whole
    exact Or.inl ⟨h₄, ps ++ (base, blocks) :: qs, stays,
      inv.recut held used pointer grid settled whole kept listed books⟩

end FelineOS.Malloc
