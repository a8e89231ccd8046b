import FelineOS.Verif.KoutStrings

/-!
# Messages of the logger are whole

While a message is collected, every part of it is a literal or a view of a string that the object
keeps, and the strings stay in their blocks when the vector that keeps them moves to a larger one.
The destructor therefore finds all parts and writes them as one text, and nothing of the object is
left in the heap.
-/

namespace FelineOS.Kout

open Library

variable {ι : Type}

/-! ## What a message should be -/

/-- The text of an item. -/
def Item.text : Item → List UInt8
  | .view chars => chars
  | .string chars _ _ => chars
  | .char c => [c]

/-- The parts that the constructor puts out, with numbers of a minimal width. -/
def headParts (minWidth truncate : Nat) (level : LogLevel) (loc : SourceLocation) :
    List (List UInt8) :=
  [level.text, loc.fileName.drop truncate, [0x3A], Logger.formatted 10 minWidth loc.line.toNat,
    [0x3A], Logger.formatted 10 minWidth loc.column.toNat, [0x28], loc.functionName, ascii "): "]

/-- The parts of a message. -/
def parts (minWidth truncate : Nat) (level : LogLevel) (loc : SourceLocation) (items : List Item) :
    List (List UInt8) :=
  headParts minWidth truncate level loc ++ items.map Item.text ++ [ascii "\n"]

/-! ## What is collected -/

/-- A view shows a part as long as certain strings are kept. -/
inductive Shows (texts : List (KString ι × List UInt8)) : KStringView ι → List UInt8 → Prop where
  /-- A literal. -/
  | literal (chars : List UInt8) : Shows texts (.literal chars) chars
  /-- A string that is kept. -/
  | string {str : KString ι} {chars : List UInt8} (member : (str, chars) ∈ texts)
      (has : str.Has chars) : Shows texts str.view chars

/-- More strings do not disturb a view. -/
theorem Shows.mono {texts more : List (KString ι × List UInt8)} {view : KStringView ι}
    {part : List UInt8} (shows : Shows texts view part) (kept : texts ⊆ more) :
    Shows more view part := by
  cases shows with
  | literal => exact .literal part
  | string member has => exact .string (kept member) has

/-- The length of a view is that of its part. -/
theorem Shows.length {texts : List (KString ι × List UInt8)} {view : KStringView ι}
    {part : List UInt8} (shows : Shows texts view part) : view.length = part.length := by
  cases shows with
  | literal => rfl
  | string member has => exact has.number

/-- The blocks of the strings that are kept. -/
def textBlocks (texts : List (KString ι × List UInt8)) : List (ι × List UInt8) :=
  texts.flatMap fun entry => entry.1.owned entry.2

/-- A part is read through its view. -/
theorem Shows.chars {start heap : Heap ι} {held : List (ι × List UInt8)}
    {texts : List (KString ι × List UInt8)} {view : KStringView ι} {part : List UInt8}
    (shows : Shows texts view part) (holding : Holding start held heap)
    (inside : textBlocks texts ⊆ held) :
    view.chars heap = .ok part := by
  cases shows with
  | literal => rfl
  | string member has =>
    unfold KString.view
    rw [has.number]
    apply chars_spec has.present holding
    intro entry listed
    exact inside (List.mem_flatMap.mpr ⟨_, member, listed⟩)

/-- One more string has one more block. -/
theorem textBlocks_concat (texts : List (KString ι × List UInt8)) (str : KString ι)
    (chars : List UInt8) :
    textBlocks (texts ++ [(str, chars)]) = textBlocks texts ++ str.owned chars := by
  unfold textBlocks
  rw [List.flatMap_append, List.flatMap_singleton]

/-- The fourth of five parts comes to the front. -/
theorem fourth_first {α : Type} (a b c d e : List α) :
    (a ++ (b ++ (c ++ (d ++ e)))).Perm (d ++ (a ++ (b ++ (c ++ e)))) :=
  calc
    (a ++ (b ++ (c ++ (d ++ e)))).Perm (a ++ (b ++ (d ++ (c ++ e)))) :=
      ((List.perm_append_comm_assoc c d e).append_left b).append_left a
    List.Perm _ (a ++ (d ++ (b ++ (c ++ e)))) :=
      (List.perm_append_comm_assoc b d (c ++ e)).append_left a
    List.Perm _ (d ++ (a ++ (b ++ (c ++ e)))) := List.perm_append_comm_assoc a d _

/-- The blocks of the two vectors and of the strings, in front of others. -/
def blocks (out : Kout ι) (texts : List (KString ι × List UInt8)) (held : List (ι × List UInt8)) :
    List (ι × List UInt8) :=
  atBlock out.strings.items [] ++ (atBlock out.lifetimeExtender.items [] ++ (textBlocks texts ++ held))

/-- The object keeps strings and has collected parts. -/
structure Collects (start : Heap ι) (held : List (ι × List UInt8))
    (texts : List (KString ι × List UInt8)) (parts : List (List UInt8)) (out : Kout ι)
    (heap : Heap ι) : Prop where
  /-- It collects. -/
  alloc : out.alloc = true
  /-- Nothing is written. -/
  unwritten : out.written = []
  /-- The views show the parts. -/
  shows : List.Forall₂ (Shows texts) out.strings.vector.items parts
  /-- The views are in memory. -/
  views : out.strings.vector.capacity ≤ uintptrMax / 8
  /-- The strings are kept. -/
  keeps : out.lifetimeExtender.vector.items = texts.map Prod.fst
  /-- They are in memory. -/
  strings : out.lifetimeExtender.vector.capacity ≤ uintptrMax / 16
  /-- Its blocks are held besides others. -/
  holding : Holding start (blocks out texts held) heap

/-- Blocks that are made for a moment are held with the others. -/
theorem Collects.beside {start heap after : Heap ι} {held more : List (ι × List UInt8)}
    {texts : List (KString ι × List UInt8)} {parts : List (List UInt8)} {out : Kout ι}
    (collects : Collects start held texts parts out heap)
    (holding : Holding start (more ++ blocks out texts held) after) :
    Collects start (more ++ held) texts parts out after :=
  { collects with holding := holding.perm (fourth_first ..).symm }

section Steps

variable [DecidableEq ι] {malloc : Heap ι → Nat → Option ι} {limit : Nat} {start heap : Heap ι}
  {held : List (ι × List UInt8)} {texts : List (KString ι × List UInt8)}
  {parts : List (List UInt8)} {out : Kout ι}

/-- An object comes behind the others of a vector. -/
theorem append_spec {β : Type} (fresh : Fresh malloc) {sizeofT : Nat} (least : 8 ≤ sizeofT)
    (most : sizeofT ≤ 16) (item : β) {v : Owned β ι}
    (bounded : v.vector.capacity ≤ uintptrMax / sizeofT) (few : v.vector.items.length < limit)
    (holding : Holding start (atBlock v.items [] ++ held) heap) :
    Settles (Grown start) malloc .abort (Crowded limit)
      (fun made => made.1.vector.items = v.vector.items ++ [item] ∧
        made.1.vector.capacity ≤ uintptrMax / sizeofT ∧
        Holding start (atBlock made.1.items [] ++ held) made.2)
      (fun malloc => append malloc sizeofT item v heap) := by
  have fits := v.vector.fits
  have small : uintptrMax / sizeofT ≤ uintptrMax / 8 := Nat.div_le_div_left least (by decide)
  have large : uintptrMax / 16 ≤ uintptrMax / sizeofT := Nat.div_le_div_left most (by omega)
  have word : v.vector.items.length + 1 < wordLimit := by
    have eighth : uintptrMax / 8 + 1 < wordLimit := by decide
    omega
  have long : (v.vector.items ++ [item]).length = v.vector.items.length + 1 := List.length_append
  unfold append
  simp only [wrap_of_lt word]
  by_cases enough : v.vector.items.length + 1 ≤ v.vector.capacity
  · have room : (v.vector.items ++ [item]).length ≤ v.vector.capacity := by
      rw [long]
      exact enough
    simp only [if_pos enough, dif_pos room]
    exact .done ⟨rfl, bounded, holding⟩
  · have sized : uintptrMax / sizeofT < v.vector.items.length + 1 → Crowded limit := by
      intro lacking
      unfold Crowded
      omega
    simp only [if_neg enough]
    apply (allocate_spec fresh sized ⟨_, holding⟩ holding).bind
    rintro ⟨newItems, grown⟩ ⟨granted, holding⟩
    obtain ⟨after, returned, left⟩ := returnMemory_spec (holding.perm List.perm_middle.symm)
    simp only [returned, ok_bind, dif_pos (Nat.le_of_eq long)]
    exact .done ⟨rfl, granted, left⟩

/-- A view comes behind the others. -/
theorem Collects.addPart (fresh : Fresh malloc) (collects : Collects start held texts parts out heap)
    {view : KStringView ι} {part : List UInt8} (shows : Shows texts view part)
    (few : parts.length < limit) :
    Settles (Grown start) malloc .abort (Crowded limit)
      (fun made => Collects start held texts (parts ++ [part]) made.1 made.2)
      (fun malloc => addPart malloc view out heap) := by
  have count := collects.shows.length_eq
  unfold Kout.addPart
  simp only [if_pos collects.alloc]
  apply (append_spec fresh (by decide) (by decide) view collects.views (by omega)
    collects.holding).bind
  rintro ⟨strings, grown⟩ ⟨items, bounded, holding⟩
  refine .done ⟨collects.alloc, collects.unwritten, ?_, bounded, collects.keeps, collects.strings,
    holding⟩
  show List.Forall₂ (Shows texts) strings.vector.items (parts ++ [part])
  rw [items]
  exact List.rel_append collects.shows (.cons shows .nil)

/-- A string that is held besides is released. -/
theorem Collects.release {str : KString ι} {chars : List UInt8}
    (collects : Collects start (str.owned chars ++ held) texts parts out heap) :
    ∃ after, str.destroy heap = .ok after ∧ Collects start held texts parts out after := by
  obtain ⟨after, destroyed, holding⟩ :=
    KString.destroy_spec (collects.holding.perm (fourth_first ..))
  exact ⟨after, destroyed, { collects with holding }⟩

/-- A string is kept, and a view of it comes behind the others; the parameter is released. -/
theorem Collects.outString (fresh : Fresh malloc) {str : KString ι} {chars : List UInt8}
    (collects : Collects start (str.owned chars ++ held) texts parts out heap) (has : str.Has chars)
    (strings : texts.length < limit) (few : parts.length < limit) :
    Settles (Grown start) malloc .abort (Crowded limit)
      (fun made => ∃ kept : KString ι,
        Collects start held (texts ++ [(kept, chars)]) (parts ++ [chars]) made.1 made.2)
      (fun malloc => outString malloc str out heap) := by
  unfold Kout.outString
  simp only [if_pos collects.alloc]
  apply (has.copy fresh (collects.holding.perm (fourth_first ..))).bind
  rintro ⟨item, copied⟩ ⟨hasItem, holding⟩
  have size : out.lifetimeExtender.vector.items.length < limit := by
    rw [collects.keeps, List.length_map]
    exact strings
  have behind : Holding start (atBlock out.lifetimeExtender.items [] ++
      (atBlock out.strings.items [] ++ (textBlocks (texts ++ [(item, chars)]) ++
        (str.owned chars ++ held)))) copied := by
    apply holding.perm
    rw [textBlocks_concat, List.append_assoc]
    exact List.perm_iff_count.mpr fun entry => by
      simp only [List.count_append]
      omega
  apply (append_spec fresh (by decide) (by decide) item collects.strings size behind).bind
  rintro ⟨extender, grown⟩ ⟨items, bounded, holding⟩
  have last : extender.vector.items.getLast? = some item := by
    rw [items, List.getLast?_append]
    rfl
  have next : Collects start (str.owned chars ++ held) (texts ++ [(item, chars)]) parts
      { out with lifetimeExtender := extender } grown := by
    refine ⟨collects.alloc, collects.unwritten, ?_, collects.views, ?_, bounded,
      holding.perm (List.perm_append_comm_assoc ..)⟩
    · exact collects.shows.imp fun view part shows => shows.mono (List.subset_append_left _ _)
    · show extender.vector.items = _
      rw [items, collects.keeps, List.map_append]
      rfl
  have shows : Shows (texts ++ [(item, chars)]) item.view chars :=
    .string (List.mem_append_right _ (List.mem_singleton.mpr rfl)) hasItem
  simp only [last]
  apply (next.addPart fresh shows few).bind
  rintro ⟨out, after⟩ collects
  obtain ⟨left, destroyed, collects⟩ := collects.release
  simp only [destroyed, ok_bind]
  exact .done ⟨item, collects⟩

/-- What the object has collected, with no more strings than parts. -/
def Collected (start : Heap ι) (held : List (ι × List UInt8)) (parts : List (List UInt8))
    (made : Kout ι × Heap ι) : Prop :=
  ∃ texts, texts.length ≤ parts.length ∧ Collects start held texts parts made.1 made.2

/-- A literal is collected. -/
theorem Collected.literal (fresh : Fresh malloc) (collected : Collected start held parts (out, heap))
    (chars : List UInt8) (few : parts.length < limit) :
    Settles (Grown start) malloc .abort (Crowded limit) (Collected start held (parts ++ [chars]))
      (fun malloc => addPart malloc (.literal chars) out heap) := by
  obtain ⟨texts, fewer, collects⟩ := collected
  apply (collects.addPart fresh (.literal chars) few).imp
  intro made collects
  refine ⟨texts, ?_, collects⟩
  rw [List.length_append]
  exact Nat.le_trans fewer (Nat.le_add_right _ _)

/-- A string is collected. -/
theorem Collected.string (fresh : Fresh malloc) {str : KString ι} {chars : List UInt8}
    (collected : Collected start (str.owned chars ++ held) parts (out, heap)) (has : str.Has chars)
    (few : parts.length < limit) :
    Settles (Grown start) malloc .abort (Crowded limit) (Collected start held (parts ++ [chars]))
      (fun malloc => outString malloc str out heap) := by
  obtain ⟨texts, fewer, collects⟩ := collected
  apply (collects.outString fresh has (Nat.lt_of_le_of_lt fewer few) few).imp
  rintro made ⟨kept, collects⟩
  refine ⟨texts ++ [(kept, chars)], ?_, collects⟩
  rw [List.length_append, List.length_append]
  exact Nat.add_le_add_right fewer 1

/-- A character is collected. -/
theorem Collected.char (fresh : Fresh malloc) (collected : Collected start held parts (out, heap))
    (c : UInt8) (few : parts.length < limit) :
    Settles (Grown start) malloc .abort (Crowded limit) (Collected start held (parts ++ [[c]]))
      (fun malloc => outChar malloc c out heap) := by
  obtain ⟨texts, fewer, collects⟩ := collected
  have word : ([] : List UInt8).length + 1 < wordLimit := by decide
  unfold outChar
  simp only [if_pos collects.alloc]
  apply (KString.has_empty.append fresh c word collects.holding).bind
  rintro ⟨tempString, made⟩ ⟨hasTemp, holding⟩
  apply (hasTemp.copy fresh holding).bind
  rintro ⟨str, copied⟩ ⟨has, holding⟩
  rw [← List.append_assoc] at holding
  have next := collects.beside holding
  rw [List.append_assoc] at next
  apply (Collected.string fresh ⟨texts, fewer, next⟩ has few).bind
  rintro ⟨out, after⟩ ⟨texts, fewer, collects⟩
  obtain ⟨left, destroyed, collects⟩ := collects.release
  simp only [destroyed, ok_bind]
  exact .done ⟨texts, fewer, collects⟩

omit [DecidableEq ι] in
/-- A string that is made is held with what is collected. -/
theorem Collected.made {chars : List UInt8}
    {run : (Heap ι → Nat → Option ι) → Except Fault (KString ι × Heap ι)}
    (collected : Collected start held parts (out, heap))
    (makes : ∀ others, Holding start others heap →
      Settles (Grown start) malloc .abort (Crowded limit)
        (fun made => made.1.Has chars ∧ Holding start (made.1.owned chars ++ others) made.2) run) :
    Settles (Grown start) malloc .abort (Crowded limit)
      (fun made => made.1.Has chars ∧ Collected start (made.1.owned chars ++ held) parts (out, made.2))
      run := by
  obtain ⟨texts, fewer, collects⟩ := collected
  apply (makes _ collects.holding).imp
  intro made has
  exact ⟨has.1, texts, fewer, collects.beside has.2⟩

/-- The caller's string has its characters. -/
theorem makeString_spec (fresh : Fresh malloc) {chars : List UInt8} {capacity : Nat}
    {asked : Heap ι → Nat → Prop} {excuse : Prop} (fits : chars.length ≤ capacity)
    (word : capacity < wordLimit) (asks : asked heap capacity) (holding : Holding start held heap) :
    Settles asked malloc .abort excuse
      (fun made => made.1.Has chars ∧ Holding start (made.1.owned chars ++ held) made.2)
      (fun malloc => makeString malloc chars capacity heap) := by
  unfold makeString
  apply (KString.has_empty.reserve fresh word asks holding).bind
  rintro ⟨str, made⟩ ⟨has, enough, holding⟩
  have present : chars ≠ [] → str.items.isSome := by
    intro nonempty
    apply has.block
    have long := List.length_pos_iff.mpr nonempty
    exact Nat.ne_of_gt (Nat.lt_of_lt_of_le long (Nat.le_trans fits enough))
  obtain ⟨after, written, contents⟩ := write_spec present (Nat.zero_le _) holding
  rw [List.take_nil, List.drop_nil, List.nil_append, List.append_nil] at contents
  dsimp only at written ⊢
  simp only [written, ok_bind]
  exact .done ⟨⟨rfl, Nat.le_trans fits enough, has.word, has.block⟩, contents⟩

/-- An item is collected. -/
theorem Collected.put (fresh : Fresh malloc) (item : Item)
    (collected : Collected start held parts (out, heap)) (few : parts.length < limit) :
    Settles (Grown start) malloc .abort (Crowded limit) (Collected start held (parts ++ [item.text]))
      (fun malloc => put malloc item out heap) := by
  cases item with
  | view chars => exact collected.literal fresh chars few
  | string chars capacity fits =>
    apply (collected.made fun _ holding =>
      makeString_spec fresh fits capacity.toNat_lt ⟨_, holding⟩ holding).bind
    rintro ⟨str, made⟩ ⟨has, collected⟩
    exact collected.string fresh has few
  | char c => exact collected.char fresh c few

/-- Items are collected one after the other. -/
theorem Collected.putAll (fresh : Fresh malloc) (items : List Item)
    (collected : Collected start held parts (out, heap)) (few : parts.length + items.length ≤ limit) :
    Settles (Grown start) malloc .abort (Crowded limit) (Collected start held (parts ++ items.map Item.text))
      (fun malloc => putAll malloc items out heap) := by
  induction items generalizing parts out heap with
  | nil =>
    rw [List.map_nil, List.append_nil]
    exact .done collected
  | cons item items ih =>
    rw [List.length_cons] at few
    apply (collected.put fresh item (by omega)).bind
    rintro ⟨out, after⟩ collected
    have next := ih collected (by rw [List.length_append, List.length_singleton]; omega)
    rw [List.append_assoc] at next
    exact next

omit [DecidableEq ι] in
/-- A new object has collected nothing. -/
theorem collected_nothing (start : Heap ι) :
    Collected start [] [] (⟨Owned.empty, Owned.empty, true, []⟩, start) :=
  ⟨[], Nat.le_refl 0, rfl, rfl, .nil, Nat.zero_le _, rfl, Nat.zero_le _, .nothing start⟩

/-- The constructor collects the head of the message. -/
theorem construct_collects (fresh : Fresh malloc) {fuel truncate : Nat} (enough : 10 < fuel)
    (level : LogLevel) {loc : SourceLocation} (truncated : truncate ≤ loc.fileName.length)
    (buf : List UInt8) (few : 9 ≤ limit) :
    Settles (Grown start) malloc .abort (Crowded limit) (Collected start [] (headParts 1 truncate level loc))
      (fun malloc => construct malloc fuel truncate level loc true buf start) := by
  have early (k : Nat) (small : k < 9) : k < limit := Nat.lt_of_lt_of_le small few
  unfold construct relativePath
  simp only [if_pos truncated, ok_bind]
  apply ((collected_nothing start).literal fresh level.text (early 0 (by decide))).bind
  rintro ⟨out, heap⟩ collected
  apply (collected.literal fresh _ (early 1 (by decide))).bind
  rintro ⟨out, heap⟩ collected
  apply (collected.char fresh _ (early 2 (by decide))).bind
  rintro ⟨out, heap⟩ collected
  simp only [if_true]
  apply (collected.made fun _ => KString.dec_spec fresh enough loc.line).bind
  rintro ⟨line, heap⟩ ⟨has, collected⟩
  apply (collected.string fresh has (early 3 (by decide))).bind
  rintro ⟨out, heap⟩ collected
  apply (collected.char fresh _ (early 4 (by decide))).bind
  rintro ⟨out, heap⟩ collected
  apply (collected.made fun _ => KString.dec_spec fresh enough loc.column).bind
  rintro ⟨column, heap⟩ ⟨has, collected⟩
  apply (collected.string fresh has (early 5 (by decide))).bind
  rintro ⟨out, heap⟩ collected
  apply (collected.char fresh _ (early 6 (by decide))).bind
  rintro ⟨out, heap⟩ collected
  apply (collected.literal fresh _ (early 7 (by decide))).bind
  rintro ⟨out, heap⟩ collected
  exact collected.literal fresh _ (early 8 (by decide))

/-! ## The destructor -/

omit [DecidableEq ι] in
/-- The lengths of the views add up to that of the message. -/
theorem totalLength_eq {views : List (KStringView ι)} (shows : List.Forall₂ (Shows texts) views parts)
    (sum : Nat) (word : sum + parts.flatten.length < wordLimit) :
    views.foldl (fun sum str => wrap (sum + str.length)) sum = sum + parts.flatten.length := by
  induction shows generalizing sum with
  | nil => rfl
  | @cons view part views parts first later ih =>
    rw [List.flatten_cons, List.length_append] at word ⊢
    rw [List.foldl_cons, first.length, wrap_of_lt (by omega), ih _ (by omega)]
    omega

/-- Behind every part there is something left of the message. -/
def EndsFilled (parts : List (List UInt8)) : Prop :=
  ∀ front back, parts = front ++ back → back ≠ [] → back.flatten ≠ []

/-- A message whose last part is not empty ends so. -/
theorem endsFilled_of_last (front : List (List UInt8)) {last : List UInt8} (filled : last ≠ []) :
    EndsFilled (front ++ [last]) := by
  intro before back same nonempty nothing
  have ends := congrArg List.getLast? same
  rw [List.getLast?_append_of_ne_nil _ nonempty, List.getLast?_concat] at ends
  have member := List.mem_of_getLast? ends.symm
  exact filled (List.flatten_eq_nil_iff.mp nothing last member)

/-- The parts are copied to their places in the message. -/
theorem copyParts_spec {views : List (KStringView ι)} (fullString : KString ι) (done : List UInt8)
    (shows : List.Forall₂ (Shows texts) views parts) (filled : EndsFilled parts)
    (long : fullString.numItems = done.length + parts.flatten.length)
    (room : fullString.numItems ≤ fullString.capacity)
    (some : fullString.items.isSome) (word : fullString.capacity < wordLimit)
    (inside : textBlocks texts ⊆ held)
    (holding : Holding start
      (fullString.owned (done ++ List.replicate parts.flatten.length 0) ++ held) heap) :
    ∃ after, copyParts fullString views done.length heap = .ok after ∧
      Holding start (fullString.owned (done ++ parts.flatten) ++ held) after := by
  induction shows generalizing done heap with
  | nil => exact ⟨heap, rfl, holding⟩
  | @cons view part views parts first later ih =>
    have nonempty := List.length_pos_iff.mpr (filled [] (part :: parts) rfl (List.cons_ne_nil _ _))
    have rest : EndsFilled parts := fun front back same => filled (part :: front) back
      (congrArg (part :: ·) same)
    have read := first.chars holding fun entry listed => List.mem_append_right _ (inside listed)
    rw [List.flatten_cons, List.length_append] at long nonempty holding
    have fits : done.length + part.length ≤ fullString.capacity := by omega
    have small : done.length + part.length < wordLimit := by omega
    have before : ¬fullString.numItems ≤ done.length := by omega
    have front : done.length ≤
        (done ++ List.replicate (part.length + parts.flatten.length) (0 : UInt8)).length := by
      rw [List.length_append]
      exact Nat.le_add_right _ _
    have present : part ≠ [] → fullString.items.isSome := fun _ => some
    obtain ⟨after, written, contents⟩ := write_spec present front holding
    have taken : (done ++ List.replicate (part.length + parts.flatten.length) 0).take done.length ++
        part ++ (done ++ List.replicate (part.length + parts.flatten.length) 0).drop
          (done.length + part.length) =
        (done ++ part) ++ List.replicate parts.flatten.length (0 : UInt8) := by
      rw [List.take_left, List.drop_append, List.drop_of_length_le (Nat.le_add_right _ _),
        List.nil_append, List.drop_replicate, Nat.add_sub_cancel_left, Nat.add_sub_cancel_left]
    rw [taken] at contents
    obtain ⟨last, copied, whole⟩ := ih (done ++ part) rest
      (by rw [List.length_append]; omega) contents
    rw [List.length_append] at copied
    refine ⟨last, ?_, ?_⟩
    · rw [copyParts, if_neg before, read, ok_bind, if_pos fits, written, ok_bind, first.length,
        wrap_of_lt small]
      exact copied
    · rw [List.flatten_cons, ← List.append_assoc]
      exact whole

/-- The message is written as a whole, and what the object keeps is still there. -/
theorem Collects.doWrite (fresh : Fresh malloc) (collects : Collects start held texts parts out heap)
    (filled : EndsFilled parts) (nonempty : parts ≠ []) (word : parts.flatten.length < wordLimit) :
    Settles (Grown start) malloc .abort (Crowded limit)
      (fun made => made.1 = { out with written := [parts.flatten] } ∧
        Holding start (blocks out texts held) made.2)
      (fun malloc => doWrite malloc out heap) := by
  have long := List.length_pos_iff.mpr (filled [] parts rfl nonempty)
  have total := totalLength_eq collects.shows 0 (by rw [Nat.zero_add]; exact word)
  rw [Nat.zero_add] at total
  unfold Kout.doWrite
  simp only [collects.alloc, assert_true, ok_bind, total]
  apply (KString.has_empty.append fresh 0 (by rw [List.length_nil, Nat.zero_add]; exact word)
    collects.holding).bind
  rintro ⟨fullString, made⟩ ⟨has, holding⟩
  have number : fullString.numItems = ([] : List UInt8).length + parts.flatten.length := by
    rw [has.number, List.nil_append, List.length_replicate, List.length_nil, Nat.zero_add]
  have room := has.room
  rw [← has.number] at room
  have some := has.block (Nat.ne_of_gt (Nat.lt_of_lt_of_le
    (by rw [number, List.length_nil, Nat.zero_add]; exact long) room))
  have inside : textBlocks texts ⊆ blocks out texts held := fun entry listed =>
    List.mem_append_right _ (List.mem_append_right _ (List.mem_append_left _ listed))
  obtain ⟨after, copied, whole⟩ := copyParts_spec fullString [] collects.shows filled number room
    some has.word inside holding
  rw [List.nil_append] at whole
  have hasWhole : fullString.Has parts.flatten := by
    refine ⟨?_, ?_, has.word, has.block⟩
    · rw [number, List.length_nil, Nat.zero_add]
    · rw [number, List.length_nil, Nat.zero_add] at room
      exact room
  obtain ⟨left, destroyed, holding⟩ := KString.destroy_spec whole
  rw [List.length_nil] at copied
  dsimp only at copied destroyed ⊢
  simp only [copied, ok_bind, hasWhole.chars_view whole, destroyed, collects.unwritten]
  exact .done ⟨rfl, holding⟩

/-- The strings that are kept are released. -/
theorem destroyTexts_spec (texts : List (KString ι × List UInt8))
    (holding : Holding start (textBlocks texts ++ held) heap) :
    ∃ after, (texts.map Prod.fst).foldlM (fun heap str => str.destroy heap) heap = .ok after ∧
      Holding start held after := by
  induction texts generalizing heap with
  | nil => exact ⟨heap, rfl, holding⟩
  | cons entry texts ih =>
    have first : textBlocks (entry :: texts) ++ held =
        entry.1.owned entry.2 ++ (textBlocks texts ++ held) := by
      rw [textBlocks, List.flatMap_cons, List.append_assoc]
      rfl
    rw [first] at holding
    obtain ⟨next, destroyed, holding⟩ := KString.destroy_spec holding
    obtain ⟨after, rest, holding⟩ := ih holding
    refine ⟨after, ?_, holding⟩
    rw [List.map_cons, List.foldlM_cons, destroyed]
    exact rest

/-- The members leave nothing in the heap. -/
theorem destroyMembers_spec (keeps : out.lifetimeExtender.vector.items = texts.map Prod.fst)
    (holding : Holding start (blocks out texts held) heap) :
    ∃ after, destroyMembers out heap = .ok after ∧ Holding start held after := by
  have strings : Holding start (textBlocks texts ++ (atBlock out.lifetimeExtender.items [] ++
      (atBlock out.strings.items [] ++ held))) heap := by
    apply holding.perm
    exact List.perm_iff_count.mpr fun entry => by
      simp only [blocks, List.count_append]
      omega
  obtain ⟨one, destroyed, holding⟩ := destroyTexts_spec texts strings
  obtain ⟨two, returned, holding⟩ := returnMemory_spec holding
  obtain ⟨three, gone, holding⟩ := returnMemory_spec holding
  refine ⟨three, ?_, holding⟩
  rw [destroyMembers, keeps, destroyed, ok_bind, returned, ok_bind, gone]

/-- The destructor writes the message and leaves the heap as it was. -/
theorem Collected.destroy (fresh : Fresh malloc) (collected : Collected start [] parts (out, heap))
    (few : parts.length < limit)
    (word : (parts ++ [ascii "\n"]).flatten.length < wordLimit) :
    Settles (Grown start) malloc .abort (Crowded limit)
      (fun made => made = ([(parts ++ [ascii "\n"]).flatten], start))
      (fun malloc => destroy malloc out heap) := by
  unfold Kout.destroy
  apply (collected.literal fresh _ few).bind
  rintro ⟨out, heap⟩ ⟨texts, -, collects⟩
  have ends : ascii "\n" ≠ [] := by decide
  have filled := endsFilled_of_last parts ends
  simp only [if_pos collects.alloc]
  apply (collects.doWrite fresh filled (List.append_ne_nil_of_right_ne_nil _ (by decide)) word).bind
  rintro ⟨written, heap⟩ ⟨same, holding⟩
  obtain ⟨after, destroyed, holding⟩ := destroyMembers_spec collects.keeps holding
  dsimp only at same ⊢
  have gone : destroyMembers { out with written := [(parts ++ [ascii "\n"]).flatten] } heap =
      .ok after := destroyed
  simp only [same, gone, ok_bind, holding.eq_start]
  exact .done rfl

end Steps

/-! ## Whole messages -/

/-- A message that is collected is written with one call, whole and in order, and leaves the heap as
it was: no part of it is read after its string moved or went. The logger can only run out of
memory. -/
theorem log_writes_once [DecidableEq ι] {malloc : Heap ι → Nat → Option ι} (fresh : Fresh malloc)
    {fuel truncate : Nat} (enough : 10 < fuel) (level : LogLevel) {loc : SourceLocation}
    (truncated : truncate ≤ loc.fileName.length) (buf : List UInt8) (items : List Item)
    (sized : (parts 1 truncate level loc items).flatten.length < wordLimit) (heap : Heap ι) :
    (log malloc fuel truncate level loc true buf items heap = .error .abort ∧
        Lacks malloc heap (parts 1 truncate level loc items).length fun malloc =>
          log malloc fuel truncate level loc true buf items heap) ∨
      log malloc fuel truncate level loc true buf items heap =
        .ok ([(parts 1 truncate level loc items).flatten], heap) := by
  have count : (parts 1 truncate level loc items).length = 10 + items.length := by
    unfold parts headParts
    simp only [List.length_append, List.length_cons, List.length_nil, List.length_map]
    omega
  have settles : Settles (Grown heap) malloc .abort
      (Crowded (parts 1 truncate level loc items).length)
      (fun made => made = ([(parts 1 truncate level loc items).flatten], heap))
      (fun malloc => log malloc fuel truncate level loc true buf items heap) := by
    unfold log
    apply (construct_collects fresh enough level truncated buf (by omega)).bind
    rintro ⟨out, made⟩ collected
    apply (collected.putAll fresh items (by
      rw [count]
      exact Nat.add_le_add_right (by decide : 9 ≤ 10) _)).bind
    rintro ⟨out, made⟩ collected
    apply collected.destroy fresh _ sized
    rw [count, List.length_append, List.length_map]
    exact Nat.add_lt_add_right (by decide : 9 < 10) _
  rcases settles.cases_of with failed | ⟨made, returns, rfl⟩
  · exact .inl failed
  · exact .inr returns

/-- The first block that is not allocated. -/
def firstFree (heap : Heap Nat) (_ : Nat) : Option Nat :=
  (List.range 64).find? fun block => (heap block).isNone

/-- A block that is not allocated is new. -/
theorem fresh_firstFree : Fresh firstFree := by
  intro heap bytes block answer
  have free := List.find?_some answer
  exact Option.isNone_iff_eq_none.mp free

/-- A place in the source. -/
def exampleLocation : SourceLocation := ⟨ascii "kernel.cpp", ascii "int main()", 42, 7⟩

/-- Text, a character and a number. -/
def exampleItems : List Item :=
  [.view (ascii "Free: "), .string (ascii "0x1f") 8 (by decide), .char 0x21]

/-- A message with its place. -/
theorem log_writes_once_example :
    log firstFree 64 0 .warning exampleLocation true [] exampleItems (fun _ => none) =
      .ok ([(parts 1 0 .warning exampleLocation exampleItems).flatten], fun _ => none) := by
  have sized : (parts 1 0 .warning exampleLocation exampleItems).flatten.length < wordLimit := by
    decide +kernel
  have returns : (log firstFree 64 0 .warning exampleLocation true [] exampleItems
      (fun _ => none)).toBool = true := by
    decide +kernel
  have enough : 10 < 64 := by decide
  rcases log_writes_once fresh_firstFree enough .warning (Nat.zero_le _) [] exampleItems sized
    (fun _ => none) with failed | returned
  · rw [failed.1] at returns
    cases returns
  · exact returned

end FelineOS.Kout
