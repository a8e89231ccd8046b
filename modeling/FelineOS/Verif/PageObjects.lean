import FelineOS.Kernel.PageObjects

/-!
# What the objects of `page` and `largePage` hold

An object holds a multiple of the chunk size of its class as long as no topmost one is incremented,
no `largePage` is made behind the first 4 KiB of its MiB, and no `largePage` is moved by what is no
multiple of a MiB. Exactly these calls break it.
-/

namespace FelineOS.PageObject

variable {o rhs after : Object} {objects result : List Object} {call : Call} {kind : Class}

/-- The address is a multiple of the chunk size. -/
def Object.Aligned (o : Object) : Prop := o.kind.getChunkSize.toNat ∣ o.addr.toNat

/-- The last address that is a multiple of the chunk size. -/
def Object.Topmost (o : Object) : Prop := o.addr.toNat + o.kind.getChunkSize.toNat = wordLimit

/-- What an object promises: its address, and that `--` undoes `++`. -/
structure Object.Sound (o : Object) : Prop where
  /-- The address is a multiple of the chunk size. -/
  aligned : o.Aligned
  /-- Except for the topmost one, incrementing and decrementing changes nothing. -/
  undone : ¬ o.Topmost → o.increment.decrement = o

/-- In every state of a run all objects are sound; a run may end in `std::abort`. -/
def Represents : List Object → List Call → Prop
  | objects, [] => ∀ o ∈ objects, o.Sound
  | objects, call :: calls => (∀ o ∈ objects, o.Sound) ∧
    ∀ after, exec objects call = .ok after → Represents after calls

/-- The calls that keep the objects sound. -/
def Call.Safe (objects : List Object) : Call → Prop
  | .construct .largePage virtAddr => virtAddr.toNat % 0x100000 < 0x1000
  | .preIncrement i | .postIncrement i => ∀ o ∈ objects[i]?, ¬ o.Topmost
  | .addAssign i j | .subAssign i j => ∀ o ∈ objects[i]?, ∀ rhs ∈ objects[j]?,
    o.kind = .largePage → 0x100000 ∣ rhs.addr.toNat
  | _ => True

/-- Every call of a run that returns is safe in the state that it finds. -/
def SafeRun : List Object → List Call → Prop
  | _, [] => True
  | objects, call :: calls => ∀ after, exec objects call = .ok after →
    call.Safe objects ∧ SafeRun after calls

/-! ## Addresses -/

/-- `LARGE_CHUNK_SIZE` is a multiple of `PHYS_MEM_CHUNK_SIZE`. -/
theorem page_dvd_of_aligned (aligned : o.Aligned) : 0x1000 ∣ o.addr.toNat := by
  unfold Object.Aligned at aligned
  cases kind : o.kind with
  | page =>
    rw [kind] at aligned
    exact aligned
  | largePage =>
    rw [kind] at aligned
    have multiple : 0x1000 ∣ Class.largePage.getChunkSize.toNat := by decide
    exact Nat.dvd_trans multiple aligned

/-- Cutting off the low bits rounds down to a multiple of the chunk size. -/
theorem cutOff_toNat (kind : Class) (addr : UInt32) : (cutOff kind.getChunkSize addr).toNat =
    addr.toNat / kind.getChunkSize.toNat * kind.getChunkSize.toNat := by
  cases kind with
  | page => exact clearLow_toNat addr _ 12 (by decide) rfl
  | largePage => exact clearLow_toNat addr _ 20 (by decide) rfl

/-- A sum that stays below `UINTPTR_MAX` is exact. -/
theorem add_toNat {a b : UInt32} (small : a < uintptrMax - b) :
    (a + b).toNat = a.toNat + b.toNat := by
  have below := UInt32.lt_iff_toNat_lt.mp small
  rw [UInt32.toNat_sub_of_le _ _ (UInt32.le_iff_toNat_le.mpr (Nat.le_of_lt_succ b.toNat_lt))] at below
  have limit : uintptrMax.toNat = 2 ^ 32 - 1 := rfl
  rw [UInt32.toNat_add]
  omega

/-- The overflow check of `operator++`. -/
theorem increment_check (kind : Class) (addr : UInt32) :
    addr ≤ uintptrMax - kind.getChunkSize ↔ addr.toNat + kind.getChunkSize.toNat < wordLimit := by
  rw [UInt32.le_iff_toNat_le]
  unfold wordLimit
  cases kind with
  | page =>
    have limit : (uintptrMax - Class.page.getChunkSize).toNat = 0xFFFFEFFF := rfl
    have chunk : Class.page.getChunkSize.toNat = 0x1000 := rfl
    omega
  | largePage =>
    have limit : (uintptrMax - Class.largePage.getChunkSize).toNat = 0xFFEFFFFF := rfl
    have chunk : Class.largePage.getChunkSize.toNat = 0x100000 := rfl
    omega

/-- An aligned object below the topmost one has room for another chunk. -/
theorem Object.Aligned.room (aligned : o.Aligned) (lower : ¬ o.Topmost) :
    o.addr.toNat + o.kind.getChunkSize.toNat < wordLimit := by
  have word := o.addr.toNat_lt
  unfold Object.Topmost at lower
  unfold Object.Aligned at aligned
  unfold wordLimit at *
  cases kind : o.kind with
  | page =>
    have chunk : Class.page.getChunkSize.toNat = 0x1000 := rfl
    rw [kind, chunk] at aligned lower
    omega
  | largePage =>
    have chunk : Class.largePage.getChunkSize.toNat = 0x100000 := rfl
    rw [kind, chunk] at aligned lower
    omega

/-- The sum of `operator++` is exact where it is used. -/
theorem chunk_toNat {kind : Class} {addr : UInt32}
    (room : addr.toNat + kind.getChunkSize.toNat < wordLimit) :
    (addr + kind.getChunkSize).toNat = addr.toNat + kind.getChunkSize.toNat := by
  rw [UInt32.toNat_add]
  exact Nat.mod_eq_of_lt room

/-! ## Members -/

/-- A constructed object holds a multiple of 4 KiB, whatever its class. -/
theorem construct_aligned_iff (kind : Class) (virtAddr : UInt32) :
    (construct kind virtAddr).Aligned ↔
      (kind = .largePage → virtAddr.toNat % 0x100000 < 0x1000) := by
  have held : (construct kind virtAddr).addr.toNat = virtAddr.toNat / 0x1000 * 0x1000 :=
    cutOff_toNat .page virtAddr
  unfold Object.Aligned
  rw [held]
  cases kind with
  | page =>
    exact iff_of_true (Nat.dvd_mul_left _ _) fun wrong => Class.noConfusion wrong
  | largePage =>
    show 0x100000 ∣ _ ↔ _
    rw [eq_self_iff_true, true_imp_iff]
    omega

/-- `set` goes by the class of the object. -/
theorem set_aligned (o : Object) (newAddr : UInt32) : (o.set newAddr).Aligned := by
  unfold Object.Aligned
  show o.kind.getChunkSize.toNat ∣ (cutOff o.kind.getChunkSize newAddr).toNat
  rw [cutOff_toNat]
  exact Nat.dvd_mul_left _ _

/-- Incrementing moves an object by a chunk, unless it is the topmost one. -/
theorem increment_aligned_iff (aligned : o.Aligned) : o.increment.Aligned ↔ ¬ o.Topmost := by
  unfold Object.increment
  by_cases room : o.addr.toNat + o.kind.getChunkSize.toNat < wordLimit
  · rw [if_pos ((increment_check _ _).mpr room)]
    have lower : ¬ o.Topmost := Nat.ne_of_lt room
    rw [iff_true_right lower]
    unfold Object.Aligned
    show o.kind.getChunkSize.toNat ∣ (o.addr + o.kind.getChunkSize).toNat
    rw [chunk_toNat room]
    exact (Nat.dvd_add_left (Nat.dvd_refl _)).mpr aligned
  · rw [if_neg (mt (increment_check _ _).mp room)]
    have topmost : o.Topmost := by
      by_contra lower
      exact room (aligned.room lower)
    rw [iff_false_right (not_not_intro topmost)]
    unfold Object.Aligned
    cases o.kind <;> decide

/-- Decrementing moves an object by a chunk, or to the first address. -/
theorem decrement_aligned (aligned : o.Aligned) : o.decrement.Aligned := by
  unfold Object.decrement
  by_cases room : o.kind.getChunkSize ≤ o.addr
  · rw [if_pos room]
    unfold Object.Aligned
    show o.kind.getChunkSize.toNat ∣ (o.addr - o.kind.getChunkSize).toNat
    rw [UInt32.toNat_sub_of_le _ _ room]
    exact Nat.dvd_sub aligned (Nat.dvd_refl _)
  · rw [if_neg room]
    exact Nat.dvd_zero _

/-- A sum has the alignment that the right operand has. -/
theorem addAssign_aligned_iff (aligned : o.Aligned) (other : rhs.Aligned)
    (returns : o.addAssign rhs = .ok after) :
    after.Aligned ↔ (o.kind = .largePage → 0x100000 ∣ rhs.addr.toNat) := by
  unfold Object.addAssign at returns
  by_cases small : o.addr < uintptrMax - rhs.addr
  · rw [if_pos small] at returns
    obtain rfl := Except.ok.inj returns
    have pages := page_dvd_of_aligned other
    unfold Object.Aligned at aligned ⊢
    show o.kind.getChunkSize.toNat ∣ (o.addr + rhs.addr).toNat ↔ _
    rw [add_toNat small, Nat.dvd_add_right aligned]
    cases o.kind with
    | page => exact iff_of_true pages fun wrong => Class.noConfusion wrong
    | largePage => exact ⟨fun multiple _ => multiple, fun multiple => multiple rfl⟩
  · rw [if_neg small] at returns
    cases returns

/-- So has a difference. -/
theorem subAssign_aligned_iff (aligned : o.Aligned) (other : rhs.Aligned)
    (returns : o.subAssign rhs = .ok after) :
    after.Aligned ↔ (o.kind = .largePage → 0x100000 ∣ rhs.addr.toNat) := by
  unfold Object.subAssign at returns
  by_cases ordered : rhs.addr ≤ o.addr
  · rw [if_pos ordered] at returns
    obtain rfl := Except.ok.inj returns
    have pages := page_dvd_of_aligned other
    unfold Object.Aligned at aligned ⊢
    show o.kind.getChunkSize.toNat ∣ (o.addr - rhs.addr).toNat ↔ _
    rw [UInt32.toNat_sub_of_le _ _ ordered,
      Nat.dvd_sub_iff_right (UInt32.le_iff_toNat_le.mp ordered) aligned]
    cases o.kind with
    | page => exact iff_of_true pages fun wrong => Class.noConfusion wrong
    | largePage => exact ⟨fun multiple _ => multiple, fun multiple => multiple rfl⟩
  · rw [if_neg ordered] at returns
    cases returns

/-- The `page` made from an object holds a multiple of 4 KiB. -/
theorem slice_aligned (aligned : o.Aligned) : o.slice.Aligned := by
  show 0x1000 ∣ o.addr.toNat
  exact page_dvd_of_aligned aligned

/-- Below the topmost one `--` undoes `++`. -/
theorem increment_decrement (aligned : o.Aligned) (lower : ¬ o.Topmost) :
    o.increment.decrement = o := by
  have room := aligned.room lower
  have moved : o.increment = { o with addr := o.addr + o.kind.getChunkSize } :=
    if_pos ((increment_check _ _).mpr room)
  have back : o.kind.getChunkSize ≤ o.addr + o.kind.getChunkSize := by
    rw [UInt32.le_iff_toNat_le, chunk_toNat room]
    exact Nat.le_add_left _ _
  rw [moved]
  unfold Object.decrement
  rw [if_pos back, UInt32.add_sub_cancel]

/-- What an object promises comes down to its address. -/
theorem sound_iff : o.Sound ↔ o.Aligned :=
  ⟨Object.Sound.aligned, fun aligned => ⟨aligned, increment_decrement aligned⟩⟩

/-! ## The same pages as words -/

/-- A `page` made from an address is the page of the address. -/
theorem construct_pageFloor (kind : Class) (virtAddr : UInt32) :
    (construct kind virtAddr).addr.toNat = pageFloor virtAddr.toNat :=
  pageFloor_eq_mask virtAddr

/-- `operator+=` adds as the sum of two words that are pages does. -/
theorem addAssign_pageAdd (o rhs : Object) :
    (o.addAssign rhs).map (fun sum => sum.addr.toNat) = pageAdd o.addr.toNat rhs.addr.toNat := by
  have bound := rhs.addr.toNat_lt
  have check : o.addr < uintptrMax - rhs.addr ↔
      o.addr.toNat < FelineOS.uintptrMax - rhs.addr.toNat := by
    rw [UInt32.lt_iff_toNat_lt,
      UInt32.toNat_sub_of_le _ _ (UInt32.le_iff_toNat_le.mpr (Nat.le_of_lt_succ bound))]
    rfl
  unfold Object.addAssign pageAdd
  by_cases small : o.addr < uintptrMax - rhs.addr
  · rw [if_pos small, if_pos (check.mp small)]
    exact congrArg Except.ok (add_toNat small)
  · rw [if_neg small, if_neg (mt check.mpr small)]
    rfl

/-- `operator-=` subtracts as the difference of two words that are pages does. -/
theorem subAssign_pageSub (o rhs : Object) :
    (o.subAssign rhs).map (fun difference => difference.addr.toNat) =
      pageSub o.addr.toNat rhs.addr.toNat := by
  unfold Object.subAssign pageSub
  by_cases ordered : rhs.addr ≤ o.addr
  · rw [if_pos ordered, if_pos (UInt32.le_iff_toNat_le.mp ordered)]
    exact congrArg Except.ok (UInt32.toNat_sub_of_le _ _ ordered)
  · rw [if_neg ordered, if_neg (mt UInt32.le_iff_toNat_le.mpr ordered)]
    rfl

/-! ## Calls -/

/-- The object with a number is one of the objects. -/
theorem fetch_some {i : Nat} (found : fetch objects i = .ok o) : objects[i]? = some o := by
  unfold fetch at found
  cases slot : objects[i]? with
  | none =>
    rw [slot] at found
    cases found
  | some other =>
    rw [slot] at found
    rw [Except.ok.inj found]

/-- A new object joins sound ones. -/
theorem sound_append_iff (sound : ∀ o ∈ objects, o.Sound) :
    (∀ p ∈ objects ++ [o], p.Sound) ↔ o.Aligned := by
  rw [← sound_iff]
  constructor
  · intro all
    exact all o (List.mem_append_right _ (List.mem_singleton_self o))
  · intro new p member
    rcases List.mem_append.mp member with old | added
    · exact sound p old
    · exact List.mem_singleton.mp added ▸ new

/-- An object among sound ones is assigned to. -/
theorem sound_set_iff {i : Nat} {old : Object} (sound : ∀ o ∈ objects, o.Sound)
    (found : objects[i]? = some old) : (∀ p ∈ objects.set i o, p.Sound) ↔ o.Aligned := by
  rw [← sound_iff]
  constructor
  · intro all
    exact all o (List.mem_set (List.getElem?_eq_some_iff.mp found).1 o)
  · intro new p member
    rcases List.mem_or_eq_of_mem_set member with kept | assigned
    · exact sound p kept
    · exact assigned ▸ new

/-- An assignment that keeps the objects sound, with a copy taken before it. -/
theorem sound_set_append_iff {i : Nat} {old : Object} (sound : ∀ o ∈ objects, o.Sound)
    (found : objects[i]? = some old) :
    (∀ p ∈ objects.set i o ++ [old.slice], p.Sound) ↔ o.Aligned := by
  have copy := slice_aligned (sound old (List.mem_of_getElem? found)).aligned
  rw [← sound_set_iff sound found]
  constructor
  · intro all p member
    exact all p (List.mem_append_left _ member)
  · intro all
    exact (sound_append_iff all).mpr copy

/-- A call that returns keeps the objects sound exactly when it is safe. -/
theorem exec_sound_iff (sound : ∀ o ∈ objects, o.Sound) (returns : exec objects call = .ok result) :
    (∀ o ∈ result, o.Sound) ↔ call.Safe objects := by
  have aligned {o : Object} {i : Nat} (found : objects[i]? = some o) : o.Aligned :=
    (sound o (List.mem_of_getElem? found)).aligned
  cases call with
  | construct kind virtAddr =>
    obtain rfl := Except.ok.inj returns
    rw [sound_append_iff sound, construct_aligned_iff]
    cases kind with
    | page => exact iff_of_true (fun wrong => Class.noConfusion wrong) trivial
    | largePage => exact ⟨fun small => small rfl, fun small _ => small⟩
  | set i newAddr =>
    obtain ⟨o, found, rest⟩ := of_bind_ok returns
    obtain rfl := Except.ok.inj rest
    rw [sound_set_iff sound (fetch_some found)]
    exact iff_of_true (set_aligned o newAddr) trivial
  | preIncrement i =>
    obtain ⟨o, found, rest⟩ := of_bind_ok returns
    obtain rfl := Except.ok.inj rest
    have slot := fetch_some found
    rw [sound_set_iff sound slot, increment_aligned_iff (aligned slot)]
    simp [Call.Safe, slot]
  | postIncrement i =>
    obtain ⟨o, found, rest⟩ := of_bind_ok returns
    obtain rfl := Except.ok.inj rest
    have slot := fetch_some found
    rw [sound_set_append_iff sound slot, increment_aligned_iff (aligned slot)]
    simp [Call.Safe, slot]
  | preDecrement i =>
    obtain ⟨o, found, rest⟩ := of_bind_ok returns
    obtain rfl := Except.ok.inj rest
    have slot := fetch_some found
    rw [sound_set_iff sound slot]
    exact iff_of_true (decrement_aligned (aligned slot)) trivial
  | postDecrement i =>
    obtain ⟨o, found, rest⟩ := of_bind_ok returns
    obtain rfl := Except.ok.inj rest
    have slot := fetch_some found
    rw [sound_set_append_iff sound slot]
    exact iff_of_true (decrement_aligned (aligned slot)) trivial
  | addAssign i j =>
    obtain ⟨o, found, rest⟩ := of_bind_ok returns
    obtain ⟨rhs, other, rest⟩ := of_bind_ok rest
    obtain ⟨after, sum, rest⟩ := of_bind_ok rest
    obtain rfl := Except.ok.inj rest
    have slot := fetch_some found
    have slotRhs := fetch_some other
    rw [sound_set_iff sound slot, addAssign_aligned_iff (aligned slot) (aligned slotRhs) sum]
    simp [Call.Safe, slot, slotRhs]
  | subAssign i j =>
    obtain ⟨o, found, rest⟩ := of_bind_ok returns
    obtain ⟨rhs, other, rest⟩ := of_bind_ok rest
    obtain ⟨after, difference, rest⟩ := of_bind_ok rest
    obtain rfl := Except.ok.inj rest
    have slot := fetch_some found
    have slotRhs := fetch_some other
    rw [sound_set_iff sound slot, subAssign_aligned_iff (aligned slot) (aligned slotRhs) difference]
    simp [Call.Safe, slot, slotRhs]
  | add i j =>
    obtain ⟨lhs, found, rest⟩ := of_bind_ok returns
    obtain ⟨rhs, other, rest⟩ := of_bind_ok rest
    obtain ⟨after, sum, rest⟩ := of_bind_ok rest
    obtain rfl := Except.ok.inj rest
    rw [sound_append_iff sound, addAssign_aligned_iff (slice_aligned (aligned (fetch_some found)))
      (aligned (fetch_some other)) sum]
    exact iff_of_true (fun wrong => Class.noConfusion wrong) trivial
  | sub i j =>
    obtain ⟨lhs, found, rest⟩ := of_bind_ok returns
    obtain ⟨rhs, other, rest⟩ := of_bind_ok rest
    obtain ⟨after, difference, rest⟩ := of_bind_ok rest
    obtain rfl := Except.ok.inj rest
    rw [sound_append_iff sound, subAssign_aligned_iff (slice_aligned (aligned (fetch_some found)))
      (aligned (fetch_some other)) difference]
    exact iff_of_true (fun wrong => Class.noConfusion wrong) trivial

/-! ## Runs -/

/-- The objects that a run starts from are sound. -/
theorem Represents.sound {calls : List Call} (run : Represents objects calls) :
    ∀ o ∈ objects, o.Sound := by
  cases calls with
  | nil => exact run
  | cons call calls => exact run.1

/-- From sound objects a run keeps them sound exactly when all its calls are safe. -/
theorem represents_iff_safeRun (sound : ∀ o ∈ objects, o.Sound) (calls : List Call) :
    Represents objects calls ↔ SafeRun objects calls := by
  induction calls generalizing objects with
  | nil => exact iff_of_true sound trivial
  | cons call calls ih =>
    constructor
    · rintro ⟨-, run⟩ after returns
      have rest := run after returns
      have kept := rest.sound
      exact ⟨(exec_sound_iff sound returns).mp kept, (ih kept).mp rest⟩
    · intro safe
      refine ⟨sound, fun after returns => ?_⟩
      obtain ⟨here, rest⟩ := safe after returns
      exact (ih ((exec_sound_iff sound returns).mpr here)).mpr rest

/-- No object is there before the first is made. -/
theorem sound_nil : ∀ o ∈ ([] : List Object), o.Sound := fun _ member => absurd member List.not_mem_nil

/-- Every object of every state of a run holds a multiple of its chunk size, with `--` undoing
`++`, exactly when the calls of the run are safe. -/
theorem pages_represent_iff (calls : List Call) : Represents [] calls ↔ SafeRun [] calls :=
  represents_iff_safeRun sound_nil calls

/-- A `largePage` made inside its MiB, and a topmost `page` incremented. -/
theorem represents_broken : ¬ Represents [] [.construct .largePage 0x1000] ∧
    ¬ Represents [] [.construct .page 0xFFFFF000, .preIncrement 0] := by
  constructor
  · rw [represents_iff_safeRun sound_nil]
    intro safe
    have small : (0x1000 : UInt32).toNat % 0x100000 < 0x1000 := (safe _ rfl).1
    exact absurd small (by decide)
  · rw [represents_iff_safeRun sound_nil]
    intro safe
    have lower := ((safe _ rfl).2 _ rfl).1 ⟨.page, 0xFFFFF000⟩ rfl
    exact lower rfl

end FelineOS.PageObject
