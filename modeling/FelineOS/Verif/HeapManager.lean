import FelineOS.Kernel.KernelHeap
import FelineOS.Verif.Heap

/-!
# The heap over a manager and over answers

A `malloc` over a manager with a state does what the same `malloc` does over answers that were
given beforehand (`mallocOver_sim`): the number of blocks obtained so far says which answer is due.
`Supplies` is what the manager keeps across a request; with it the answers are fresh, and the
results about the heap over fresh answers apply.
-/

namespace FelineOS.Malloc

open Heap

variable {σ : Type} {m : MemManager σ} {h h' : Heap} {s s' : σ} {size fuel hdr ptr addr : Nat}
  {calls calls' : MemCalls} {Fresh : Heap → Nat → Nat → Prop} {I : Heap → σ → Prop}

/-! ## Books -/

namespace Heap

/-- A split leaves the books. -/
theorem splitHeader_books {split : Nat} (returns : h.splitHeader hdr split = .ok h') :
    SameBooks h h' := by
  unfold splitHeader at returns
  by_cases used : (h.mem hdr).inUse = true
  · simp [used] at returns
  · by_cases short : (h.mem hdr).len < wrap (roundToMultipleOf split headerSize + headerSize)
    · simp [used, short] at returns
    · simp only [used, short, Bool.false_eq_true, if_false, Except.ok.injEq] at returns
      rw [← returns]
      exact ((sameBooks_modify _ _).trans (sameBooks_modifyAt _ _)).trans (sameBooks_modify _ _)

/-- The end of `malloc` leaves the books. -/
theorem take_books (returns : h.take size hdr = .ok (ptr, h')) : SameBooks h h' := by
  unfold take at returns
  by_cases large : (h.mem hdr).len > wrap (size + headerSize)
  · rw [if_pos large] at returns
    obtain ⟨h₁, splits, marks⟩ := of_bind_ok returns
    obtain ⟨-, last⟩ := assert_ok marks
    cases last
    exact (splitHeader_books splits).trans (sameBooks_modify _ _)
  · rw [if_neg large, ok_bind] at returns
    obtain ⟨-, last⟩ := assert_ok returns
    cases last
    exact sameBooks_modify _ _

/-- `allocate_more_mem` asks once and enters the answer into the books. -/
theorem allocateMoreMem_books (returns : h.allocateMoreMem calls size = .ok (hdr, h')) :
    calls.getMem h (roundToMultipleOf (wrap (size + headerSize)) defaultMemreserveSize) =
      some hdr ∧
    h'.obtained = (hdr, roundToMultipleOf (wrap (size + headerSize)) defaultMemreserveSize) ::
      h.obtained ∧ h'.returned = h.returned := by
  unfold allocateMoreMem at returns
  cases got : calls.getMem h
      (roundToMultipleOf (wrap (size + headerSize)) defaultMemreserveSize) with
  | none => simp [got] at returns
  | some addr =>
    simp only [got] at returns
    split at returns
    · obtain ⟨h₁, splits, last⟩ := of_bind_ok returns
      cases last
      have books := splitHeader_books splits
      exact ⟨rfl, books.obtained, books.returned⟩
    · cases returns
      exact ⟨rfl, rfl, rfl⟩

/-- The merge with the block behind leaves the books. -/
theorem mergeNext_books (h : Heap) (hdr : Nat) : SameBooks h (h.mergeNext hdr) := by
  unfold mergeNext
  split
  · exact .refl h
  · split
    · exact ((sameBooks_modifyAt _ _).trans (sameBooks_modify _ _)).trans (sameBooks_modify _ _)
    · exact .refl h

/-- The merge with the block before leaves the books. -/
theorem mergePrev_books (h : Heap) (hdr : Nat) : SameBooks h (h.mergePrev hdr).2 := by
  unfold mergePrev
  split
  · exact .refl h
  · split
    · exact ((sameBooks_modify _ _).trans (sameBooks_modify _ _)).trans (sameBooks_modifyAt _ _)
    · exact .refl h

/-- What a call of `free` enters into the books: nothing, or one block that `free_mem` took. -/
def Takes (calls : MemCalls) (h h' : Heap) : Prop :=
  h'.obtained = h.obtained ∧ (h'.returned = h.returned ∨ ∃ g block,
    calls.freeMem g block.1 block.2 = true ∧ h'.returned = block :: h.returned)

/-- What stands in the books before and after decides. -/
theorem Takes.congr {g g' : Heap} (takes : Takes calls h h') (before : h.obtained = g.obtained)
    (front : h.returned = g.returned) (after : h' = g') : Takes calls g g' := by
  subst after
  obtain ⟨obtained, returned⟩ := takes
  refine ⟨obtained.trans before, ?_⟩
  rw [← front]
  exact returned

/-- `return_mem` enters the block it gives back. -/
theorem returnMem_takes (returns : h.returnMem calls hdr = .ok h') : Takes calls h h' := by
  unfold returnMem at returns
  by_cases done : calls.freeMem h hdr (wrap ((h.mem hdr).len + headerSize)) = true
  · simp only [done, if_true, Except.ok.injEq] at returns
    subst returns
    exact ⟨rfl, Or.inr ⟨h, (hdr, _), done, rfl⟩⟩
  · simp [done] at returns

/-- The head of the list is not in the books. -/
theorem headed_books (c : Prop) [Decidable c] (first : Option Nat) :
    (if c then { h with firstHeader := first } else h).obtained = h.obtained ∧
      (if c then { h with firstHeader := first } else h).returned = h.returned := by
  by_cases holds : c
  · rw [if_pos holds]
    exact ⟨rfl, rfl⟩
  · rw [if_neg holds]
    exact ⟨rfl, rfl⟩

/-- The end of `free` gives back one block at most. -/
theorem returnPages_takes (returns : h.returnPages calls hdr = .ok h') : Takes calls h h' := by
  unfold returnPages at returns
  split at returns
  · split at returns
    · have books : SameBooks h (h.unlink hdr) :=
        (sameBooks_modifyAt _ _).trans (sameBooks_modifyAt _ _)
      exact (returnMem_takes returns).congr ((headed_books _ _).1.trans books.obtained)
        ((headed_books _ _).2.trans books.returned) rfl
    · refine (returnMem_takes returns).congr ((headed_books _ _).1.trans ?_)
        ((headed_books _ _).2.trans ?_) rfl
      · exact (sameBooks_modifyAt _ _).obtained.trans (sameBooks_modifyAt _ _).obtained
      · exact (sameBooks_modifyAt _ _).returned.trans (sameBooks_modifyAt _ _).returned
  · cases returns
    exact ⟨rfl, Or.inl rfl⟩

/-- `free` gives back one block at most. -/
theorem free_takes (returns : h.free calls fuel ptr = .ok h') : Takes calls h h' := by
  unfold free at returns
  by_cases null : ptr = 0
  · rw [if_pos null] at returns
    cases returns
    exact ⟨rfl, Or.inl rfl⟩
  · rw [if_neg null] at returns
    cases head : h.firstHeader with
    | none => simp [head] at returns
    | some first =>
      simp only [head] at returns
      obtain ⟨hdr, -, returns⟩ := of_bind_ok returns
      by_cases other : wrap (hdr + headerSize) ≠ ptr
      · simp [other] at returns
      · rw [if_neg other] at returns
        by_cases unused : (!(h.mem hdr).inUse) = true
        · simp [unused] at returns
        · rw [if_neg unused] at returns
          refine (returnPages_takes returns).congr ((mergePrev_books _ _).obtained.trans ?_)
            ((mergePrev_books _ _).returned.trans ?_) rfl
          · exact (mergeNext_books _ _).obtained
          · exact (mergeNext_books _ _).returned

/-- Only the answer to its request decides what `allocate_more_mem` does. -/
theorem allocateMoreMem_congr
    (same : calls'.getMem h (roundToMultipleOf (wrap (size + headerSize)) defaultMemreserveSize) =
      calls.getMem h (roundToMultipleOf (wrap (size + headerSize)) defaultMemreserveSize)) :
    h.allocateMoreMem calls' size = h.allocateMoreMem calls size := by
  unfold allocateMoreMem
  simp only [same]

end Heap

/-! ## Answers given beforehand -/

open Classical in
/-- Answers by the number of blocks obtained before; one that is not fresh is withheld. -/
noncomputable def replies (Fresh : Heap → Nat → Nat → Prop) (f : Nat → Option Nat) : MemCalls where
  getMem h bytes := (f h.obtained.length).filter fun addr => decide (Fresh h bytes addr)
  freeMem _ _ _ := false

/-- A fresh answer is given. -/
theorem replies_getMem {f : Nat → Option Nat} {bytes : Nat} (due : f h.obtained.length = some addr)
    (fresh : Fresh h bytes addr) : (replies Fresh f).getMem h bytes = some addr := by
  simp [replies, due, fresh]

/-- What the manager keeps across the requests of one length. -/
structure Supplies (m : MemManager σ) (I : Heap → σ → Prop) (Fresh : Heap → Nat → Nat → Prop)
    (bytes : Nat) : Prop where
  /-- Only the books count. -/
  books : ∀ {h h' : Heap} {s : σ}, I h s → h'.obtained = h.obtained → h'.returned = h.returned →
    I h' s
  /-- What the manager hands out is fresh. -/
  fresh : ∀ {h : Heap} {s s' : σ} {addr : Nat}, I h s → m.getMem s bytes = .ok (some addr, s') →
    Fresh h bytes addr
  /-- The manager is as before once it is in the books. -/
  grown : ∀ {h h' : Heap} {s s' : σ} {addr : Nat}, I h s →
    m.getMem s bytes = .ok (some addr, s') → h'.obtained = (addr, bytes) :: h.obtained →
    h'.returned = h.returned → I h' s'

/-- A part of a call over the manager, as the same part over answers. -/
structure Simulated (I : Heap → σ → Prop) (Fresh : Heap → Nat → Nat → Prop) (h h' : Heap) (s' : σ)
    (part : MemCalls → Prop) : Prop where
  /-- The manager is as before. -/
  kept : I h' s'
  /-- The books grow. -/
  later : h.obtained.length ≤ h'.obtained.length
  /-- Some answers from here on do. -/
  answered : ∃ f : Nat → Option Nat, ∀ g : Nat → Option Nat,
    (∀ n, h.obtained.length ≤ n → n < h'.obtained.length → g n = f n) → part (replies Fresh g)

section Requests

variable (supplies : Supplies m I Fresh
  (roundToMultipleOf (wrap (size + headerSize)) defaultMemreserveSize))
include supplies

/-- One request. -/
theorem allocateMoreMemOver_sim (kept : I h s)
    (returns : h.allocateMoreMemOver m s size = .ok (hdr, h', s')) :
    Simulated I Fresh h h' s' fun calls => h.allocateMoreMem calls size = .ok (hdr, h') := by
  unfold allocateMoreMemOver at returns
  obtain ⟨⟨answer, s₁⟩, asks, returns⟩ := of_bind_ok returns
  obtain ⟨⟨hdr₁, h₁⟩, reserves, last⟩ := of_bind_ok returns
  cases last
  obtain ⟨given, obtained, returned⟩ := allocateMoreMem_books reserves
  simp only [answers] at given
  subst given
  refine ⟨supplies.grown kept asks obtained returned, by rw [obtained]; simp, fun _ => some hdr, ?_⟩
  intro g same
  have due : g h.obtained.length = some hdr := same _ (Nat.le_refl _) (by rw [obtained]; simp)
  rw [← reserves]
  apply allocateMoreMem_congr
  rw [replies_getMem due (supplies.fresh kept asks)]
  rfl

/-- The loop of `malloc`. -/
theorem searchOver_sim {start : Nat} (kept : I h s)
    (returns : searchOver m size fuel h s start = .ok (hdr, h', s')) :
    Simulated I Fresh h h' s' fun calls => search calls size fuel h start = .ok (hdr, h') := by
  induction fuel generalizing h s start with
  | zero => simp [searchOver] at returns
  | succ fuel ih =>
    rw [searchOver] at returns
    by_cases rejects : ((h.mem start).inUse || decide ((h.mem start).len < size)) = true
    · rw [if_pos rejects] at returns
      cases link : (h.mem start).next with
      | some next =>
        simp only [link] at returns
        obtain ⟨last, later, f, answered⟩ := ih kept returns
        refine ⟨last, later, f, fun g same => ?_⟩
        rw [search, if_pos rejects]
        simp only [link]
        exact answered g same
      | none =>
        simp only [link] at returns
        obtain ⟨⟨next, h₁, s₁⟩, reserves, searches⟩ := of_bind_ok returns
        obtain ⟨kept₁, later₁, f₁, answered₁⟩ := allocateMoreMemOver_sim supplies kept reserves
        have linked : I (h₁.linkBehind start next) s₁ := supplies.books kept₁ rfl rfl
        obtain ⟨last, later, f, answered⟩ := ih linked searches
        have more : h₁.obtained.length ≤ h'.obtained.length := later
        refine ⟨last, Nat.le_trans later₁ more,
          fun n => if n < h₁.obtained.length then f₁ n else f n, fun g same => ?_⟩
        have front : h.allocateMoreMem (replies Fresh g) size = .ok (next, h₁) := by
          apply answered₁
          intro n low high
          rw [same n low (Nat.lt_of_lt_of_le high more)]
          exact if_pos high
        have rear : search (replies Fresh g) size fuel (h₁.linkBehind start next) next =
            .ok (hdr, h') := by
          apply answered
          intro n low high
          rw [same n (Nat.le_trans later₁ low) high]
          exact if_neg (Nat.not_lt.mpr low)
        rw [search, if_pos rejects]
        simp only [link, front, ok_bind]
        exact rear
    · rw [if_neg rejects] at returns
      cases returns
      refine ⟨kept, Nat.le_refl _, fun _ => none, fun g _ => ?_⟩
      rw [search, if_neg rejects]

/-- `malloc`. -/
theorem mallocOver_sim (kept : I h s)
    (returns : h.mallocOver m s fuel size = .ok (ptr, h', s')) :
    I h' s' ∧ ∃ f, h.malloc (replies Fresh f) fuel size = .ok (ptr, h') := by
  unfold mallocOver at returns
  obtain ⟨⟨first, h₁, s₁⟩, starts, returns⟩ := of_bind_ok returns
  obtain ⟨⟨hdr, h₂, s₂⟩, searches, returns⟩ := of_bind_ok returns
  obtain ⟨⟨ptr', h₃⟩, takes, last⟩ := of_bind_ok returns
  cases last
  have books := take_books takes
  have started : Simulated I Fresh h h₁ s₁ fun calls => h.ensureFirst calls size =
      .ok (first, h₁) := by
    unfold ensureFirstOver at starts
    unfold ensureFirst
    cases head : h.firstHeader with
    | some start =>
      simp only [head] at starts
      cases starts
      exact ⟨kept, Nat.le_refl _, fun _ => none, fun _ _ => rfl⟩
    | none =>
      simp only [head] at starts
      obtain ⟨⟨start, h₄, s₄⟩, reserves, last⟩ := of_bind_ok starts
      cases last
      obtain ⟨kept₄, later, f, answered⟩ := allocateMoreMemOver_sim supplies kept reserves
      refine ⟨supplies.books kept₄ rfl rfl, later, f, fun g same => ?_⟩
      simp only [answered g same, ok_bind]
  obtain ⟨kept₁, later₁, f₁, answered₁⟩ := started
  obtain ⟨kept₂, later₂, f₂, answered₂⟩ := searchOver_sim supplies kept₁ searches
  refine ⟨supplies.books kept₂ books.obtained books.returned,
    fun n => if n < h₁.obtained.length then f₁ n else f₂ n, ?_⟩
  unfold malloc
  rw [answered₁ _ fun n _ high => if_pos high, ok_bind]
  simp only
  rw [answered₂ _ fun n low _ => if_neg (Nat.not_lt.mpr low), ok_bind]
  exact takes

end Requests

/-- `free` over a manager does what it does over the manager's answer, and the manager takes at
most one block back. -/
theorem freeOver_sim (returns : h.freeOver m s fuel ptr = .ok (h', s')) :
    h.free (m.told s) fuel ptr = .ok h' ∧ h'.obtained = h.obtained ∧
      ((h'.returned = h.returned ∧ s' = s) ∨ ∃ block, h'.returned = block :: h.returned ∧
        m.freeMem s block.1 block.2 = .ok (true, s')) := by
  unfold freeOver at returns
  obtain ⟨h₁, frees, returns⟩ := of_bind_ok returns
  obtain ⟨obtained, none | ⟨g, block, done, one⟩⟩ := free_takes frees
  · cases listed : h₁.returned with
    | nil =>
      simp only [listed] at returns
      cases returns
      exact ⟨frees, obtained, Or.inl ⟨none, rfl⟩⟩
    | cons block earlier =>
      simp only [listed] at returns
      rw [if_pos (by rw [← none, listed]; simp)] at returns
      cases returns
      exact ⟨frees, obtained, Or.inl ⟨none, rfl⟩⟩
  · simp only [one, Nat.lt_irrefl, if_false] at returns
    obtain ⟨⟨taken, s₁⟩, gives, last⟩ := of_bind_ok returns
    cases last
    simp only [MemManager.told, gives] at done
    subst done
    exact ⟨frees, obtained, Or.inr ⟨block, one, gives⟩⟩

/-! ## Calls that return -/

/-- The search never takes anything out of the books. -/
theorem search_grows {start : Nat} (returns : search calls size fuel h start = .ok (hdr, h')) :
    h.obtained.length ≤ h'.obtained.length := by
  induction fuel generalizing h start with
  | zero => simp [search] at returns
  | succ fuel ih =>
    rw [search] at returns
    by_cases rejects : ((h.mem start).inUse || decide ((h.mem start).len < size)) = true
    · rw [if_pos rejects] at returns
      cases link : (h.mem start).next with
      | some next =>
        simp only [link] at returns
        exact ih returns
      | none =>
        simp only [link] at returns
        obtain ⟨⟨next, h₁⟩, reserves, searches⟩ := of_bind_ok returns
        obtain ⟨-, obtained, -⟩ := allocateMoreMem_books reserves
        have more : (h₁.linkBehind start next).obtained.length ≤ h'.obtained.length := ih searches
        have linked : (h₁.linkBehind start next).obtained = h₁.obtained := rfl
        rw [linked, obtained, List.length_cons] at more
        exact Nat.le_of_succ_le more
    · rw [if_neg rejects] at returns
      cases returns
      exact Nat.le_refl _

/-- A search that asks for nothing leaves the manager alone. -/
theorem searchOver_quiet (s : σ) {start : Nat}
    (returns : search calls size fuel h start = .ok (hdr, h'))
    (quiet : h'.obtained.length ≤ h.obtained.length) :
    searchOver m size fuel h s start = .ok (hdr, h', s) := by
  induction fuel generalizing h start with
  | zero => simp [search] at returns
  | succ fuel ih =>
    rw [search] at returns
    rw [searchOver]
    by_cases rejects : ((h.mem start).inUse || decide ((h.mem start).len < size)) = true
    · rw [if_pos rejects] at returns ⊢
      cases link : (h.mem start).next with
      | some next =>
        simp only [link] at returns ⊢
        exact ih returns quiet
      | none =>
        simp only [link] at returns
        obtain ⟨⟨next, h₁⟩, reserves, searches⟩ := of_bind_ok returns
        obtain ⟨-, obtained, -⟩ := allocateMoreMem_books reserves
        have more : (h₁.linkBehind start next).obtained.length ≤ h'.obtained.length :=
          search_grows searches
        have linked : (h₁.linkBehind start next).obtained = h₁.obtained := rfl
        rw [linked, obtained, List.length_cons] at more
        omega
    · rw [if_neg rejects] at returns ⊢
      cases returns
      rfl

section Supply

variable (asks : m.getMem s (roundToMultipleOf (wrap (size + headerSize)) defaultMemreserveSize) =
    .ok (some addr, s'))
  (told : calls.getMem h (roundToMultipleOf (wrap (size + headerSize)) defaultMemreserveSize) =
    some addr)
include asks told

/-- A request that the manager answers. -/
theorem allocateMoreMemOver_told (reserves : h.allocateMoreMem calls size = .ok (hdr, h')) :
    h.allocateMoreMemOver m s size = .ok (hdr, h', s') := by
  unfold allocateMoreMemOver
  rw [asks, ok_bind]
  have same : h.allocateMoreMem (answers (some addr)) size = .ok (hdr, h') := by
    rw [← reserves]
    apply allocateMoreMem_congr
    rw [told]
    rfl
  simp only [same, ok_bind]
  rfl

/-- A search that asks once gets what it asks for. -/
theorem searchOver_once {start : Nat}
    (returns : search calls size fuel h start = .ok (hdr, h'))
    (once : h'.obtained.length ≤ h.obtained.length + 1) :
    ∃ t, searchOver m size fuel h s start = .ok (hdr, h', t) := by
  induction fuel generalizing start with
  | zero => simp [search] at returns
  | succ fuel ih =>
    rw [search] at returns
    rw [searchOver]
    by_cases rejects : ((h.mem start).inUse || decide ((h.mem start).len < size)) = true
    · rw [if_pos rejects] at returns ⊢
      cases link : (h.mem start).next with
      | some next =>
        simp only [link] at returns ⊢
        exact ih returns
      | none =>
        simp only [link] at returns ⊢
        obtain ⟨⟨next, h₁⟩, reserves, searches⟩ := of_bind_ok returns
        obtain ⟨-, obtained, -⟩ := allocateMoreMem_books reserves
        have quiet : h'.obtained.length ≤ (h₁.linkBehind start next).obtained.length := by
          show h'.obtained.length ≤ h₁.obtained.length
          rw [obtained, List.length_cons]
          exact once
        refine ⟨s', ?_⟩
        rw [allocateMoreMemOver_told asks told reserves, ok_bind]
        exact searchOver_quiet s' searches quiet
    · rw [if_neg rejects] at returns ⊢
      cases returns
      exact ⟨s, rfl⟩

/-- A `malloc` that asks once returns over a manager that has what it asks for. -/
theorem mallocOver_once (returns : h.malloc calls fuel size = .ok (ptr, h'))
    (once : h'.obtained.length ≤ h.obtained.length + 1) :
    ∃ t, h.mallocOver m s fuel size = .ok (ptr, h', t) := by
  unfold malloc at returns
  obtain ⟨⟨start, h₁⟩, starts, returns⟩ := of_bind_ok returns
  obtain ⟨⟨hdr, h₂⟩, searches, last⟩ := of_bind_ok returns
  have takes : h₂.take size hdr = .ok (ptr, h') := last
  have books := take_books takes
  rw [books.obtained] at once
  unfold mallocOver
  unfold ensureFirst at starts
  unfold ensureFirstOver
  cases head : h.firstHeader with
  | some first =>
    simp only [head] at starts ⊢
    cases starts
    obtain ⟨t, found⟩ := searchOver_once asks told searches once
    refine ⟨t, ?_⟩
    simp only [ok_bind, found, takes]
    rfl
  | none =>
    simp only [head] at starts ⊢
    obtain ⟨⟨first, h₃⟩, reserves, last⟩ := of_bind_ok starts
    cases last
    obtain ⟨-, obtained, -⟩ := allocateMoreMem_books reserves
    have quiet : h₂.obtained.length ≤ h₃.obtained.length := by
      rw [obtained, List.length_cons]
      exact once
    refine ⟨s', ?_⟩
    rw [allocateMoreMemOver_told asks told reserves]
    simp only [ok_bind]
    rw [searchOver_quiet s' searches quiet, ok_bind]
    simp only [takes, ok_bind]
    rfl

end Supply

/-- A manager that takes back whatever it is given. -/
def accepting : MemCalls := ⟨fun _ _ => none, fun _ _ _ => true⟩

/-- `return_mem` returns over a manager that takes the block back. -/
theorem returnMem_accepted (returns : h.returnMem accepting hdr = .ok h')
    (takes : ∀ block, h'.returned = block :: h.returned →
      ∀ g, calls.freeMem g block.1 block.2 = true) : h.returnMem calls hdr = .ok h' := by
  unfold returnMem at returns ⊢
  simp only [accepting, if_true, Except.ok.injEq] at returns
  subst returns
  rw [if_pos (takes _ rfl h)]

/-- The end of `free` returns over a manager that takes the block back. -/
theorem returnPages_accepted (returns : h.returnPages accepting hdr = .ok h')
    (takes : ∀ block, h'.returned = block :: h.returned →
      ∀ g, calls.freeMem g block.1 block.2 = true) : h.returnPages calls hdr = .ok h' := by
  unfold returnPages at returns ⊢
  split at returns
  · rename_i first
    rw [if_pos first]
    split at returns
    · rename_i whole
      rw [if_pos whole]
      have books : SameBooks h (h.unlink hdr) :=
        (sameBooks_modifyAt _ _).trans (sameBooks_modifyAt _ _)
      refine returnMem_accepted returns fun block same => takes block (same.trans ?_)
      exact congrArg (block :: ·) ((headed_books _ _).2.trans books.returned)
    · rename_i longer
      rw [if_neg longer]
      refine returnMem_accepted returns fun block same => takes block (same.trans ?_)
      refine congrArg (block :: ·) ((headed_books _ _).2.trans ?_)
      exact (sameBooks_modifyAt _ _).returned.trans (sameBooks_modifyAt _ _).returned
  · rename_i inner
    rw [if_neg inner]
    exact returns

/-- The end of `free` returns over a manager that takes everything back. -/
theorem exists_returnPages (h : Heap) (hdr : Nat) : ∃ h', h.returnPages accepting hdr = .ok h' := by
  unfold returnPages
  split
  · split
    · exact ⟨_, rfl⟩
    · exact ⟨_, rfl⟩
  · exact ⟨h, rfl⟩

/-- What `free` does of a pointer that is held, up to the page that it may give back. -/
theorem HeapInv.free_prefix {w : World} {pages : List Page} {block : Nat × Nat}
    (inv : HeapInv w pages) (held : block ∈ w.live) (enough : (blocksOf pages).length < fuel) :
    ∃ (h : Heap) (hdr : Nat), h.obtained = w.heap.obtained ∧ h.returned = w.heap.returned ∧
      ∀ calls, w.heap.free calls fuel block.1 = h.returnPages calls hdr := by
  obtain ⟨b, member, used, pointer, -⟩ := inv.enough block held
  obtain ⟨ps, base, pl, pr, qs, rfl⟩ := exists_page member
  have layout : PageLayout (base, pl ++ b :: pr) := inv.layout _ (by simp)
  have placed : Placed base b := layout.toPageGrid.block (by simp)
  have nonnull : block.1 ≠ 0 := by
    rw [pointer]
    unfold payload headerSize
    omega
  obtain ⟨first, isFirst, found⟩ := inv.findHeader enough
  have described : w.heap.Describes b := inv.listed.describes b member
  have cut := wrap_payload placed.header (layout.toPageGrid.stop_lt (b := b) (by simp))
  obtain ⟨h, m, pl', rest, merged, books, -⟩ := inv.merge rfl
  refine ⟨h, m.start, books.obtained, books.returned, fun calls => ?_⟩
  unfold free
  rw [if_neg nonnull, pointer]
  simp only [isFirst, found, ok_bind, cut, ne_eq, not_true_eq_false, if_false, described.inUse, used,
    Bool.not_true, Bool.false_eq_true]
  rw [merged]

end FelineOS.Malloc
