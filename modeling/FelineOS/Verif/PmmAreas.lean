import FelineOS.Verif.PmmRuns

/-!
# Areas handed out and given back

What the callers of the manager are promised about the areas they ask for, and when the code
keeps it. `get_mem_area(&addr, len)` hands out the bytes it was asked for as long as the
length can be rounded. `get_mem_area(addr, len)` reserves from the start of the header it
finds, not from `addr`, so the area is reserved only where the two come close enough.
`free_mem_area` frees the whole header that holds `addr`.
-/

namespace FelineOS.PhysMem

open Library

variable {s s' : Pmm} {l : List Nat} {mapRange : MapRange} {stored : Option Nat}

/-- The bytes from `addr`, `len` of them. -/
structure Area where
  /-- First address. -/
  addr : Nat
  /-- Number of bytes. -/
  len : Nat
  deriving DecidableEq, Repr

/-- The address lies in the area. -/
def Area.Has (a : Area) (x : Nat) : Prop := a.addr ≤ x ∧ x < a.addr + a.len

/-- The area lies in one block. -/
def Area.Within (a : Area) (b : Block) : Prop := b.start ≤ a.addr ∧ a.addr + a.len ≤ b.stop

instance (a : Area) (x : Nat) : Decidable (a.Has x) := inferInstanceAs (Decidable (_ ∧ _))

instance (a : Area) (b : Block) : Decidable (a.Within b) := inferInstanceAs (Decidable (_ ∧ _))

/-- A block has the addresses of the areas within it. -/
theorem Area.Within.has {a : Area} {b : Block} (within : a.Within b) {x : Nat} (inside : a.Has x) :
    b.Has x := by
  unfold Area.Within at within
  unfold Area.Has at inside
  unfold Block.Has
  omega

/-- The state a call leaves, or the old one where it does not return. -/
def stateAfter (s : Pmm) (call : Call) : Pmm :=
  match s.exec call with
  | .ok (_, _, s') => s'
  | .error _ => s

/-! ## Any address -/

/-- The area lies in one header, free before the call and handed out after it, and so has no
byte in common with an area that was held. -/
def HandedOut (s s' : Pmm) (a : Area) : Prop :=
  (∃ i, (i ∈ s.chain ∧ (s.hdr i).inUse = false ∧ a.Within (s.hdr i).block) ∧
    (i ∈ s'.chain ∧ (s'.hdr i).inUse = true ∧ a.Within (s'.hdr i).block)) ∧
  ∀ x, a.Has x → ¬ UsedAt s.blocks x

/-- An area within a free header has no byte that is handed out. -/
theorem Rep.not_usedAt_within {i : Nat} (rep : Rep s l) (member : i ∈ l)
    (free : (s.hdr i).inUse = false) {a : Area} (within : a.Within (s.hdr i).block) {x : Nat}
    (inside : a.Has x) : FreeAt (s.blocksOf l) x ∧ ¬ UsedAt (s.blocksOf l) x := by
  have here : FreeAt (s.blocksOf l) x :=
    ⟨_, List.mem_map_of_mem member, free, within.has inside⟩
  exact ⟨here, rep.layout.not_used_of_free here⟩

/-- No header of a represented state has room for a length that cannot be rounded. -/
theorem Rep.len_le_of_within {i : Nat} (rep : Rep s l) (member : i ∈ l) {a : Area}
    (within : a.Within (s.hdr i).block) : a.len ≤ roundLimit := by
  have bound := (rep.header_bounds member).2.2
  simp only [Area.Within, PhysMemHeader.block, Block.stop] at within
  omega

/-- A successful `get_mem_area(&addr, len)`. -/
theorem Rep.getMemAreaAny_success {len : Nat} (rep : Rep s l)
    (returned : s.getMemAreaAny mapRange len = .ok (.success, stored, s')) :
    ∃ i l', i ∈ l ∧ s.Fits len i ∧ stored = some (s.hdr i).memory ∧
      Reserved mapRange s l i (roundUpToPage len) s' l' := by
  rcases rep.getMemAreaAny_spec mapRange len with ⟨-, refused⟩ | ⟨i, member, fits, found⟩
  · rw [refused] at returned
    cases returned
  · rcases found with ⟨s₁, l', reserved, succeeded⟩ | ⟨-, -, stop | stop⟩
    · rw [succeeded] at returned
      cases returned
      exact ⟨i, l', member, fits, rfl, reserved⟩
    · rw [stop] at returned
      cases returned
    · rw [stop] at returned
      cases returned

/-- The header reserved has room for every length that could be rounded. -/
theorem Rep.handedOut {i len : Nat} {l' : List Nat} (rep : Rep s l) (member : i ∈ l)
    (reserved : Reserved mapRange s l i (roundUpToPage len) s' l') (free : (s.hdr i).inUse = false)
    (small : len ≤ roundLimit) : HandedOut s s' ⟨(s.hdr i).memory, len⟩ := by
  have rounded := (roundUpToPage_spec small).2.1
  have enough := reserved.enough
  have smaller := reserved.within
  have within : Area.Within ⟨(s.hdr i).memory, len⟩ (s.hdr i).block := by
    simp only [Area.Within, PhysMemHeader.block, Block.stop]
    omega
  refine ⟨⟨i, ⟨?_, free, within⟩, ?_, reserved.inUse, ?_⟩, ?_⟩
  · rw [rep.chain_eq]
    exact member
  · rw [reserved.rep.chain_eq]
    exact reserved.member
  · simp only [Area.Within, PhysMemHeader.block, Block.stop, reserved.memory]
    omega
  · intro x inside
    rw [rep.blocks_eq]
    exact (rep.not_usedAt_within member free within inside).2

/-- A successful `get_mem_area(&addr, len)` hands out the area it was asked for exactly when
the length can be rounded. -/
theorem getMemAreaAny_handedOut_iff {len : UInt32} (represented : Represented s)
    (returned : s.getMemAreaAny mapRange len.toNat = .ok (.success, stored, s')) :
    (∃ addr, stored = some addr ∧ HandedOut s s' ⟨addr, len.toNat⟩) ↔ len.toNat ≤ 0xFFFFF000 := by
  obtain ⟨l, rep⟩ := represented
  obtain ⟨i, l', member, fits, rfl, reserved⟩ := rep.getMemAreaAny_success returned
  constructor
  · rintro ⟨addr, -, ⟨j, ⟨listed, -, within⟩, -⟩, -⟩
    rw [rep.chain_eq] at listed
    exact rep.len_le_of_within listed within
  · intro small
    exact ⟨_, rfl, rep.handedOut member reserved fits.1 small⟩

/-- One page out of two. -/
theorem getMemAreaAny_handedOut_twoPages :
    ∃ s', (Pmm.ofBlocks [⟨0x100000, 0x2000, false⟩]).getMemAreaAny (fun _ => .failed)
        (0x1000 : UInt32).toNat = .ok (.success, some 0x100000, s') ∧
      ((∃ addr, some 0x100000 = some addr ∧ HandedOut (Pmm.ofBlocks [⟨0x100000, 0x2000, false⟩]) s'
        ⟨addr, (0x1000 : UInt32).toNat⟩) ↔ (0x1000 : UInt32).toNat ≤ 0xFFFFF000) := by
  have returned : (Pmm.ofBlocks [⟨0x100000, 0x2000, false⟩]).getMemAreaAny (fun _ => .failed)
      (0x1000 : UInt32).toNat = .ok (.success, some 0x100000, stateAfter
        (Pmm.ofBlocks [⟨0x100000, 0x2000, false⟩]) (.getAny (fun _ => .failed) 0x1000)) := by
    decide +kernel
  exact ⟨_, returned, getMemAreaAny_handedOut_iff
    (repInv_ofBlocks (by decide) (by decide)).1 returned⟩

/-- A request for all but the last page boundary of the address space, on two pages of memory:
it succeeds, and hands out nothing. -/
theorem getMemAreaAny_not_handedOut :
    ∃ s', (Pmm.ofBlocks [⟨0x100000, 0x2000, false⟩]).getMemAreaAny (fun _ => .failed)
        (0xFFFFF001 : UInt32).toNat = .ok (.success, some 0x100000, s') ∧
      ¬ HandedOut (Pmm.ofBlocks [⟨0x100000, 0x2000, false⟩]) s'
        ⟨0x100000, (0xFFFFF001 : UInt32).toNat⟩ := by
  refine ⟨stateAfter (Pmm.ofBlocks [⟨0x100000, 0x2000, false⟩])
    (.getAny (fun _ => .failed) 0xFFFFF001), by decide +kernel, ?_⟩
  rintro ⟨⟨i, ⟨listed, -, within⟩, -⟩, -⟩
  have inv : RepInv (Pmm.ofBlocks [⟨0x100000, 0x2000, false⟩]) :=
    repInv_ofBlocks (by decide) (by decide)
  have rep := inv.1.rep
  exact absurd (rep.len_le_of_within listed within) (by decide)

/-! ## A given address -/

/-- The area a successful call reports, if it is a call of `get_mem_area`. -/
def Call.area : Call → Option Nat → Option Area
  | .getAny _ len, stored => stored.map fun addr => ⟨addr, len.toNat⟩
  | .getAt _ addr len, _ => some ⟨addr.toNat, len.toNat⟩
  | .free _ _, _ => none

/-- The request stays clear of two defects. A length has to be one that can be rounded. An area
at a given address has to lie in what is reserved from the start of the header. -/
def Call.Careful (s : Pmm) : Call → Prop
  | .getAny _ len => len.toNat ≤ 0xFFFFF000
  | .getAt _ addr len => ∀ i ∈ s.reached s.chain addr.toNat, (s.hdr i).inUse = false →
      len.toNat ≤ (s.hdr i).size →
      addr.toNat + len.toNat ≤ (s.hdr i).memory + roundUpToPage len.toNat
  | .free _ _ => True

instance (s : Pmm) (call : Call) : Decidable (call.Careful s) :=
  match call with
  | .getAny _ len => inferInstanceAs (Decidable (len.toNat ≤ _))
  | .getAt _ addr len => inferInstanceAs (Decidable (∀ i ∈ s.reached s.chain addr.toNat,
      (s.hdr i).inUse = false → len.toNat ≤ (s.hdr i).size →
      addr.toNat + len.toNat ≤ (s.hdr i).memory + roundUpToPage len.toNat))
  | .free _ _ => inferInstanceAs (Decidable True)

/-- A careful request takes bytes that were free. -/
theorem Represented.careful_free {call : Call} (represented : Represented s)
    (careful : call.Careful s) (returned : s.exec call = .ok (.success, stored, s')) {a : Area}
    (area : call.area stored = some a) {x : Nat} (inside : a.Has x) :
    FreeAt s.blocks x ∧ UsedAt s'.blocks x := by
  have rep := represented.rep
  cases call with
  | getAny mapRange len =>
    obtain ⟨i, l', member, fits, rfl, reserved⟩ := rep.getMemAreaAny_success returned
    obtain rfl : (⟨(s.hdr i).memory, len.toNat⟩ : Area) = a := by simpa [Call.area] using area
    obtain ⟨⟨j, ⟨listed, free, before⟩, listed', used, after⟩, -⟩ :=
      rep.handedOut member reserved fits.1 careful
    rw [reserved.rep.chain_eq] at listed'
    rw [reserved.rep.blocks_eq]
    exact ⟨(rep.not_usedAt_within listed free before inside).1,
      ⟨_, List.mem_map_of_mem listed', used, after.has inside⟩⟩
  | getAt mapRange addr len =>
    obtain rfl : (⟨addr.toNat, len.toNat⟩ : Area) = a := by simpa [Call.area] using area
    simp only [Pmm.exec] at returned
    rcases rep.getMemAreaAt_spec mapRange addr.toNat len.toNat with
      ⟨-, refused⟩ | ⟨i, reached, free, fits, found⟩
    · rw [refused] at returned
      cases returned
    · obtain ⟨member, above, -⟩ := rep.reached_spec reached
      rcases found with ⟨s₁, l', reserved, succeeded⟩ | ⟨-, -, stop | stop⟩
      · rw [succeeded] at returned
        cases returned
        have close := careful i reached free fits
        have enough := reserved.enough
        have smaller := reserved.within
        have before : Area.Within ⟨addr.toNat, len.toNat⟩ (s.hdr i).block := by
          simp only [Area.Within, PhysMemHeader.block, Block.stop]
          omega
        have after : Area.Within ⟨addr.toNat, len.toNat⟩ (s₁.hdr i).block := by
          simp only [Area.Within, PhysMemHeader.block, Block.stop, reserved.memory]
          omega
        rw [reserved.rep.blocks_eq]
        exact ⟨(rep.not_usedAt_within member free before inside).1,
          ⟨_, List.mem_map_of_mem reserved.member, reserved.inUse, after.has inside⟩⟩
      · rw [stop] at returned
        cases returned
      · rw [stop] at returned
        cases returned
  | free addr len => simp [Call.area] at area

/-- The call frees no header that has a byte of the area. -/
def Call.Spares (a : Area) (s : Pmm) : Call → Prop
  | .getAny _ _ => True
  | .getAt _ _ _ => True
  | .free addr _ => ∀ b ∈ s.blocks, b.Has addr.toNat → ∀ x, a.Has x → ¬ b.Has x

/-- One call that returns. -/
def Step (s s' : Pmm) : Prop := ∃ call result stored, s.exec call = .ok (result, stored, s')

/-- One call that returns and does not free the area. -/
def SparingStep (a : Area) (s s' : Pmm) : Prop :=
  ∃ call result stored, s.exec call = .ok (result, stored, s') ∧ call.Spares a s

/-- Steps keep the state represented. -/
theorem Represented.steps (start : Represented s) (reach : Relation.ReflTransGen Step s s') :
    Represented s' := by
  induction reach with
  | refl => exact start
  | tail _ step ih =>
    obtain ⟨call, result, stored, returned⟩ := step
    exact (ih.exec returned).represented

/-- Steps bring no byte into the list and take none out. -/
theorem Represented.covered_steps (start : Represented s)
    (reach : Relation.ReflTransGen Step s s') (x : Nat) :
    Covered s'.blocks x ↔ Covered s.blocks x := by
  induction reach with
  | refl => rfl
  | tail earlier step ih =>
    obtain ⟨call, result, stored, returned⟩ := step
    exact (((start.steps earlier).exec returned).covered x).trans ih

/-- Bytes handed out stay so in every call that does not free them. -/
theorem Represented.sparing_used {a : Area} (represented : Represented s)
    (step : SparingStep a s s') (used : ∀ x, a.Has x → UsedAt s.blocks x) :
    ∀ x, a.Has x → UsedAt s'.blocks x := by
  have rep := represented.rep
  obtain ⟨call, result, stored, returned, spares⟩ := step
  have reserved : ∀ {mapRange : MapRange} {i n : Nat} {l' : List Nat},
      Reserved mapRange s s.chain i n s' l' → ∀ x, a.Has x → UsedAt s'.blocks x := by
    intro mapRange i n l' reserved x inside
    rw [reserved.rep.blocks_eq]
    exact reserved.reserves.usedAt_mono (used x inside)
  cases call with
  | getAny mapRange len =>
    rcases rep.getMemAreaAny_spec mapRange len.toNat with
      ⟨-, refused⟩ | ⟨i, -, -, ⟨s₁, l', done, succeeded⟩ | ⟨-, -, stop⟩⟩
    · simp only [Pmm.exec, refused] at returned
      cases returned
      exact used
    · simp only [Pmm.exec, succeeded] at returned
      cases returned
      exact reserved done
    · simp only [Pmm.exec] at returned
      rw [returned] at stop
      rcases stop with stop | stop <;> cases stop
  | getAt mapRange addr len =>
    rcases rep.getMemAreaAt_spec mapRange addr.toNat len.toNat with
      ⟨-, refused⟩ | ⟨i, -, -, -, ⟨s₁, l', done, succeeded⟩ | ⟨-, -, stop⟩⟩
    · simp only [Pmm.exec, refused] at returned
      cases returned
      exact used
    · simp only [Pmm.exec, succeeded] at returned
      cases returned
      exact reserved done
    · simp only [Pmm.exec] at returned
      rcases stop with stop | stop <;> rw [stop] at returned <;> cases returned
  | free addr len =>
    simp only [Pmm.exec] at returned
    have spec := rep.freeMemArea_spec addr.toNat len.toNat
    generalize s.freeMemArea addr.toNat len.toNat = outcome at spec returned
    cases spec with
    | missed outside =>
      cases returned
      exact used
    | partly i member has beyond => cases returned
    | idle i member has free =>
      cases returned
      exact used
    | freed i s₁ l' member has within rep' chunks releases =>
      cases returned
      intro x inside
      rw [rep'.blocks_eq]
      refine (releases.usedAt rep.layout).mpr ⟨used x inside, ?_⟩
      exact spares _ (List.mem_map_of_mem member) has x inside

/-- Bytes handed out stay so until a call frees them. -/
theorem Represented.held {a : Area} (represented : Represented s)
    (later : Relation.ReflTransGen (SparingStep a) s s')
    (used : ∀ x, a.Has x → UsedAt s.blocks x) :
    Represented s' ∧ ∀ x, a.Has x → UsedAt s'.blocks x := by
  induction later with
  | refl => exact ⟨represented, used⟩
  | tail _ step ih =>
    refine ⟨?_, ih.1.sparing_used step ih.2⟩
    obtain ⟨call, result, stored, ran, -⟩ := step
    exact (ih.1.exec ran).represented

/-- Wherever a run stands, a careful request for a given address takes bytes that were free and
hands them out; and until a call frees a header with one of these bytes, no careful request is
given any of them. -/
theorem getMemAreaAt_exclusive {s₀ s₁ s₂ : Pmm} {addr len : UInt32} (start : Represented s₀)
    (reach : Relation.ReflTransGen Step s₀ s₁)
    (returned : s₁.exec (.getAt mapRange addr len) = .ok (.success, stored, s₂))
    (careful : Call.Careful s₁ (.getAt mapRange addr len)) :
    (∀ x, Area.Has ⟨addr.toNat, len.toNat⟩ x → FreeAt s₁.blocks x ∧ UsedAt s₂.blocks x) ∧
      ∀ s₃, Relation.ReflTransGen (SparingStep ⟨addr.toNat, len.toNat⟩) s₂ s₃ →
        ∀ call stored' s₄ a, s₃.exec call = .ok (.success, stored', s₄) → call.Careful s₃ →
          call.area stored' = some a → ∀ x, Area.Has ⟨addr.toNat, len.toNat⟩ x → ¬ a.Has x := by
  have represented := start.steps reach
  have taken : ∀ x, Area.Has ⟨addr.toNat, len.toNat⟩ x →
      FreeAt s₁.blocks x ∧ UsedAt s₂.blocks x :=
    fun x inside => represented.careful_free careful returned rfl inside
  refine ⟨taken, ?_⟩
  intro s₃ later call stored' s₄ a given tidy area x inside has
  have held := (represented.exec returned).represented.held later fun x inside => (taken x inside).2
  have free := (held.1.careful_free tidy given area has).1
  exact held.1.rep.layout.not_used_of_free free (held.2 x inside)

/-- The first of four free pages. -/
theorem getMemAreaAt_exclusive_fourPages :
    ∃ s₂, (Pmm.ofBlocks [⟨0x100000, 0x4000, false⟩]).exec (.getAt (fun _ => .failed) 0x100000 0x1000) =
        .ok (.success, none, s₂) ∧
      (∀ x, Area.Has ⟨(0x100000 : UInt32).toNat, (0x1000 : UInt32).toNat⟩ x →
        FreeAt (Pmm.ofBlocks [⟨0x100000, 0x4000, false⟩]).blocks x ∧ UsedAt s₂.blocks x) := by
  have returned : (Pmm.ofBlocks [⟨0x100000, 0x4000, false⟩]).exec
      (.getAt (fun _ => .failed) 0x100000 0x1000) = .ok (.success, none, stateAfter
        (Pmm.ofBlocks [⟨0x100000, 0x4000, false⟩])
        (.getAt (fun _ => .failed) 0x100000 0x1000)) := by decide +kernel
  exact ⟨_, returned, (getMemAreaAt_exclusive (repInv_ofBlocks (by decide) (by decide)).1 .refl
    returned (by decide +kernel)).1⟩

/-- The third of four free pages: the call succeeds, reserves the first page, and the page asked
for is handed out again by the next call. -/
theorem getMemAreaAt_not_exclusive :
    Represented (Pmm.ofBlocks [⟨0x100000, 0x4000, false⟩]) ∧
    ∃ s₂ s₃, (Pmm.ofBlocks [⟨0x100000, 0x4000, false⟩]).exec
        (.getAt (fun _ => .failed) 0x102000 0x1000) = .ok (.success, none, s₂) ∧
      ¬ (∀ x, Area.Has ⟨0x102000, 0x1000⟩ x → UsedAt s₂.blocks x) ∧
      s₂.exec (.getAny (fun _ => .failed) 0x3000) = .ok (.success, some 0x101000, s₃) ∧
      Area.Has ⟨0x101000, 0x3000⟩ 0x102000 := by
  refine ⟨(repInv_ofBlocks (by decide) (by decide)).1,
    stateAfter (Pmm.ofBlocks [⟨0x100000, 0x4000, false⟩])
      (.getAt (fun _ => .failed) 0x102000 0x1000),
    stateAfter (stateAfter (Pmm.ofBlocks [⟨0x100000, 0x4000, false⟩])
      (.getAt (fun _ => .failed) 0x102000 0x1000)) (.getAny (fun _ => .failed) 0x3000),
    by decide +kernel, ?_, by decide +kernel, by decide⟩
  intro used
  exact absurd (used 0x102000 (by decide)) (by decide +kernel)

/-! ## Freeing -/

/-- A call that refuses leaves the state alone. -/
theorem Rep.freeMemArea_invalid {addr len : Nat} (rep : Rep s l)
    (refused : s.freeMemArea addr len = .ok (.invalid, s')) : s' = s := by
  have spec := rep.freeMemArea_spec addr len
  rw [refused] at spec
  cases spec with
  | missed outside => rfl
  | idle i member has free => rfl

/-- Freeing an area within one header that is handed out frees that header. -/
theorem Rep.freeMemArea_within {i addr len : Nat} (rep : Rep s l) (member : i ∈ l)
    (used : (s.hdr i).inUse = true) (positive : 0 < len)
    (within : Area.Within ⟨addr, len⟩ (s.hdr i).block) :
    ∃ s' l', s.freeMemArea addr len = .ok (.success, s') ∧ Rep s' l' ∧
      s'.chunkNext = s.chunkNext ∧ Releases (s.hdr i).block (s.blocksOf l) (s'.blocksOf l') := by
  have listed : (s.hdr i).block ∈ s.blocksOf l := List.mem_map_of_mem member
  have bound := rep.layout.below _ listed
  have has : (s.hdr i).block.Has addr := within.has ⟨Nat.le_refl _, Nat.lt_add_of_pos_right positive⟩
  have word : wrap (addr + len) = addr + len := by
    apply wrap_of_lt
    have stop := within.2
    unfold roundLimit at bound
    unfold wordLimit
    simp only at stop
    omega
  -- The lookup stops at this header: no other range has the address.
  have only : ∀ j ∈ l, (s.hdr j).block.Has addr → (s.hdr j).block = (s.hdr i).block :=
    fun j inside here => rep.layout.unique (List.mem_map_of_mem inside) listed here has
  have spec := rep.freeMemArea_spec addr len
  generalize s.freeMemArea addr len = outcome at spec
  cases spec with
  | missed outside => exact absurd ⟨_, listed, has⟩ outside
  | partly j inside here beyond =>
    rw [only j inside here, word] at beyond
    exact absurd within.2 (Nat.not_le.mpr beyond)
  | idle j inside here free =>
    have flag : (s.hdr j).block.used = (s.hdr i).block.used := by rw [only j inside here]
    simp only [PhysMemHeader.block, used, free] at flag
    contradiction
  | freed j s' l' inside here stop rep' chunks releases =>
    rw [only j inside here] at releases
    exact ⟨s', l', rfl, rep', chunks, releases⟩

/-- Exactly the bytes of the area have become free. -/
def FreesExactly (s s' : Pmm) (a : Area) : Prop :=
  ∀ x, (FreeAt s'.blocks x ↔ FreeAt s.blocks x ∨ a.Has x) ∧
    (UsedAt s'.blocks x ↔ UsedAt s.blocks x ∧ ¬ a.Has x)

/-- Areas with the same bytes are the same, unless they are empty. -/
theorem Area.eq_of_has {b : Block} {a : Area} (filled : 0 < a.len)
    (same : ∀ x, b.Has x ↔ a.Has x) : b.start = a.addr ∧ b.size = a.len := by
  unfold Block.Has Block.stop Area.Has at same
  have first := same a.addr
  have start := same b.start
  have last := same (a.addr + a.len - 1)
  have stop := same (b.start + b.size - 1)
  have next := same (b.start + b.size)
  omega

end FelineOS.PhysMem
