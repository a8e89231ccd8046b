import FelineOS.Verif.MemManagers
import FelineOS.Verif.PagingSearch

/-!
# Blocks of memory

What the rest of the kernel may rely on about the blocks it got from `get_mem` and has not given
back (`Contract`), over whole runs of `get_mem` and `free_mem`. The invariant behind it joins the
two managers: the pages of each block are mapped to the start of one header that is handed out,
and no physical page is behind two blocks (`Inv`). `unmap_range` finds the physical address in the
first page table entry of the range, and `free_mem_area` frees the header that starts there.

The premise on the pages of new chunks is that of the physical memory manager. Without it a run
leaves the chunk chain when the pool grows for the second time.
-/

namespace FelineOS.Mem

open Library (Block FreeAt UsedAt overlay_outside)
open PhysMem (Pmm Rep RepInv)
open Paging (MapOpts MapResults bytesToPages)
open Paging.I386 (Layout Tables mmu mmu_models Sound WellFormed view windowPage)

variable {layout : Layout} {s s' : System} {w w' : World} {a b : MemBlock} {l : List Nat}

/-- The address lies in the block. -/
def MemBlock.Has (b : MemBlock) (v : Nat) : Prop := b.virt ≤ v ∧ v < b.virt + b.len

/-- What holds of the blocks that are out. -/
structure Contract (layout : Layout) (w : World) : Prop where
  /-- No address lies in two blocks. -/
  apart : w.live.Pairwise fun a b => ∀ v, a.Has v → ¬ b.Has v
  /-- Every byte is mapped, in both copies of the mapping. -/
  mapped : ∀ b ∈ w.live, ∀ v, b.Has v → w.system.vmm.space.isMapped v = true ∧
    ∃ p, w.system.vmm.space.tables.translate layout v = some p
  /-- The physical page of every byte lies in a header that is handed out. -/
  held : ∀ b ∈ w.live, ∀ v p, b.Has v → w.system.vmm.space.tables.translate layout v = some p →
    ∃ i ∈ w.system.pmm.chain, (w.system.pmm.hdr i).inUse = true ∧
      (w.system.pmm.hdr i).memory ≤ pageFloor p ∧
      pageFloor p + pageSize ≤ (w.system.pmm.hdr i).memory + (w.system.pmm.hdr i).size
  /-- No physical page is behind two blocks. -/
  distinct : w.live.Pairwise fun a b => ∀ v u p q, a.Has v → b.Has u →
    w.system.vmm.space.tables.translate layout v = some p →
    w.system.vmm.space.tables.translate layout u = some q → pageFloor p ≠ pageFloor q

/-- No two pages of the blocks show the same physical page. -/
def Separate (t : Tables) (a b : MemBlock) : Prop :=
  ∀ i < a.pages, ∀ j < b.pages, view t (a.page i) ≠ view t (b.page j)

/-- What every call keeps. -/
structure Inv (layout : Layout) (w : World) : Prop where
  /-- The header list is well formed and the chunk chain ends. -/
  pmm : RepInv w.system.pmm
  /-- The two copies of the mapping agree. -/
  sound : Sound layout w.system.vmm.space
  /-- Every block that is out has its memory. -/
  backed : ∀ b ∈ w.live, Backed w.system b
  /-- No physical page is behind two blocks. -/
  separate : w.live.Pairwise (Separate w.system.vmm.space.tables)

/-! ## The contract -/

/-- The page of an address of a block. -/
theorem Backed.page_of (backed : Backed s b) {v : Nat} (inside : b.Has v) :
    ∃ i < b.pages, v / pageSize = b.page i := by
  have short := backed.len_le_pages
  obtain ⟨first, start⟩ := backed.aligned
  refine ⟨v / pageSize - b.virt / pageSize, ?_, ?_⟩
  · unfold MemBlock.Has at inside
    unfold pageSize at *
    omega
  · have ordered : b.virt / pageSize ≤ v / pageSize := Nat.div_le_div_right inside.1
    unfold MemBlock.page
    omega

/-- How the processor translates an address of a block. -/
theorem Backed.translate_eq (sound : Sound layout s.vmm.space) (backed : Backed s b) {v : Nat}
    (inside : b.Has v) :
    ∃ i < b.pages, v / pageSize = b.page i ∧ ∃ q, view s.vmm.space.tables (b.page i) = some q ∧
      s.vmm.space.tables.translate layout v = some (q * pageSize + Paging.pageOffset v) := by
  obtain ⟨i, small, page⟩ := backed.page_of inside
  obtain ⟨first, size, -, -, shows⟩ := backed.header
  have below : v / pageSize < windowPage := by
    rw [page]
    exact Nat.lt_of_lt_of_le (Nat.add_lt_add_left small _) backed.below
  refine ⟨i, small, page, first + i, shows i small, ?_⟩
  rw [sound.agrees.good.translate_eq below, page, shows i small]
  rfl

/-- A byte of a physical page. -/
theorem pageFloor_offset (q v : Nat) :
    pageFloor (q * pageSize + Paging.pageOffset v) = q * pageSize := by
  have small := Paging.pageOffset_lt v
  unfold pageFloor pageSize at *
  omega

/-- The invariant gives the contract. -/
theorem Inv.contract (inv : Inv layout w) : Contract layout w := by
  have rep := inv.pmm.1.rep
  refine ⟨?_, ?_, ?_, ?_⟩
  · refine inv.separate.imp_of_mem ?_
    intro a b listedA listedB separate v hasA hasB
    obtain ⟨i, smallA, pageA⟩ := (inv.backed a listedA).page_of hasA
    obtain ⟨j, smallB, pageB⟩ := (inv.backed b listedB).page_of hasB
    apply separate i smallA j smallB
    rw [← pageA, ← pageB]
  · intro b listed v inside
    obtain ⟨i, small, page, q, shows, translates⟩ :=
      (inv.backed b listed).translate_eq inv.sound inside
    refine ⟨?_, _, translates⟩
    have below : b.page i < windowPage :=
      Nat.lt_of_lt_of_le (Nat.add_lt_add_left small _) (inv.backed b listed).below
    unfold Paging.Space.isMapped
    rw [page, inv.sound.agrees.agrees _ below, shows]
    rfl
  · intro b listed v p inside maps
    obtain ⟨i, small, -, q, shows, translates⟩ :=
      (inv.backed b listed).translate_eq inv.sound inside
    rw [translates] at maps
    cases maps
    obtain ⟨first, size, member, fits, shown⟩ := (inv.backed b listed).header
    rw [shown i small] at shows
    cases shows
    rw [rep.blocks_eq] at member
    obtain ⟨k, inside, same⟩ := List.mem_map.mp member
    have memory : (w.system.pmm.hdr k).memory = first * pageSize := congrArg Block.start same
    have extent : (w.system.pmm.hdr k).size = size := congrArg Block.size same
    refine ⟨k, inside, congrArg Block.used same, ?_⟩
    rw [pageFloor_offset, memory, extent]
    have room : (i + 1) * pageSize ≤ b.pages * pageSize := Nat.mul_le_mul_right _ small
    rw [Nat.add_mul]
    rw [Nat.add_mul, Nat.one_mul] at room
    omega
  · refine inv.separate.imp_of_mem ?_
    intro a b listedA listedB separate v u p q hasA hasB mapsA mapsB same
    obtain ⟨i, smallA, -, p', showsA, translatesA⟩ :=
      (inv.backed a listedA).translate_eq inv.sound hasA
    obtain ⟨j, smallB, -, q', showsB, translatesB⟩ :=
      (inv.backed b listedB).translate_eq inv.sound hasB
    rw [translatesA] at mapsA
    rw [translatesB] at mapsB
    cases mapsA
    cases mapsB
    rw [pageFloor_offset, pageFloor_offset] at same
    apply separate i smallA j smallB
    rw [showsA, showsB, Nat.eq_of_mul_eq_mul_right (by decide) same]

/-! ## Calls -/

/-- A block has its memory still when its header and its pages are there. -/
theorem Backed.kept (backed : Backed s b)
    (held : ∀ {c : Block}, c ∈ s.pmm.blocks → c.used = true →
      some c.start = (view s.vmm.space.tables (b.page 0)).map (· * pageSize) → c ∈ s'.pmm.blocks)
    (same : ∀ i < b.pages, view s'.vmm.space.tables (b.page i) = view s.vmm.space.tables (b.page i)) :
    Backed s' b := by
  obtain ⟨first, size, member, fits, shows⟩ := backed.header
  refine ⟨backed.aligned, backed.nonzero, backed.filled, backed.below, first, size, ?_, fits, ?_⟩
  · apply held member rfl
    rw [shows 0 backed.pages_pos]
    rfl
  · intro i small
    rw [same i small]
    exact shows i small

/-- A call that leaves all mappings leaves those of the blocks. -/
theorem Keeps.view_eq (keeps : Keeps layout s s') (backed : Backed s b) {i : Nat} (small : i < b.pages) :
    view s'.vmm.space.tables (b.page i) = view s.vmm.space.tables (b.page i) := by
  obtain ⟨first, size, -, -, shows⟩ := backed.header
  rw [shows i small]
  exact keeps.grown.shown (shows i small)

/-- Blocks stay separate when their pages show the same. -/
theorem Separate.kept {t t' : Tables} (separate : Separate t a b)
    (sameA : ∀ i < a.pages, view t' (a.page i) = view t (a.page i))
    (sameB : ∀ i < b.pages, view t' (b.page i) = view t (b.page i)) : Separate t' a b := by
  intro i smallA j smallB
  rw [sameA i smallA, sameB j smallB]
  exact separate i smallA j smallB

/-- A new block is separate from the blocks that were out. -/
theorem Given.separate (rep : Rep s.pmm l) (keeps : Keeps layout s s') (given : Given s s' b)
    (backed : Backed s a) : Separate s'.vmm.space.tables b a := by
  intro i smallB j smallA same
  obtain ⟨first, size, member, fits, shows⟩ := backed.header
  rw [keeps.grown.shown (shows j smallA)] at same
  have free := given.free i _ smallB same
  rw [rep.blocks_eq] at free member
  refine rep.layout.not_used_of_free free ⟨_, member, rfl, ?_⟩
  have room : (j + 1) * pageSize ≤ a.pages * pageSize := Nat.mul_le_mul_right _ smallA
  simp only [Block.Has, Block.stop]
  unfold pageSize at *
  omega

/-- A call that leaves what is handed out and mapped keeps the invariant. -/
theorem Inv.keeps (inv : Inv layout w) (keeps : Keeps layout w.system s')
    (sealed : s'.pmm.Sealed) : Inv layout ⟨s', w.live⟩ := by
  refine ⟨⟨keeps.represented, sealed⟩, keeps.grown.sound, ?_, ?_⟩
  · intro b listed
    have backed := inv.backed b listed
    exact backed.kept (fun member used _ => keeps.held member used)
      fun i small => keeps.view_eq backed small
  · refine inv.separate.imp_of_mem ?_
    intro a b listedA listedB separate
    exact separate.kept (fun i small => keeps.view_eq (inv.backed a listedA) small)
      fun i small => keeps.view_eq (inv.backed b listedB) small

/-- A call of `get_mem`. -/
theorem Inv.get {next : Option Nat} {len : Nat} (inv : Inv layout w)
    (legal : w.Legal (.get next len)) (tidy : w.Tidy (.get next len)) :
    w.exec layout (.get next len) = .error .abort ∨
      ∃ w', w.exec layout (.get next len) = .ok w' ∧ Inv layout w' := by
  have rep := inv.pmm.1.rep
  rcases getMem_cases rep inv.pmm.2 inv.sound legal.1 legal.2 tidy with
    ⟨result, virt, s', returns, keeps, given, sealed⟩ | stopped
  · right
    have kept := inv.keeps keeps sealed
    refine ⟨⟨s', if result = .success then ⟨virt, len⟩ :: w.live else w.live⟩, ?_, ?_⟩
    · simp only [World.exec, returns, ok_bind]
      rfl
    · by_cases success : result = .success
      · rw [if_pos success]
        have given := given success
        refine ⟨kept.pmm, kept.sound, ?_, ?_⟩
        · intro b listed
          rcases List.mem_cons.mp listed with rfl | old
          · exact given.backed
          · exact kept.backed b old
        · refine List.pairwise_cons.mpr ⟨?_, kept.separate⟩
          intro a listed
          exact given.separate rep keeps (inv.backed a listed)
      · rw [if_neg success]
        exact kept
  · left
    simp only [World.exec, stopped, error_bind]

/-- A call of `free_mem` with a block that is out. -/
theorem Inv.free (inv : Inv layout w) (legal : w.Legal (.free b)) :
    ∃ w', w.exec layout (.free b) = .ok w' ∧ Inv layout w' := by
  have rep := inv.pmm.1.rep
  have backed := inv.backed b legal
  obtain ⟨s', first, size, returns, shown, represented, chunks, releases, unmapped⟩ :=
    freeMem_backed rep inv.sound backed
  refine ⟨⟨s', w.live.erase b⟩, ?_, ?_⟩
  · simp only [World.exec, returns, ok_bind, if_true]
    rfl
  -- The block is separate from those that stay.
  have apart : ∀ a ∈ w.live.erase b, Separate w.system.vmm.space.tables b a := by
    have symmetric : ∀ {a b : MemBlock}, Separate w.system.vmm.space.tables a b →
        Separate w.system.vmm.space.tables b a :=
      fun separate i small j below same => separate j below i small same.symm
    have front := (List.perm_cons_erase legal).pairwise_iff symmetric |>.mp inv.separate
    exact (List.pairwise_cons.mp front).1
  have same : ∀ a ∈ w.live.erase b, ∀ i < a.pages,
      view s'.vmm.space.tables (a.page i) = view w.system.vmm.space.tables (a.page i) := by
    intro a listed i small
    rw [unmapped.view]
    apply overlay_outside
    by_contra inside
    apply apart a listed (a.page i - b.virt / pageSize) (by omega) i small
    unfold MemBlock.page at inside ⊢
    congr 1
    omega
  refine ⟨⟨represented, ?_⟩, ?_, ?_, ?_⟩
  · unfold Pmm.Sealed
    rw [chunks]
    exact inv.pmm.2
  · exact inv.sound.kept (unmapped.kept inv.sound.agrees (Or.inr backed.below))
  · intro a listed
    have other := inv.backed a (List.mem_of_mem_erase listed)
    refine other.kept ?_ (same a listed)
    intro c member used start
    apply releases.mem_of_used member used
    rintro rfl
    -- Two blocks behind one header would start with the same page.
    apply apart a listed 0 backed.pages_pos 0 other.pages_pos
    rw [shown]
    cases page : view w.system.vmm.space.tables (a.page 0) with
    | none => simp [page] at start
    | some q =>
      rw [page, Option.map_some] at start
      rw [Nat.eq_of_mul_eq_mul_right (by decide) (Option.some.inj start)]
  · refine (inv.separate.sublist List.erase_sublist).imp_of_mem ?_
    intro a c listedA listedC separate
    exact separate.kept (same a listedA) (same c listedC)

/-- Every legal and tidy call keeps the invariant or stops at an explicit abort. -/
theorem Inv.exec {op : Op} (inv : Inv layout w) (legal : w.Legal op) (tidy : w.Tidy op) :
    w.exec layout op = .error .abort ∨ ∃ w', w.exec layout op = .ok w' ∧ Inv layout w' := by
  cases op with
  | get next len => exact inv.get legal tidy
  | free block => exact Or.inr (inv.free legal)

/-! ## Runs -/

/-- Legal and tidy calls keep the invariant over a whole run. -/
theorem Inv.run (inv : Inv layout w) (ops : List Op) (legal : w.Along layout World.Legal ops)
    (tidy : w.Along layout World.Tidy ops) :
    w.run layout ops = .error .abort ∨ ∃ w', w.run layout ops = .ok w' ∧ Inv layout w' := by
  induction ops generalizing w with
  | nil => exact Or.inr ⟨w, rfl, inv⟩
  | cons op ops ih =>
    obtain ⟨first, rest⟩ := legal
    obtain ⟨tidyFirst, tidyRest⟩ := tidy
    unfold World.run
    rcases inv.exec first tidyFirst with stopped | ⟨w₁, returns, inv₁⟩
    · left
      rw [stopped]
      rfl
    · rw [returns, ok_bind]
      exact ih inv₁ (rest w₁ returns) (tidyRest w₁ returns)

/-- From a boot state of both managers, every run of `get_mem` with positive lengths and `free_mem`
of blocks that are out, in which a full pool grows by pages that read null in the `next` field of
the chunk, stops at an explicit abort or ends in a state that meets the contract. -/
theorem run_contract (start : RepInv w.system.pmm) (sound : Sound layout w.system.vmm.space)
    (boot : w.live = []) (ops : List Op) (legal : w.Along layout World.Legal ops)
    (tidy : w.Along layout World.Tidy ops) :
    w.run layout ops = .error .abort ∨ ∃ w', w.run layout ops = .ok w' ∧ Contract layout w' := by
  have inv : Inv layout w := by
    refine ⟨start, sound, ?_, ?_⟩
    · rw [boot]
      simp
    · rw [boot]
      exact List.Pairwise.nil
  rcases inv.run ops legal tidy with stopped | ⟨w', returns, kept⟩
  · exact Or.inl stopped
  · exact Or.inr ⟨w', returns, kept.contract⟩

/-- The first request for a page after booting with a spare header. -/
theorem exec_spare {vmm : Paging.Vmm Tables} {pmm pmm₁ : Pmm} {phys : Nat}
    (setup : Paging.I386.setupPaging Paging.I386.exampleLayout = .ok vmm) (rep : Rep pmm l)
    (spare : pmm.headersInUse + 1 < pmm.headersAllocated)
    (step : pmm.getMemAreaAny (fun _ => .failed) 0x1000 = .ok (.success, some phys, pmm₁)) :
    ∃ w', World.exec Paging.I386.exampleLayout ⟨⟨pmm, vmm⟩, []⟩ (.get none 0x1000) = .ok w' ∧
      w'.live = [⟨0x1000, 0x1000⟩] := by
  have sound := Paging.I386.setupPaging_sound setup
  obtain ⟨mapRange, vmm₁, answers, -, got⟩ :=
    @getMem_spec Paging.I386.exampleLayout ⟨pmm, vmm⟩ l none 0x1000 rep sound
  obtain ⟨-, rfl, rfl⟩ | ⟨full, -⟩ := answers
  · cases got with
    | refused found returns => simp [step] at found
    | stuck unsealed fault found stops => simp [step] at found
    | reserved i member free physWord pmm₂ l' reserved found result virt vmm' maps outcome =>
      have offset : Paging.pageOffset (pmm.hdr i).memory = 0 :=
        Nat.mod_eq_zero_of_dvd (rep.header_bounds member).1
      obtain ⟨s', succeeds⟩ := @Paging.I386.setup_maps (pmm.hdr i).memory 0x1000 _ setup physWord
        (by rw [offset]; decide) (by unfold Paging.pagesFor; rw [offset]; decide)
      rw [succeeds, offset] at maps
      cases maps
      rcases outcome with ⟨failed, -⟩ | ⟨answer, returns, agree⟩
      · exact absurd rfl failed
      · rw [agree.mpr rfl] at returns
        simp only [World.exec, returns, ok_bind, if_true]
        exact ⟨_, rfl, rfl⟩
  · exact absurd spare (Nat.not_lt.mpr full)

/-- After booting with four free pages, one is got. -/
theorem run_contract_onePage :
    ∃ vmm w', Paging.I386.setupPaging Paging.I386.exampleLayout = .ok vmm ∧
      World.run Paging.I386.exampleLayout
        ⟨⟨Pmm.ofBlocks [⟨0x100000, 0x4000, false⟩], vmm⟩, []⟩ [.get none 0x1000] = .ok w' ∧
      w'.live = [⟨0x1000, 0x1000⟩] ∧ Contract Paging.I386.exampleLayout w' := by
  have inv : RepInv (Pmm.ofBlocks [⟨0x100000, 0x4000, false⟩]) :=
    PhysMem.repInv_ofBlocks (by decide) (by decide)
  have step : (Pmm.ofBlocks [⟨0x100000, 0x4000, false⟩]).getMemAreaAny (fun _ => .failed) 0x1000 =
      .ok (.success, some 0x100000, PhysMem.stateAfter (Pmm.ofBlocks [⟨0x100000, 0x4000, false⟩])
        (.getAny (fun _ => .failed) 0x1000)) := by decide +kernel
  obtain ⟨vmm, setup, -⟩ := Paging.I386.setupPaging_returns Paging.I386.exampleLayout
  obtain ⟨w₁, returns, live⟩ := exec_spare setup inv.1.rep (by decide) step
  have ran : World.run Paging.I386.exampleLayout
      ⟨⟨Pmm.ofBlocks [⟨0x100000, 0x4000, false⟩], vmm⟩, []⟩ [.get none 0x1000] = .ok w₁ := by
    simp only [World.run, returns, ok_bind]
  refine ⟨vmm, w₁, setup, ran, live, ?_⟩
  rcases @run_contract Paging.I386.exampleLayout
    ⟨⟨Pmm.ofBlocks [⟨0x100000, 0x4000, false⟩], vmm⟩, []⟩ inv
    (Paging.I386.setupPaging_sound setup) rfl [.get none 0x1000]
    ⟨⟨by decide, by decide⟩, fun _ _ => trivial⟩ ⟨fun _ => rfl, fun _ _ => trivial⟩ with
    stopped | ⟨w', returned, contract⟩
  · rw [ran] at stopped
    cases stopped
  · rw [ran] at returned
    cases returned
    exact contract

/-! ## A chunk chain without an end -/

/-- A request for one page does what the physical memory manager does. -/
theorem exec_onePage (next : Option Nat) (rep : Rep w.system.pmm l)
    (sound : Sound layout w.system.vmm.space) :
    ∃ mapRange vmm₁, Answers layout next w.system mapRange vmm₁ ∧
      ((∃ fault, w.system.pmm.exec (.getAny mapRange 0x1000) = .error fault ∧
        w.exec layout (.get next 0x1000) = .error fault) ∨
      ∃ result stored w', w.system.pmm.exec (.getAny mapRange 0x1000) =
          .ok (result, stored, w'.system.pmm) ∧
        w.exec layout (.get next 0x1000) = .ok w' ∧ Sound layout w'.system.vmm.space) := by
  have length : (0x1000 : UInt32).toNat = 0x1000 := by decide
  obtain ⟨mapRange, vmm₁, answers, grown, got⟩ := getMem_spec next 0x1000 rep sound
  refine ⟨mapRange, vmm₁, answers, ?_⟩
  simp only [Pmm.exec, length, World.exec]
  cases got with
  | refused found returns =>
    simp only [returns, ok_bind]
    exact Or.inr ⟨_, _, ⟨⟨w.system.pmm, vmm₁⟩, w.live⟩, found, rfl, grown.sound⟩
  | stuck unsealed fault found stops =>
    simp only [stops, error_bind]
    exact Or.inl ⟨fault, found, rfl⟩
  | reserved i member free physWord pmm l' reserved found result virt vmm maps outcome =>
    have single : Paging.pagesFor (w.system.pmm.hdr i).memory 0x1000 = 1 := by
      have offset : Paging.pageOffset (w.system.pmm.hdr i).memory = 0 :=
        Nat.mod_eq_zero_of_dvd (rep.header_bounds member).1
      unfold Paging.pagesFor
      rw [offset]
      decide
    rcases outcome with ⟨failed, other, -⟩ | ⟨answer, returns, -⟩
    · rcases Paging.mapRange_onePage (mmu_models layout) grown.sound.agrees grown.sound.window
        physWord single maps with success | noVirtmem
      · exact absurd success failed
      · exact absurd noVirtmem other
    · simp only [returns, ok_bind]
      exact Or.inr ⟨_, _, _, found, rfl, (extends_mapRange grown.sound physWord maps).sound⟩

/-- Requests of the kernel reach the physical memory manager. -/
theorem requests_getMem (rep : Rep w.system.pmm l) (sound : Sound layout w.system.vmm.space) :
    PhysMem.Requests (fun w : World => w.system.pmm)
      (fun w => Sound layout w.system.vmm.space)
      (fun m w => w.run layout (List.replicate m (.get none 0x1000))) w := by
  obtain ⟨mapRange, -, -, ⟨fault, stops, stopped⟩ | ⟨result, stored, w', returns, returned, fine⟩⟩ :=
    exec_onePage none rep sound
  · refine ⟨mapRange, Or.inl ⟨fault, stops, fun m => ?_⟩⟩
    simp only [List.replicate_succ, World.run, stopped, error_bind]
  · refine ⟨mapRange, Or.inr ⟨result, stored, w', returns, fine, fun m => ?_⟩⟩
    simp only [List.replicate_succ, World.run, returned, ok_bind]

/-- Requests for memory are legal wherever a run stands. -/
theorem along_legal_get {ops : List Op} (w : World)
    (gets : ∀ op ∈ ops, ∃ next len, op = .get next len ∧ 0 < len ∧ len < wordLimit) :
    w.Along layout World.Legal ops := by
  induction ops generalizing w with
  | nil => exact trivial
  | cons op ops ih =>
    obtain ⟨next, len, rfl, positive, word⟩ := gets op List.mem_cons_self
    exact ⟨⟨positive, word⟩, fun w' _ => ih w' fun op member => gets op (List.mem_cons_of_mem _ member)⟩

/-- A page for a chunk can be mapped after booting. -/
theorem setup_maps_chunk {vmm : Paging.Vmm Tables} {phys : Nat}
    (setup : Paging.I386.setupPaging Paging.I386.exampleLayout = .ok vmm)
    (word : phys < wordLimit) :
    ∃ vmm', vmm.mapRange (mmu Paging.I386.exampleLayout) phys sizeofHeaderList MapOpts.none =
      .ok (.success, pageSize + Paging.pageOffset phys, vmm') := by
  have offset := Paging.pageOffset_lt phys
  have length : sizeofHeaderList = 4092 := by decide
  have exact : wrap (sizeofHeaderList + Paging.pageOffset phys) =
      sizeofHeaderList + Paging.pageOffset phys := by
    apply wrap_of_lt
    unfold pageSize at offset
    unfold wordLimit
    omega
  apply Paging.I386.setup_maps setup word
  · unfold pageSize at offset
    unfold roundLimit
    omega
  · unfold Paging.pagesFor
    rw [exact]
    unfold bytesToPages uintptrMax
    unfold pageSize at *
    split <;> omega

/-- The first request for a page after booting with a full pool: the page for the new chunk is
mapped, whatever it reads. -/
theorem exec_full {vmm : Paging.Vmm Tables} {pmm pmm₁ : Pmm} {next : Option Nat}
    {result : PhysMem.PmmResult} {stored : Option Nat}
    (setup : Paging.I386.setupPaging Paging.I386.exampleLayout = .ok vmm) (rep : Rep pmm l)
    (full : ¬ pmm.headersInUse + 1 < pmm.headersAllocated)
    (step : pmm.exec (.getAny (fun _ => .mapped next) 0x1000) = .ok (result, stored, pmm₁)) :
    ∃ w', World.exec Paging.I386.exampleLayout ⟨⟨pmm, vmm⟩, []⟩ (.get next 0x1000) = .ok w' ∧
      w'.system.pmm = pmm₁ ∧ Sound Paging.I386.exampleLayout w'.system.vmm.space := by
  have sound := Paging.I386.setupPaging_sound setup
  obtain ⟨mapRange, vmm₁, answers, outcome⟩ :=
    @exec_onePage Paging.I386.exampleLayout ⟨⟨pmm, vmm⟩, []⟩ l next rep sound
  have mapped : mapRange = fun _ => .mapped next := by
    rcases answers with
      ⟨spare, -, -⟩ | ⟨-, -, mapped | ⟨-, phys, result, virt, other, word, failed, maps⟩⟩
    · exact absurd spare full
    · exact mapped
    · obtain ⟨s', succeeds⟩ := setup_maps_chunk setup word
      rw [succeeds] at maps
      cases maps
      exact absurd rfl failed
  subst mapped
  rcases outcome with ⟨fault, stops, -⟩ | ⟨result, stored, w', returns, returned, fine⟩
  · rw [step] at stops
    cases stops
  · rw [step] at returns
    cases returns
    exact ⟨w', returned, rfl, fine⟩

/-- Requests for single pages after booting with a well-formed list: the pool grows once by a page
that is not clear, and a later request does not return. -/
theorem run_not_contract_dirty : ∃ (vmm : Paging.Vmm Tables) (ops : List Op),
    Paging.I386.setupPaging Paging.I386.exampleLayout = .ok vmm ∧
    RepInv (Pmm.ofBlocks PhysMem.crowded) ∧
    World.Along Paging.I386.exampleLayout World.Legal
      ⟨⟨Pmm.ofBlocks PhysMem.crowded, vmm⟩, []⟩ ops ∧
    ∃ fault ≠ .abort, World.run Paging.I386.exampleLayout
      ⟨⟨Pmm.ofBlocks PhysMem.crowded, vmm⟩, []⟩ ops = .error fault := by
  have full : ¬ (Pmm.ofBlocks PhysMem.crowded).headersInUse + 1 <
      (Pmm.ofBlocks PhysMem.crowded).headersAllocated := by decide +kernel
  obtain ⟨vmm, setup, -⟩ := Paging.I386.setupPaging_returns Paging.I386.exampleLayout
  obtain ⟨requested, unsealed, only, spare⟩ := PhysMem.afterDirtyRequest_spec
  obtain ⟨w₁, step, state, sound⟩ :=
    exec_full setup PhysMem.repInv_crowded.1.rep full requested
  have rep := (PhysMem.repInv_crowded.1.exec requested).represented.rep
  rw [← state] at rep unsealed only spare
  obtain ⟨m, fault, other, stopped⟩ := PhysMem.exhaust
    (fun fine rep => requests_getMem rep fine) 145 sound rep unsealed only spare (by decide)
  refine ⟨vmm, .get (some 7) 0x1000 :: List.replicate m (.get none 0x1000), setup,
    PhysMem.repInv_crowded, ?_, fault, other, ?_⟩
  · apply along_legal_get
    intro op member
    rcases List.mem_cons.mp member with rfl | later
    · exact ⟨some 7, 0x1000, rfl, by decide, by decide⟩
    · rw [List.eq_of_mem_replicate later]
      exact ⟨none, 0x1000, rfl, by decide, by decide⟩
  · rw [World.run, step, ok_bind]
    exact stopped

end FelineOS.Mem
