import FelineOS.Verif.PmmAreas

/-!
# No lasting fragmentation

A run of requests and releases keeps a ledger of the areas that are out. Each request splits
at most one free header and enters its start; each release frees the header that starts
there and merges it with its neighbours. The block list with everything that is out put back
is then always the initial one (`Library.Ledger`), so a run that ends with an empty ledger
ends with the initial list.
-/

namespace FelineOS.PhysMem

open Library

/-- One call of a client that gives back what it got. A request hands out at least one page:
since ranges are made of pages, one byte that was free and is handed out tells. No call
allocates a header chunk. -/
inductive Trade : Pmm × List Area → Pmm × List Area → Prop where
  | got {s s' : Pmm} {held : List Area} {mapRange : MapRange} {len : UInt32}
      {addr x : Nat}
      (returned : s.exec (.getAny mapRange len) = .ok (.success, some addr, s'))
      (wasFree : FreeAt s.blocks x) (isUsed : UsedAt s'.blocks x)
      (chunks : s'.chunkNext.length = s.chunkNext.length) :
      Trade (s, held) (s', ⟨addr, len.toNat⟩ :: held)
  | gave {s s' : Pmm} {held : List Area} {addr len : UInt32} {result : PmmResult}
      {stored : Option Nat}
      (out : ⟨addr.toNat, len.toNat⟩ ∈ held)
      (returned : s.exec (.free addr len) = .ok (result, stored, s')) :
      Trade (s, held) (s', held.erase ⟨addr.toNat, len.toNat⟩)

variable {s s' : Pmm} {held : List Area} {original : List Block}

/-- Striking an area off strikes its address off, when no address occurs twice. -/
theorem map_addr_erase {a : Area} (member : a ∈ held) (nodup : (held.map Area.addr).Nodup) :
    (held.erase a).map Area.addr = (held.map Area.addr).erase a.addr := by
  induction held with
  | nil => cases member
  | cons first rest ih =>
    obtain ⟨fresh, nodup⟩ := List.nodup_cons.mp nodup
    by_cases same : first = a
    · subst same
      simp
    · have later : a ∈ rest := (List.mem_cons.mp member).resolve_left (Ne.symm same)
      have apart : first.addr ≠ a.addr := by
        intro equal
        exact fresh (equal ▸ List.mem_map_of_mem later)
      rw [List.erase_cons_tail (by simpa using same), List.map_cons, List.map_cons,
        List.erase_cons_tail (by simpa using apart), ih later nodup]

/-- A request enters its area. -/
theorem Rep.ledger_got {l : List Nat} {mapRange : MapRange} {len : UInt32} {addr x : Nat}
    (rep : Rep s l) (ledger : Ledger original (held.map Area.addr) s.blocks)
    (returned : s.exec (.getAny mapRange len) = .ok (.success, some addr, s'))
    (wasFree : FreeAt s.blocks x) (isUsed : UsedAt s'.blocks x)
    (chunks : s'.chunkNext.length = s.chunkNext.length) :
    Ledger original (addr :: held.map Area.addr) s'.blocks := by
  obtain ⟨i, l', member, fits, stored, reserved⟩ := rep.getMemAreaAny_success returned
  obtain rfl : addr = (s.hdr i).memory := Option.some.inj stored
  rw [rep.blocks_eq] at ledger wasFree
  rw [reserved.rep.blocks_eq] at isUsed ⊢
  exact ledger.reserve rep.layout (reserved.alone chunks) wasFree isUsed

/-- A release strikes its area off. -/
theorem Rep.ledger_gave {l : List Nat} {addr len : UInt32} {result : PmmResult}
    {stored : Option Nat} (rep : Rep s l)
    (ledger : Ledger original (held.map Area.addr) s.blocks)
    (out : ⟨addr.toNat, len.toNat⟩ ∈ held)
    (returned : s.exec (.free addr len) = .ok (result, stored, s')) :
    Ledger original ((held.map Area.addr).erase addr.toNat) s'.blocks := by
  have listed : addr.toNat ∈ held.map Area.addr := List.mem_map_of_mem out
  rw [rep.blocks_eq] at ledger
  obtain ⟨b, member, used, filled, start⟩ := ledger.backed _ listed
  have has : b.Has addr.toNat := by
    simp only [Block.Has, Block.stop]
    omega
  simp only [Pmm.exec] at returned
  have spec := rep.freeMemArea_spec addr.toNat len.toNat
  generalize s.freeMemArea addr.toNat len.toNat = outcome at spec returned
  cases spec with
  | missed outside => exact absurd ⟨b, member, has⟩ outside
  | partly i inside here beyond => cases returned
  | idle i inside here free =>
    obtain rfl := rep.layout.unique member (List.mem_map_of_mem inside) has here
    simp only [PhysMemHeader.block, free] at used
    contradiction
  | freed i s₁ l' inside here within rep' chunks releases =>
    cases returned
    rw [rep'.blocks_eq]
    exact ledger.release rep.layout releases listed here

/-- Every call keeps the ledger. -/
theorem Trade.ledger {before after : Pmm × List Area} (trade : Trade before after)
    (represented : Represented before.1)
    (ledger : Ledger original (before.2.map Area.addr) before.1.blocks) :
    Represented after.1 ∧ Ledger original (after.2.map Area.addr) after.1.blocks := by
  cases trade with
  | got returned wasFree isUsed chunks =>
    exact ⟨(represented.exec returned).represented,
      represented.rep.ledger_got ledger returned wasFree isUsed chunks⟩
  | gave out returned =>
    refine ⟨(represented.exec returned).represented, ?_⟩
    rw [map_addr_erase out ledger.nodup]
    exact represented.rep.ledger_gave ledger out returned

/-- Requests and releases in any order, each area given back once, leave the list of ranges as
it was, when no two free neighbours of it touch. -/
theorem blocks_restored (start : Represented s) (settled : Coalesced s.blocks)
    (run : Relation.ReflTransGen Trade (s, []) (s', [])) : s'.blocks = s.blocks := by
  have kept : ∀ {after : Pmm × List Area}, Relation.ReflTransGen Trade (s, []) after →
      Represented after.1 ∧ Ledger s.blocks (after.2.map Area.addr) after.1.blocks := by
    intro after run
    induction run with
    | refl => exact ⟨start, Ledger.open settled⟩
    | tail _ trade ih => exact trade.ledger ih.1 ih.2
  exact (kept run).2.close

/-- Two pages out of four, given back in the order they were got. -/
theorem blocks_restored_twoPages : ∃ s',
    Relation.ReflTransGen Trade (Pmm.ofBlocks [⟨0x100000, 0x4000, false⟩], []) (s', []) ∧
      s'.blocks = (Pmm.ofBlocks [⟨0x100000, 0x4000, false⟩]).blocks := by
  let s₀ := Pmm.ofBlocks [⟨0x100000, 0x4000, false⟩]
  let s₁ := stateAfter s₀ (.getAny (fun _ => .failed) 0x1000)
  let s₂ := stateAfter s₁ (.getAny (fun _ => .failed) 0x800)
  let s₃ := stateAfter s₂ (.free 0x100000 0x1000)
  let s₄ := stateAfter s₃ (.free 0x101000 0x800)
  have first : Trade (s₀, []) (s₁, [⟨0x100000, 0x1000⟩]) :=
    @Trade.got _ _ _ (fun _ => .failed) 0x1000 0x100000 0x100000
      (by decide +kernel) (by decide +kernel) (by decide +kernel) (by decide +kernel)
  have second : Trade (s₁, [⟨0x100000, 0x1000⟩]) (s₂, [⟨0x101000, 0x800⟩, ⟨0x100000, 0x1000⟩]) :=
    @Trade.got _ _ _ (fun _ => .failed) 0x800 0x101000 0x101000
      (by decide +kernel) (by decide +kernel) (by decide +kernel) (by decide +kernel)
  have third : Trade (s₂, [⟨0x101000, 0x800⟩, ⟨0x100000, 0x1000⟩]) (s₃, [⟨0x101000, 0x800⟩]) :=
    @Trade.gave _ _ _ 0x100000 0x1000 .success none (by decide) (by decide +kernel)
  have fourth : Trade (s₃, [⟨0x101000, 0x800⟩]) (s₄, []) :=
    @Trade.gave _ _ _ 0x101000 0x800 .success none (by decide) (by decide +kernel)
  have run : Relation.ReflTransGen Trade (s₀, []) (s₄, []) :=
    (((Relation.ReflTransGen.single first).tail second).tail third).tail fourth
  refine ⟨s₄, run, blocks_restored (repInv_ofBlocks (by decide) (by decide)).1 ?_ run⟩
  rw [blocks_ofBlocks (by decide)]
  exact List.isChain_singleton _

end FelineOS.PhysMem
