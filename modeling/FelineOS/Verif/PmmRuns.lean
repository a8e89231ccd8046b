import FelineOS.Spec.FirstChunk
import FelineOS.Verif.Release
import FelineOS.Verif.Reserve
import Mathlib.Logic.Relation

/-!
# Runs of the physical memory manager

One call takes a represented state to a represented state over the same bytes, or stops at
the explicit abort of `free_mem_area`, or is stuck on the chunk chain (`exec_spec`). Since
the chain stays sealed when the pages of new chunks read null, a run of such calls is stuck
nowhere.

The premise on the pages is needed: `get_header_chunk` leaves the `next` field of a new chunk
as it finds it. `exhaust` drives a state whose chain has no end into the next growth, where
`get_new_header` follows that field. It is about any system around the manager whose requests
reach it (`Requests`).
-/

namespace FelineOS.PhysMem

open Library

variable {s s' : Pmm} {l : List Nat}

/-- The call maps no page for a chunk that reads other than null in its `next` field. -/
def Call.Clean : Call → Prop
  | .getAny mapRange _ => mapRange.Clean
  | .getAt mapRange _ _ => mapRange.Clean
  | .free _ _ => True

/-- A call that returned in a represented state. -/
structure Returned (call : Call) (s : Pmm) (s' : Pmm) : Prop where
  /-- The list is still well formed. -/
  represented : Represented s'
  /-- No byte entered or left it. -/
  covered : ∀ x, Covered s'.blocks x ↔ Covered s.blocks x
  /-- The chunk chain still ends when the new pages read null. -/
  keepsSeal : call.Clean → s.Sealed → s'.Sealed

/-- A call that changes nothing. -/
theorem Rep.returned_same (rep : Rep s l) (call : Call) : Returned call s s :=
  ⟨⟨l, rep⟩, fun _ => Iff.rfl, fun _ sealed => sealed⟩

/-- A call that reserves a header. -/
theorem Reserved.returned {mapRange : MapRange} {i n : Nat} {l' : List Nat} {call : Call}
    (rep : Rep s l) (reserved : Reserved mapRange s l i n s' l')
    (clean : call.Clean → mapRange.Clean) : Returned call s s' := by
  refine ⟨⟨l', reserved.rep⟩, fun x => ?_, fun tidy => reserved.keepsSeal (clean tidy)⟩
  rw [rep.blocks_eq, reserved.rep.blocks_eq]
  exact reserved.reserves.covered

/-- One call in a represented state. -/
theorem Rep.exec_spec (rep : Rep s l) (call : Call) :
    (∃ result stored s', s.exec call = .ok (result, stored, s') ∧ Returned call s s') ∨
      s.exec call = .error .abort ∨ Stuck s l (s.exec call) := by
  cases call with
  | getAny mapRange len =>
    rcases rep.getMemAreaAny_spec mapRange len.toNat with ⟨-, refused⟩ | ⟨i, member, fits, found⟩
    · exact Or.inl ⟨_, _, s, refused, rep.returned_same _⟩
    · rcases found with ⟨s', l', reserved, returned⟩ | stuck
      · exact Or.inl ⟨_, _, s', returned, reserved.returned rep id⟩
      · exact Or.inr (Or.inr stuck)
  | getAt mapRange addr len =>
    simp only [Pmm.exec]
    rcases rep.getMemAreaAt_spec mapRange addr.toNat len.toNat with
      ⟨-, refused⟩ | ⟨i, reached, free, fits, found⟩
    · rw [refused]
      exact Or.inl ⟨_, _, s, rfl, rep.returned_same _⟩
    · rcases found with ⟨s', l', reserved, returned⟩ | stuck
      · rw [returned]
        exact Or.inl ⟨_, _, s', rfl, reserved.returned rep id⟩
      · exact Or.inr (Or.inr (stuck.bind _))
  | free addr len =>
    simp only [Pmm.exec]
    have spec := rep.freeMemArea_spec addr.toNat len.toNat
    generalize s.freeMemArea addr.toNat len.toNat = outcome at spec
    cases spec with
    | missed outside => exact Or.inl ⟨_, _, s, rfl, rep.returned_same _⟩
    | partly i member has beyond => exact Or.inr (Or.inl rfl)
    | idle i member has free => exact Or.inl ⟨_, _, s, rfl, rep.returned_same _⟩
    | freed i s' l' member has within rep' chunks releases =>
      refine Or.inl ⟨_, _, s', rfl, ⟨l', rep'⟩, fun x => ?_, fun _ sealed => ?_⟩
      · rw [rep.blocks_eq, rep'.blocks_eq]
        exact releases.covered
      · unfold Pmm.Sealed
        rw [chunks]
        exact sealed

/-- A call that returns keeps the state represented, whatever `map_range` did. -/
theorem Represented.exec {call : Call} {result : PmmResult} {stored : Option Nat}
    (represented : Represented s) (step : s.exec call = .ok (result, stored, s')) :
    Returned call s s' := by
  obtain ⟨l, rep⟩ := represented
  rcases rep.exec_spec call with ⟨_, _, _, same, returned⟩ | stopped | stuck
  · rw [step] at same
    cases same
    exact returned
  · rw [step] at stopped
    contradiction
  · rw [step] at stuck
    obtain ⟨-, -, stop | stop⟩ := stuck <;> contradiction

/-- In a sealed state a call returns or aborts explicitly. -/
theorem RepInv.exec (inv : RepInv s) (call : Call) :
    (∃ result stored s', s.exec call = .ok (result, stored, s') ∧ Returned call s s') ∨
      s.exec call = .error .abort := by
  rcases inv.1.rep.exec_spec call with returned | stopped | ⟨unsealed, -⟩
  · exact Or.inl returned
  · exact Or.inr stopped
  · exact absurd inv.2 unsealed

/-- A run of calls whose new chunks read null in their `next` field keeps the invariant; the
explicit abort of `free_mem_area` is the only way it can stop. -/
theorem run_kept (start : RepInv s) (calls : List Call) (clean : ∀ call ∈ calls, call.Clean) :
    s.run calls = .error .abort ∨ ∃ s', s.run calls = .ok s' ∧ Kept s s' := by
  induction calls generalizing s with
  | nil => exact Or.inr ⟨s, rfl, start.kept fun _ => Iff.rfl⟩
  | cons call calls ih =>
    rcases start.exec call with ⟨result, stored, s₁, step, returned⟩ | stopped
    · have sealed := returned.keepsSeal (clean call List.mem_cons_self) start.2
      have rest : s.run (call :: calls) = s₁.run calls := by
        simp only [Pmm.run, step, ok_bind]
      rw [rest]
      rcases ih ⟨returned.represented, sealed⟩
        (fun call member => clean call (List.mem_cons_of_mem _ member)) with
        aborted | ⟨s', ran, kept⟩
      · exact Or.inl aborted
      · exact Or.inr ⟨s', ran, kept.inv.kept fun x => (kept.covered x).trans (returned.covered x)⟩
    · left
      simp only [Pmm.run, stopped, error_bind]

/-- Four free pages, of which a run takes two and gives one back. -/
theorem run_kept_fourPages :
    RepInv (Pmm.ofBlocks [⟨0x100000, 0x4000, false⟩]) ∧
      ((Pmm.ofBlocks [⟨0x100000, 0x4000, false⟩]).run
          [.getAny (fun _ => .failed) 0x1000, .getAny (fun _ => .failed) 1,
            .free 0x100000 0x1000] = .error .abort ∨
        ∃ s', (Pmm.ofBlocks [⟨0x100000, 0x4000, false⟩]).run
          [.getAny (fun _ => .failed) 0x1000, .getAny (fun _ => .failed) 1,
            .free 0x100000 0x1000] = .ok s' ∧
          Kept (Pmm.ofBlocks [⟨0x100000, 0x4000, false⟩]) s') := by
  have inv : RepInv (Pmm.ofBlocks [⟨0x100000, 0x4000, false⟩]) :=
    repInv_ofBlocks (by decide) (by decide)
  refine ⟨inv, run_kept inv _ ?_⟩
  simp [Call.Clean, MapRange.Clean]

/-! ## A chunk chain without an end -/

/-- The free blocks of a list. -/
def freeBlocks (bs : List Block) : List Block := bs.filter fun b => !b.used

/-- A part of a list with one free block, around that block. -/
theorem freeBlocks_middle {b c : Block} {pre post : List Block}
    (only : freeBlocks (pre ++ b :: post) = [c]) (free : b.used = false) :
    b = c ∧ freeBlocks pre = [] ∧ freeBlocks post = [] := by
  unfold freeBlocks at *
  rw [List.filter_append, List.filter_cons, if_pos (by simp [free])] at only
  cases left : pre.filter fun b => !b.used with
  | nil => simpa [left] using only
  | cons d ds => simp [left] at only

/-- A request for one page in a state whose chunk chain has no end and with a single block that
is free. -/
theorem Rep.onePage_spec (rep : Rep s l) (unsealed : ¬ s.Sealed) {b : Block}
    (only : freeBlocks (s.blocksOf l) = [b]) (large : pageSize < b.size) (mapRange : MapRange) :
    s.slots.length ≤ l.length + 1 ∧
        (∃ fault ≠ .abort, s.exec (.getAny mapRange 0x1000) = .error fault) ∨
      ∃ result stored s' l', s.exec (.getAny mapRange 0x1000) = .ok (result, stored, s') ∧
        Rep s' l' ∧ ¬ s'.Sealed ∧ freeBlocks (s'.blocksOf l') = [b.back pageSize] ∧
        l'.length = l.length + 1 ∧ s'.slots.length = s.slots.length := by
  have rounded : roundUpToPage (0x1000 : UInt32).toNat = pageSize := by decide
  have listed : b ∈ s.blocksOf l ∧ b.used = false := by
    have member : b ∈ freeBlocks (s.blocksOf l) := by rw [only]; exact List.mem_singleton_self b
    simpa [freeBlocks] using member
  have found := rep.getMemAreaAny_spec mapRange (0x1000 : UInt32).toNat
  rw [rounded] at found
  rcases found with ⟨nothing, -⟩ | ⟨i, member, ⟨free, -⟩, outcome⟩
  · exfalso
    obtain ⟨j, inside, rfl⟩ := List.mem_map.mp listed.1
    refine nothing j inside ⟨listed.2, ?_⟩
    rw [rounded]
    exact Nat.le_of_lt large
  · have same : (s.hdr i).block = b := by
      obtain ⟨xs, ys, rfl⟩ := List.append_of_mem member
      rw [blocksOf_middle] at only
      exact (freeBlocks_middle only free).1
    have short : pageSize < (s.hdr i).size := by
      rw [← same] at large
      exact large
    rcases outcome with ⟨s', l', reserved, returned⟩ | ⟨-, full, stopped⟩
    · right
      have spare := (reserved.ready.resolve_left (Nat.ne_of_gt short)).resolve_left unsealed
      obtain ⟨count, chunks⟩ := reserved.divided spare short
      refine ⟨_, _, s', l', returned, reserved.rep, ?_, ?_, count, ?_⟩
      · unfold Pmm.Sealed at *
        rwa [chunks]
      · have alone := reserved.alone (by rw [chunks])
        have lengths : (s'.blocksOf l').length = (s.blocksOf l).length + 1 := by
          simpa [Pmm.blocksOf] using count
        rw [same] at alone
        generalize s.blocksOf l = bs at *
        generalize s'.blocksOf l' = cs at *
        cases alone with
        | whole _ _ left right =>
          have left := left.length_eq
          have right := right.length_eq
          simp only [List.length_append, List.length_cons] at lengths
          omega
        | cut free _ left right =>
          rw [List.forall₂_eq_eq_eq] at left right
          subst left right
          obtain ⟨-, before, behind⟩ := freeBlocks_middle only free
          unfold freeBlocks at *
          simp [List.filter_append, before, behind, Block.front, Block.back]
      · rw [rep.chunks, reserved.rep.chunks, chunks]
    · refine Or.inl ⟨full, ?_⟩
      rcases stopped with stop | stop
      · exact ⟨.undefined, by decide, stop⟩
      · exact ⟨.divergence, by decide, stop⟩

/-- A state `u` of a system around the manager, and what `m` requests for one page make of it. The
first request does to the manager what `get_mem_area(&addr, 0x1000)` does. -/
def Requests {σ : Type} (pmm : σ → Pmm) (good : σ → Prop) (run : Nat → σ → Except Fault σ)
    (u : σ) : Prop :=
  ∃ mapRange,
    (∃ fault, (pmm u).exec (.getAny mapRange 0x1000) = .error fault ∧
      ∀ m, run (m + 1) u = .error fault) ∨
    ∃ result stored u', (pmm u).exec (.getAny mapRange 0x1000) = .ok (result, stored, pmm u') ∧
      good u' ∧ ∀ m, run (m + 1) u = run m u'

section Exhaustion

variable {σ : Type} {pmm : σ → Pmm} {good : σ → Prop} {run : Nat → σ → Except Fault σ} {u : σ}
  {b : Block}

/-- One request around the manager in a state whose chunk chain has no end. -/
theorem Requests.cases (requests : Requests pmm good run u) (rep : Rep (pmm u) l)
    (unsealed : ¬ (pmm u).Sealed) (only : freeBlocks ((pmm u).blocksOf l) = [b])
    (large : pageSize < b.size) :
    (∃ fault ≠ .abort, run 1 u = .error fault) ∨
    ∃ u' l', good u' ∧ (∀ m, run (m + 1) u = run m u') ∧ Rep (pmm u') l' ∧ ¬ (pmm u').Sealed ∧
      freeBlocks ((pmm u').blocksOf l') = [b.back pageSize] ∧ l'.length = l.length + 1 ∧
      (pmm u').slots.length = (pmm u).slots.length := by
  obtain ⟨mapRange, outcome⟩ := requests
  rcases rep.onePage_spec unsealed only large mapRange with
    ⟨-, fault, other, stops⟩ | ⟨_, _, s', l', returns, kept⟩
  · rcases outcome with ⟨same, stopped, runs⟩ | ⟨_, _, _, returned, -⟩
    · rw [stopped] at stops
      cases stops
      exact Or.inl ⟨fault, other, runs 0⟩
    · rw [returned] at stops
      cases stops
  · rcases outcome with ⟨same, stopped, -⟩ | ⟨_, _, u', returned, fine, runs⟩
    · rw [stopped] at returns
      cases returns
    · rw [returned] at returns
      cases returns
      exact Or.inr ⟨u', l', fine, runs, kept⟩

/-- Asking for one page after the other in a state whose chunk chain has no end: when a single
block is free and large enough, some request comes to the end of the pool and does not return. -/
theorem exhaust (requests : ∀ {u l}, good u → Rep (pmm u) l → Requests pmm good run u) (k : Nat)
    (fine : good u) (rep : Rep (pmm u) l) (unsealed : ¬ (pmm u).Sealed)
    (only : freeBlocks ((pmm u).blocksOf l) = [b])
    (spare : (pmm u).slots.length ≤ l.length + 1 + k) (large : pageSize * (k + 2) ≤ b.size) :
    ∃ m fault, fault ≠ .abort ∧ run m u = .error fault := by
  induction k generalizing u l b with
  | zero =>
    rcases (requests fine rep).cases rep unsealed only (by unfold pageSize at *; omega) with
      ⟨fault, other, stopped⟩ | ⟨u', l', -, -, rep', -, -, count, slots⟩
    · exact ⟨1, fault, other, stopped⟩
    · have room := rep'.room
      omega
  | succ k ih =>
    rcases (requests fine rep).cases rep unsealed only (by unfold pageSize at *; omega) with
      ⟨fault, other, stopped⟩ | ⟨u', l', fine', runs, rep', unsealed', only', count, slots⟩
    · exact ⟨1, fault, other, stopped⟩
    · have smaller : pageSize * (k + 2) ≤ (b.back pageSize).size := by
        simp only [Block.back]
        unfold pageSize at *
        omega
      obtain ⟨m, fault, other, stopped⟩ := ih fine' rep' unsealed' only' (by omega) smaller
      exact ⟨m + 1, fault, other, (runs m).trans stopped⟩

end Exhaustion

/-- Requests to the manager itself come to the end of the pool. -/
theorem Rep.run_exhausts {b : Block} (rep : Rep s l) (mapRange : MapRange) (k : Nat)
    (unsealed : ¬ s.Sealed) (only : freeBlocks (s.blocksOf l) = [b])
    (spare : s.slots.length ≤ l.length + 1 + k) (large : pageSize * (k + 2) ≤ b.size) :
    ∃ m fault, fault ≠ .abort ∧
      s.run (List.replicate m (.getAny mapRange 0x1000)) = .error fault := by
  have requests : ∀ s : Pmm, Requests id (fun _ => True)
      (fun m s => s.run (List.replicate m (.getAny mapRange 0x1000))) s := by
    intro s
    refine ⟨mapRange, ?_⟩
    simp only [List.replicate_succ, Pmm.run, id_eq]
    cases s.exec (.getAny mapRange 0x1000) with
    | error fault => exact Or.inl ⟨fault, rfl, fun _ => rfl⟩
    | ok answer => exact Or.inr ⟨answer.1, answer.2.1, answer.2.2, rfl, trivial, fun _ => rfl⟩
  exact exhaust (fun _ _ => requests _) k trivial rep unsealed only spare large

/-- Single pages side by side that are handed out. -/
def takenPages (start n : Nat) : List Block :=
  (List.range n).map fun k => ⟨start + 0x1000 * k, 0x1000, true⟩

/-- Such pages behind blocks that lie side by side. -/
theorem layout_takenPages {front : List Block} {start n : Nat}
    (layout : Layout pageSize roundLimit front) (before : ∀ b ∈ front, b.stop ≤ start)
    (aligned : pageSize ∣ start) (below : start + pageSize * n ≤ roundLimit) :
    Layout pageSize roundLimit (front ++ takenPages start n) := by
  unfold pageSize at aligned below
  refine ⟨?_, ?_, List.pairwise_append.mpr ⟨layout.apart, ?_, ?_⟩⟩
  · intro b listed
    rcases List.mem_append.mp listed with old | new
    · exact layout.aligned b old
    · obtain ⟨k, -, rfl⟩ := List.mem_map.mp new
      unfold pageSize
      simp only
      omega
  · intro b listed
    rcases List.mem_append.mp listed with old | new
    · exact layout.below b old
    · obtain ⟨k, small, rfl⟩ := List.mem_map.mp new
      have small := List.mem_range.mp small
      unfold Block.stop
      simp only
      omega
  · refine List.pairwise_map.mpr (List.pairwise_lt_range.imp ?_)
    intro j k ordered
    simp only [Block.apart_iff, Block.stop]
    omega
  · intro a old b new
    have stop := before a old
    obtain ⟨k, -, rfl⟩ := List.mem_map.mp new
    simp only [Block.apart_iff]
    omega

/-- A pool with one unused header: two free headers, the first of them large, and pages that
are handed out. -/
def crowded : List Block :=
  ⟨0x100000, 0x1000000, false⟩ :: ⟨0x10000, 0x1000, false⟩ ::
    (List.range 143).map fun k => ⟨0x2000000 + 0x1000 * k, 0x1000, true⟩

/-- The blocks lie side by side. -/
theorem crowded_layout : Layout pageSize roundLimit crowded :=
  have front : Layout pageSize roundLimit
      [⟨0x100000, 0x1000000, false⟩, ⟨0x10000, 0x1000, false⟩] := by decide
  have below : 0x2000000 + pageSize * 143 ≤ roundLimit := by decide
  layout_takenPages front (by decide) (by decide) below

/-- The first request for a page, with a page for the new chunk that is not clear. -/
def dirtyRequest : Call := .getAny (fun _ => .mapped (some 7)) 0x1000

/-- The state that request leaves. -/
def afterDirtyRequest : Pmm :=
  match (Pmm.ofBlocks crowded).exec dirtyRequest with
  | .ok (_, _, s) => s
  | .error _ => Pmm.ofBlocks crowded

/-- That request returns in a state with one free block, an unused chunk of headers and a chunk
chain without an end. -/
theorem afterDirtyRequest_spec :
    (Pmm.ofBlocks crowded).exec dirtyRequest = .ok (.success, some 0x100000, afterDirtyRequest) ∧
    ¬ afterDirtyRequest.Sealed ∧
    freeBlocks (afterDirtyRequest.blocksOf afterDirtyRequest.chain) =
      [⟨0x101000, 0xFFF000, false⟩] ∧
    afterDirtyRequest.slots.length ≤ afterDirtyRequest.chain.length + 1 + 145 := by
  decide +kernel

/-- The crowded pool is well formed. -/
theorem repInv_crowded : RepInv (Pmm.ofBlocks crowded) :=
  repInv_ofBlocks (by decide +kernel) crowded_layout

/-- Requests for single pages from a well-formed list: the pool grows once by a page that is
not clear, and at the next growth `get_new_header` leaves the chunks. -/
theorem run_not_kept_dirty : RepInv (Pmm.ofBlocks crowded) ∧
    ∃ calls fault, fault ≠ .abort ∧ (Pmm.ofBlocks crowded).run calls = .error fault := by
  obtain ⟨step, unsealed, only, spare⟩ := afterDirtyRequest_spec
  have rep := (repInv_crowded.1.exec step).represented.rep
  obtain ⟨m, fault, other, stopped⟩ :=
    rep.run_exhausts (fun _ => .failed) 145 unsealed only spare (by decide +kernel)
  refine ⟨repInv_crowded, dirtyRequest :: List.replicate m (.getAny (fun _ => .failed) 0x1000),
    fault, other, ?_⟩
  simp only [Pmm.run, step, ok_bind]
  exact stopped

end FelineOS.PhysMem
