import FelineOS.Kernel.WalkStackArm
import FelineOS.Library.Frames
import FelineOS.Library.WordTable
import FelineOS.Verif.InterruptArm

/-!
# What a walk of the stack finds on the ARM

The frames of a stack are linked through the third word below each frame pointer, with the return
address in the first word below it. The comparison with the number of words in the array comes
before every store, so a walk never stores more. A walk that starts in `walk_stack` itself finds
the function's own frame first.
-/

namespace FelineOS.Arm

open Library Memory

/-- A write to a register leaves the memory. -/
@[simp] theorem set_memory (s : Cpu) (r : Reg) (word : BitVec 32) :
    (s.set r word).memory = s.memory := rfl

/-! ## The loop -/

/-- The body of the loop stores the address of one call and goes on to the next frame. -/
theorem walkBody_spec (s : Cpu) :
    (runWalk walkBody s).memory =
        s.memory.store (s.regs .r4) (s.memory.load (s.regs .r5 + -4#32) - 4#32) ∧
      (runWalk walkBody s).regs .r5 =
        (s.memory.store (s.regs .r4) (s.memory.load (s.regs .r5 + -4#32) - 4#32)).load
          (s.regs .r5 + -12#32) ∧
      (runWalk walkBody s).regs .r4 = s.regs .r4 + 4#32 ∧
      (runWalk walkBody s).regs .r0 = s.regs .r0 + 1#32 ∧
      ∀ r, r ∉ [Reg.r0, .r4, .r5, .r6] → (runWalk walkBody s).regs r = s.regs r := by
  refine ⟨?_, ?_, ?_, ?_, ?_⟩
  case refine_5 =>
    intro r other
    simp only [List.mem_cons, List.not_mem_nil, or_false, not_or] at other
    simp [walkBody, runWalk, WalkInstr.exec, Instr.exec, set_regs, other]
  all_goals
    simp [walkBody, runWalk, WalkInstr.exec, Instr.exec, set_regs, BitVec.sub_eq_add_neg]

/-- A walk stores the addresses of the calls, one word after the other, and counts them. -/
theorem walk_spec {frames : List (BitVec 32 × BitVec 32)} {fuel : Nat} {s : Cpu}
    (chain : Frames s.memory (-12#32) (-4#32) (s.regs .r5) frames) (enough : frames.length < fuel)
    (apart : ∀ frame ∈ frames, ∀ k < min frames.length (s.regs .r1 - s.regs .r0).toNat,
      Apart (frame.1 + -12#32) (slot (s.regs .r4) k) ∧
        Apart (frame.1 + -4#32) (slot (s.regs .r4) k)) :
    ∃ after, walk fuel s = some after ∧
      after.regs .r0 =
        s.regs .r0 + BitVec.ofNat 32 (min frames.length (s.regs .r1 - s.regs .r0).toNat) ∧
      after.memory = s.memory.storeWords (s.regs .r4)
        ((callSites 4#32 frames).take (min frames.length (s.regs .r1 - s.regs .r0).toNat)) ∧
      ∀ r, r ∉ [Reg.r0, .r4, .r5, .r6] → after.regs r = s.regs r := by
  induction frames generalizing fuel s with
  | nil =>
    cases fuel with
    | zero => exact absurd enough (Nat.not_lt_zero _)
    | succ fuel =>
      rw [walk, if_pos chain.eq_null, ite_self, List.length_nil, Nat.zero_min]
      exact ⟨s, rfl, (BitVec.add_zero _).symm, rfl, fun r _ => rfl⟩
  | cons frame frames ih =>
    cases fuel with
    | zero => exact absurd enough (Nat.not_lt_zero _)
    | succ fuel =>
      obtain ⟨present, rfl, next⟩ := chain.uncons
      obtain ⟨memory, r5, r4, r0, others⟩ := walkBody_spec s
      rw [List.length_cons] at enough apart ⊢
      rw [walk]
      by_cases full : s.regs .r1 = s.regs .r0
      · -- the array is full
        have zero : min (frames.length + 1) (s.regs .r1 - s.regs .r0).toNat = 0 := by
          rw [full, BitVec.sub_self]
          exact Nat.min_zero _
        rw [if_pos full, zero]
        exact ⟨s, rfl, (BitVec.add_zero _).symm, rfl, fun r _ => rfl⟩
      · have r1 := others .r1 (by decide)
        have more : min (frames.length + 1) (s.regs .r1 - s.regs .r0).toNat =
            min frames.length ((runWalk walkBody s).regs .r1 -
              (runWalk walkBody s).regs .r0).toNat + 1 := by
          have fewer : (s.regs .r1 - s.regs .r0).toNat =
              (s.regs .r1 - (s.regs .r0 + 1#32)).toNat + 1 := by bv_omega
          rw [r1, r0, fewer]
          exact Nat.add_min_add_right frames.length _ 1
        rw [if_neg full, if_neg present, more]
        rw [more] at apart
        have zero : slot (s.regs .r4) 0 = s.regs .r4 := BitVec.add_zero _
        have unread (frame) (member : frame ∈ (s.regs .r5, s.memory.load (s.regs .r5 + -4#32)) ::
            frames) := apart frame member 0 (Nat.zero_lt_succ _)
        rw [zero] at unread
        -- the frames that are left are read after the store
        have chained : Frames (runWalk walkBody s).memory (-12#32) (-4#32)
            ((runWalk walkBody s).regs .r5) frames := by
          rw [r5, memory, load_store_apart (unread _ (List.mem_cons_self ..)).1]
          apply next.congr
          intro frame member
          have apart := unread frame (List.mem_cons_of_mem _ member)
          rw [load_store_apart apart.1, load_store_apart apart.2]
          exact ⟨rfl, rfl⟩
        have here : slot (s.regs .r4) 1 = s.regs .r4 + 4#32 := rfl
        obtain ⟨after, walks, counted, written, kept⟩ :=
          ih chained (Nat.lt_of_succ_lt_succ enough) (by
            intro frame member k less
            rw [r4, ← here, slot_slot, Nat.add_comm]
            exact apart frame (List.mem_cons_of_mem _ member) (k + 1) (Nat.succ_lt_succ less))
        refine ⟨after, walks, ?_, ?_, ?_⟩
        · rw [counted, r0, BitVec.add_assoc, Nat.add_comm, BitVec.ofNat_add]
        · rw [written, memory, r4]
          rfl
        · intro r other
          rw [kept r other]
          exact others r other

/-! ## The function -/

/-- The memory with the stack frame of a call. -/
def walkMemory (s : Cpu) (pc returnAddress : BitVec 32) : Memory :=
  (s.memory.storeWords (s.regs .sp - 16#32)
    [s.regs .r11, s.regs .sp, returnAddress, pc]).storeWords (s.regs .sp - 28#32)
    [s.regs .r4, s.regs .r5, s.regs .r6]

/-- The words of the stack frame that are read. -/
theorem walkMemory_words (s : Cpu) (pc returnAddress : BitVec 32) :
    (walkMemory s pc returnAddress).load (s.regs .sp - 28#32) = s.regs .r4 ∧
      (walkMemory s pc returnAddress).load (s.regs .sp - 28#32 + 4#32) = s.regs .r5 ∧
      (walkMemory s pc returnAddress).load (s.regs .sp - 28#32 + 8#32) = s.regs .r6 ∧
      (walkMemory s pc returnAddress).load (s.regs .sp - 28#32 + 12#32) = s.regs .r11 ∧
      (walkMemory s pc returnAddress).load (s.regs .sp - 28#32 + 16#32) = s.regs .sp ∧
      (walkMemory s pc returnAddress).load (s.regs .sp - 28#32 + 20#32) = returnAddress := by
  -- all places are counted from the word below the frame
  have frame : s.regs .sp - 16#32 = s.regs .sp - 32#32 + 16#32 := by bv_omega
  have lowest : s.regs .sp - 28#32 = s.regs .sp - 32#32 + 4#32 := by bv_omega
  unfold walkMemory
  rw [frame, lowest]
  generalize s.regs .sp - 32#32 = base
  simp only [storeWords, BitVec.add_assoc, BitVec.reduceAdd]
  refine ⟨?_, ?_, ?_, ?_, ?_, ?_⟩
  all_goals
    simp (disch := (rw [apart_offsets]; decide)) only [load_store_apart, load_store]

/-- What is apart from the stack frame is as before. -/
theorem walkMemory_same (s : Cpu) (pc returnAddress : BitVec 32) {base : BitVec 32} {length : Nat}
    (apart : AreasApart base length (s.regs .sp - 28#32) 28) :
    Same (walkMemory s pc returnAddress) s.memory base length := by
  have place : s.regs .sp - 28#32 + BitVec.ofNat 32 12 = s.regs .sp - 16#32 := by bv_omega
  have frame := apart.part (by decide : 12 + 16 ≤ 28)
  have registers := apart.part (by decide : 0 + 12 ≤ 28)
  rw [place] at frame
  rw [BitVec.add_zero] at registers
  exact ((Same.refl s.memory base length).storeWords _ frame).storeWords _ registers

/-- The frame pointer that a walk starts with. -/
def WalkEntry.first (s : Cpu) : WalkEntry → BitVec 32
  | .walkStack => s.regs .sp - 4#32
  | .walkStackFrom => s.regs .r2

/-- The CPU in front of the loop. -/
theorem enter_spec (s : Cpu) (entry : WalkEntry) (pc returnAddress : BitVec 32) :
    (runWalk (entry.enter pc) (s.set .lr returnAddress)).memory = walkMemory s pc returnAddress ∧
      (runWalk (entry.enter pc) (s.set .lr returnAddress)).regs .sp = s.regs .sp - 28#32 ∧
      (runWalk (entry.enter pc) (s.set .lr returnAddress)).regs .r11 = s.regs .sp - 4#32 ∧
      (runWalk (entry.enter pc) (s.set .lr returnAddress)).regs .r4 = s.regs .r0 ∧
      (runWalk (entry.enter pc) (s.set .lr returnAddress)).regs .r0 = 0#32 ∧
      (runWalk (entry.enter pc) (s.set .lr returnAddress)).regs .r1 = s.regs .r1 ∧
      (runWalk (entry.enter pc) (s.set .lr returnAddress)).regs .r5 = entry.first s ∧
      ∀ r ∈ [Reg.r7, .r8, .r9, .r10],
        (runWalk (entry.enter pc) (s.set .lr returnAddress)).regs r = s.regs r := by
  have place : s.regs .sp - 16#32 - 12#32 = s.regs .sp - 28#32 := by bv_omega
  cases entry
  all_goals
    refine ⟨?_, ?_, ?_, ?_, ?_, ?_, ?_, ?_⟩
    all_goals
      simp [WalkEntry.enter, WalkEntry.setup, WalkEntry.first, walkFrame, runWalk, WalkInstr.exec,
        Instr.exec, set_regs, bytesOf, walkMemory, place]

/-- What `.done` loads. -/
theorem walkDone_run (x : Cpu) :
    (runWalk walkDone x).regs .r4 = x.memory.load (x.regs .sp) ∧
      (runWalk walkDone x).regs .r5 = x.memory.load (x.regs .sp + 4#32) ∧
      (runWalk walkDone x).regs .r6 = x.memory.load (x.regs .sp + 8#32) ∧
      (runWalk walkDone x).regs .r11 = x.memory.load (x.regs .r11 - 12#32) ∧
      (runWalk walkDone x).regs .sp = x.memory.load (x.regs .r11 - 12#32 + 4#32) ∧
      (runWalk walkDone x).pc = x.memory.load (x.regs .r11 - 12#32 + 8#32) ∧
      (runWalk walkDone x).regs .r0 = x.regs .r0 ∧
      (∀ r ∈ [Reg.r7, .r8, .r9, .r10], (runWalk walkDone x).regs r = x.regs r) ∧
      (runWalk walkDone x).memory = x.memory := by
  refine ⟨?_, ?_, ?_, ?_, ?_, ?_, ?_, ?_, ?_⟩
  all_goals
    simp [walkDone, runWalk, WalkInstr.exec, Instr.exec, set_regs, bytesOf, Cpu.loadRegs,
      Function.update_apply, BitVec.add_assoc]

/-- The frames that a walk finds, when there are certain ones on the stack of the caller. -/
def WalkEntry.found (s : Cpu) (returnAddress : BitVec 32)
    (frames : List (BitVec 32 × BitVec 32)) : WalkEntry → List (BitVec 32 × BitVec 32)
  | .walkStack => (s.regs .sp - 4#32, returnAddress) :: frames
  | .walkStackFrom => frames

/-- The frame pointer of the caller, or the third argument of the call. -/
def WalkEntry.caller (s : Cpu) : WalkEntry → BitVec 32
  | .walkStack => s.regs .r11
  | .walkStackFrom => s.regs .r2

/-- Where the function saves the frame pointer of its caller. -/
theorem link_place (sp : BitVec 32) : sp - 28#32 + 12#32 = sp - 4#32 + -12#32 := by bv_omega

/-- Where a frame has its return address. -/
theorem read_place (fp : BitVec 32) : fp - 12#32 + 8#32 = fp + -4#32 := by
  rw [BitVec.sub_eq_add_neg, BitVec.add_assoc]
  rfl

/-- Where the function saves its return address. -/
theorem ret_place (sp : BitVec 32) : sp - 28#32 + 20#32 = sp - 4#32 + -4#32 := by bv_omega

/-- The frames with the stack frame of the function. -/
theorem walkMemory_frames (s : Cpu) (entry : WalkEntry) (pc returnAddress : BitVec 32)
    {frames : List (BitVec 32 × BitVec 32)}
    (chain : Frames s.memory (-12#32) (-4#32) (entry.caller s) frames)
    (grounded : entry = .walkStack → s.regs .sp ≠ 4#32)
    (above : ∀ frame ∈ frames, AreasApart (frame.1 - 12#32) 12 (s.regs .sp - 28#32) 28) :
    Frames (walkMemory s pc returnAddress) (-12#32) (-4#32) (entry.first s)
      (entry.found s returnAddress frames) := by
  have kept : Frames (walkMemory s pc returnAddress) (-12#32) (-4#32) (entry.caller s) frames := by
    apply chain.congr
    intro frame member
    have same := walkMemory_same s pc returnAddress (above frame member)
    have link := same.load (by decide : 0 + 4 ≤ 12)
    have ret := same.load (by decide : 8 + 4 ≤ 12)
    have linkPlace : frame.1 - 12#32 + BitVec.ofNat 32 0 = frame.1 + -12#32 := by bv_omega
    have retPlace : frame.1 - 12#32 + BitVec.ofNat 32 8 = frame.1 + -4#32 := by bv_omega
    rw [linkPlace] at link
    rw [retPlace] at ret
    exact ⟨link, ret⟩
  cases entry with
  | walkStackFrom => exact kept
  | walkStack =>
    obtain ⟨-, -, -, fp, -, lr⟩ := walkMemory_words s pc returnAddress
    have present : s.regs .sp - 4#32 ≠ 0 := fun null =>
      grounded rfl ((BitVec.sub_eq_iff_eq_add.mp null).trans (BitVec.zero_add _))
    rw [link_place] at fp
    rw [ret_place] at lr
    unfold WalkEntry.caller at kept
    rw [← fp] at kept
    have framed := Frames.frame present kept
    rw [lr] at framed
    exact framed

/-- The registers that a function leaves as they are, by the calling convention. -/
def calleeSaved : List Reg := [.r4, .r5, .r6, .r7, .r8, .r9, .r10, .r11, .sp]

/-- A call of `walk_stack` or `walk_stack_from` stores the address of each call that is active, the
last one first, until the array is full or the frames end, and returns their number. It leaves the
registers of its caller and all memory but the array and its own stack frame. -/
theorem callWalk_finds_frames (s : Cpu) (entry : WalkEntry) (pc returnAddress : BitVec 32)
    {frames : List (BitVec 32 × BitVec 32)}
    (chain : Frames s.memory (-12#32) (-4#32) (entry.caller s) frames)
    (grounded : entry = .walkStack → s.regs .sp ≠ 4#32)
    {fuel count : Nat} (enough : (entry.found s returnAddress frames).length < fuel)
    (limited : count = min (entry.found s returnAddress frames).length (s.regs .r1).toNat)
    (above : ∀ frame ∈ frames, AreasApart (frame.1 - 12#32) 12 (s.regs .sp - 28#32) 28)
    (beside : ∀ frame ∈ frames, AreasApart (frame.1 - 12#32) 12 (s.regs .r0) (4 * count))
    (below : AreasApart (s.regs .r0) (4 * count) (s.regs .sp - 28#32) 28) :
    ∃ after, s.callWalk fuel entry pc returnAddress = some after ∧
      after.regs .r0 = BitVec.ofNat 32 count ∧
      after.memory.loadWords (s.regs .r0) count =
        (callSites 4#32 (entry.found s returnAddress frames)).take count ∧
      (∀ r ∈ calleeSaved, after.regs r = s.regs r) ∧ after.pc = returnAddress ∧
      ∀ base length, AreasApart base length (s.regs .r0) (4 * count) →
        AreasApart base length (s.regs .sp - 28#32) 28 →
        Same after.memory s.memory base length := by
  obtain ⟨memory, sp, r11, r4, r0, r1, r5, others⟩ := enter_spec s entry pc returnAddress
  have framed := walkMemory_frames s entry pc returnAddress chain grounded above
  have few : count ≤ (entry.found s returnAddress frames).length := by
    rw [limited]
    exact Nat.min_le_left _ _
  have taken := length_take_callSites 4#32 few
  have size := below.size_lt (by decide)
  -- no frame that is found is in the array
  have unwritten (frame) (member : frame ∈ entry.found s returnAddress frames) :
      AreasApart (frame.1 - 12#32) 12 (s.regs .r0) (4 * count) := by
    cases entry with
    | walkStackFrom => exact beside frame member
    | walkStack =>
      rcases List.mem_cons.mp member with rfl | member
      · have own := (below.part (by decide : 12 + 12 ≤ 28)).symm
        rw [link_place, ← BitVec.sub_eq_add_neg] at own
        exact own
      · exact beside frame member
  rw [← memory, ← r5] at framed
  obtain ⟨walked, walks, counted, written, kept⟩ := walk_spec framed enough (by
    intro frame member k less
    rw [r1, r0, BitVec.sub_zero, ← limited] at less
    rw [r4, ← read_place, ← BitVec.sub_eq_add_neg]
    have apart := unwritten frame member
    have link := apart.words (i := 0) (j := 4 * k) (by decide) (by omega)
    have ret := apart.words (i := 8) (j := 4 * k) (by decide) (by omega)
    rw [BitVec.add_zero] at link
    exact ⟨link, ret⟩)
  rw [r1, r0, BitVec.sub_zero, BitVec.zero_add, ← limited] at counted
  rw [r1, r0, BitVec.sub_zero, ← limited, r4, memory] at written
  obtain ⟨doneR4, doneR5, doneR6, doneR11, doneSp, donePc, doneR0, doneOthers, doneMemory⟩ :=
    walkDone_run walked
  rw [kept .sp (by decide), sp] at doneR4 doneR5 doneR6
  rw [kept .r11 (by decide), r11] at doneR11 doneSp donePc
  -- the stack frame is not in the array
  have saved {offset : Nat} (inside : offset + 4 ≤ 28) :
      walked.memory.load (s.regs .sp - 28#32 + BitVec.ofNat 32 offset) =
        (walkMemory s pc returnAddress).load (s.regs .sp - 28#32 + BitVec.ofNat 32 offset) := by
    rw [written]
    apply Same.load _ inside
    apply (Same.refl _ _ _).storeWords
    rw [taken]
    exact below.symm
  obtain ⟨frameR4, frameR5, frameR6, frameR11, frameSp, framePc⟩ :=
    walkMemory_words s pc returnAddress
  have savedR4 := saved (by decide : 0 + 4 ≤ 28)
  have savedR5 := saved (by decide : 4 + 4 ≤ 28)
  have savedR6 := saved (by decide : 8 + 4 ≤ 28)
  have savedR11 := saved (by decide : 12 + 4 ≤ 28)
  have savedSp := saved (by decide : 16 + 4 ≤ 28)
  have savedPc := saved (by decide : 20 + 4 ≤ 28)
  have place : s.regs .sp - 4#32 - 12#32 = s.regs .sp - 28#32 + 12#32 := by
    rw [link_place, BitVec.sub_eq_add_neg (s.regs .sp - 4#32)]
  have spPlace : 12#32 + 4#32 = 16#32 := rfl
  have pcPlace : 12#32 + 8#32 = 20#32 := rfl
  rw [BitVec.add_zero] at savedR4
  rw [place] at doneR11 doneSp donePc
  rw [BitVec.add_assoc, spPlace] at doneSp
  rw [BitVec.add_assoc, pcPlace] at donePc
  refine ⟨runWalk walkDone walked, ?_, ?_, ?_, ?_, ?_, ?_⟩
  · rw [Cpu.callWalk, walks]
    rfl
  · rw [doneR0, counted]
  · rw [doneMemory, written]
    have whole := loadWords_storeWords
      ((callSites 4#32 (entry.found s returnAddress frames)).take count)
      (walkMemory s pc returnAddress) (s.regs .r0) (by rw [taken]; omega)
    rw [taken] at whole
    exact whole
  · intro r member
    have middle (listed : r ∈ [Reg.r7, .r8, .r9, .r10]) :
        (runWalk walkDone walked).regs r = s.regs r := by
      have other : r ∉ [Reg.r0, .r4, .r5, .r6] := by
        intro written
        revert listed written
        cases r <;> decide
      rw [doneOthers r listed, kept r other, others r listed]
    simp only [calleeSaved, List.mem_cons, List.not_mem_nil, or_false] at member
    rcases member with rfl | rfl | rfl | rfl | rfl | rfl | rfl | rfl | rfl
    · exact doneR4.trans (savedR4.trans frameR4)
    · exact doneR5.trans (savedR5.trans frameR5)
    · exact doneR6.trans (savedR6.trans frameR6)
    · exact middle (by decide)
    · exact middle (by decide)
    · exact middle (by decide)
    · exact middle (by decide)
    · exact doneR11.trans (savedR11.trans frameR11)
    · exact doneSp.trans (savedSp.trans frameSp)
  · exact donePc.trans (savedPc.trans framePc)
  · intro base length apart outside
    rw [doneMemory, written]
    apply (walkMemory_same s pc returnAddress outside).storeWords
    rw [taken]
    exact apart

/-- A stack with two frames. -/
def exampleStack : Memory :=
  storeWords (storeWords (fun _ => 0) 0x10F4#32 [0x1200#32, 0x1100#32, 0x5008#32])
    0x11F4#32 [0#32, 0x1200#32, 0x6008#32]

/-- The CPU at a call with an array of ten words. -/
def exampleWalk : Cpu where
  regs
    | .r0 => 0x2000#32
    | .r1 => 10#32
    | .r11 => 0x1100#32
    | .sp => 0x1000#32
    | _ => 0x33#32
  cpsr := sysMode
  pc := 0x9000#32
  lrIrq := 0
  spsrIrq := 0
  memory := exampleStack

/-- Its frames. -/
theorem exampleWalk_frames : Frames exampleWalk.memory (-12#32) (-4#32) 0x1100#32
    [(0x1100#32, exampleWalk.memory.load (0x1100#32 + -4#32)),
      (0x1200#32, exampleWalk.memory.load (0x1200#32 + -4#32))] := by
  have first : exampleWalk.memory.load (0x1100#32 + -12#32) = 0x1200#32 := by decide +kernel
  have second : exampleWalk.memory.load (0x1200#32 + -12#32) = 0 := by decide +kernel
  apply Frames.frame (by decide)
  rw [first]
  apply Frames.frame (by decide)
  rw [second]
  exact .top

/-- Three calls are found, with that of the function. -/
theorem callWalk_finds_frames_three : ∃ after,
    exampleWalk.callWalk 4 .walkStack 0x7010#32 0x7778#32 = some after ∧
      after.regs .r0 = 3#32 ∧
      after.memory.loadWords 0x2000#32 3 = [0x7774#32, 0x5004#32, 0x6004#32] ∧
      after.pc = 0x7778#32 := by
  -- frame by frame: `∀ frame ∈ frames` as a whole would be decided over all pairs of words
  obtain ⟨after, returns, r0, words, -, pc, -⟩ := callWalk_finds_frames exampleWalk .walkStack
    0x7010#32 0x7778#32 exampleWalk_frames (fun _ => by decide) (by decide : 3 < 4)
    (rfl : 3 = min 3 10)
    (List.forall_mem_cons.mpr
      ⟨by decide +kernel, List.forall_mem_singleton.mpr (by decide +kernel)⟩)
    (List.forall_mem_cons.mpr
      ⟨by decide +kernel, List.forall_mem_singleton.mpr (by decide +kernel)⟩)
    (by decide +kernel)
  refine ⟨after, returns, r0, words.trans ?_, pc⟩
  decide +kernel

end FelineOS.Arm
