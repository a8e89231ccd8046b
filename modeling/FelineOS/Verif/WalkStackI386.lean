import FelineOS.Kernel.WalkStackI386
import FelineOS.Library.Frames
import FelineOS.Library.WordTable
import FelineOS.Verif.TaskSwitchI386

/-!
# What a walk of the stack finds

The frames of a stack are a list that is linked through their first words, with the return address
in the second word. A walk stores the address of every call in it, up to a number that the caller
gives, and leaves everything else as it was. The number 0 is no limit: `loop` counts it down to
`2 ^ 32 - 1` first.
-/

namespace FelineOS.I386

open Library Memory

/-! ## The loop -/

/-- How many frames a walk stores, of those that there are. -/
def stored (frames : Nat) (maximum : BitVec 32) : Nat :=
  min frames (if maximum = 0 then 0x100000000 else maximum.toNat)

/-- No more is stored than there are frames. -/
theorem stored_le (frames : Nat) (maximum : BitVec 32) : stored frames maximum ≤ frames :=
  Nat.min_le_left _ _

/-- The array has room for the frames that are stored, unless it has none and there are some. -/
theorem stored_le_iff (frames : Nat) (maximum : BitVec 32) :
    stored frames maximum ≤ maximum.toNat ↔ maximum ≠ 0 ∨ frames = 0 := by
  unfold stored
  by_cases none : maximum = 0
  · have zero : maximum.toNat = 0 := by rw [none]; rfl
    rw [if_pos none, zero]
    constructor
    · intro fits
      exact .inr (by omega)
    · intro either
      rw [either.resolve_left (absurd none), Nat.zero_min]
  · rw [if_neg none]
    exact iff_of_true (Nat.min_le_right _ _) (.inl none)

/-- Nothing is stored of a stack without frames. -/
theorem stored_zero (maximum : BitVec 32) : stored 0 maximum = 0 := Nat.zero_min _

/-- One frame is the last one. -/
theorem stored_last (frames : Nat) : stored (frames + 1) 1 = 1 := by
  unfold stored
  rw [if_neg (by decide)]
  exact Nat.min_eq_right (Nat.succ_le_succ (Nat.zero_le _))

/-- A frame counts down the maximum. -/
theorem stored_succ (frames : Nat) {maximum : BitVec 32} (more : maximum - 1#32 ≠ 0) :
    stored (frames + 1) maximum = stored frames (maximum - 1#32) + 1 := by
  unfold stored
  rw [if_neg more]
  by_cases none : maximum = 0
  · -- counting down from 0 comes to the largest word
    have most : (maximum - 1#32).toNat + 1 = 0x100000000 := by bv_omega
    rw [if_pos none, ← most]
    exact Nat.add_min_add_right frames _ 1
  · have fewer : maximum.toNat = (maximum - 1#32).toNat + 1 := by bv_omega
    rw [if_neg none, fewer]
    exact Nat.add_min_add_right frames _ 1

/-- The body of the loop stores the address of one call and goes on to the next frame. -/
theorem walkBody_spec (s : Cpu) :
    (runWalk walkBody s).memory =
        s.memory.store (s.regs .edi) (s.memory.load (s.regs .ebx + 4#32) - 1#32) ∧
      (runWalk walkBody s).regs .ebx = s.memory.load (s.regs .ebx) ∧
      (runWalk walkBody s).regs .edi = s.regs .edi + 4#32 ∧
      (runWalk walkBody s).regs .eax = s.regs .eax + 1#32 ∧
      (runWalk walkBody s).regs .ecx = s.regs .ecx ∧
      ∀ r ∈ [Reg.esi, .ebp, .esp], (runWalk walkBody s).regs r = s.regs r := by
  refine ⟨?_, ?_, ?_, ?_, ?_, ?_⟩
  all_goals simp [walkBody, runWalk, WalkInstr.exec, Instr.exec, set_regs]

/-- A walk stores the addresses of the calls, one word after the other, and counts them. -/
theorem walk_spec {frames : List (BitVec 32 × BitVec 32)} {fuel : Nat} {s : Cpu}
    (chain : Frames s.memory 0#32 4#32 (s.regs .ebx) frames) (enough : frames.length < fuel)
    (apart : ∀ frame ∈ frames, ∀ k < stored frames.length (s.regs .ecx),
      Apart frame.1 (slot (s.regs .edi) k) ∧ Apart (frame.1 + 4#32) (slot (s.regs .edi) k)) :
    ∃ after, walk fuel s = some after ∧
      after.regs .eax = s.regs .eax + BitVec.ofNat 32 (stored frames.length (s.regs .ecx)) ∧
      after.memory = s.memory.storeWords (s.regs .edi)
        ((callSites 1#32 frames).take (stored frames.length (s.regs .ecx))) ∧
      ∀ r ∈ [Reg.esi, .ebp, .esp], after.regs r = s.regs r := by
  induction frames generalizing fuel s with
  | nil =>
    cases fuel with
    | zero => exact absurd enough (Nat.not_lt_zero _)
    | succ fuel =>
      rw [walk, if_pos chain.eq_null, List.length_nil, stored_zero]
      exact ⟨s, rfl, (BitVec.add_zero _).symm, rfl, fun r _ => rfl⟩
  | cons frame frames ih =>
    cases fuel with
    | zero => exact absurd enough (Nat.not_lt_zero _)
    | succ fuel =>
      obtain ⟨present, rfl, next⟩ := chain.uncons
      rw [BitVec.add_zero] at next
      obtain ⟨memory, ebx, edi, eax, ecx, others⟩ := walkBody_spec s
      rw [List.length_cons] at enough apart ⊢
      rw [walk, if_neg present]
      dsimp only
      rw [set_regs, if_pos rfl, ecx]
      by_cases last : s.regs .ecx - 1#32 = 0
      · -- the array is full
        have one : s.regs .ecx = 1 := by bv_omega
        have single : stored (frames.length + 1) (s.regs .ecx) = 1 := by rw [one, stored_last]
        rw [if_pos last, single]
        refine ⟨_, rfl, ?_, ?_, ?_⟩
        · rw [set_regs, if_neg (by decide), eax]
        · rw [set_memory, memory]
          rfl
        · intro r member
          rw [set_regs, if_neg (by rintro rfl; simp at member)]
          exact others r member
      · rw [if_neg last, stored_succ _ last]
        rw [stored_succ _ last] at apart
        -- the frames that are left are read after the store
        have zero : slot (s.regs .edi) 0 = s.regs .edi := BitVec.add_zero _
        have chained : Frames (runWalk walkBody s).memory 0#32 4#32 (s.memory.load (s.regs .ebx))
            frames := by
          apply next.congr
          intro frame member
          have unread := apart frame (List.mem_cons_of_mem _ member) 0 (Nat.zero_lt_succ _)
          rw [zero] at unread
          rw [memory, BitVec.add_zero, load_store_apart unread.1, load_store_apart unread.2]
          exact ⟨rfl, rfl⟩
        have here : slot (s.regs .edi) 1 = s.regs .edi + 4#32 := rfl
        have unwritten (frame) (member : frame ∈ frames) (k)
            (less : k < stored frames.length (s.regs .ecx - 1#32)) :
            Apart frame.1 (slot (s.regs .edi + 4#32) k) ∧
              Apart (frame.1 + 4#32) (slot (s.regs .edi + 4#32) k) := by
          rw [← here, slot_slot, Nat.add_comm]
          exact apart frame (List.mem_cons_of_mem _ member) (k + 1) (Nat.succ_lt_succ less)
        rw [← ebx] at chained
        rw [← edi] at unwritten
        obtain ⟨after, walks, counted, written, kept⟩ :=
          @ih fuel ((runWalk walkBody s).set .ecx (s.regs .ecx - 1#32)) chained
            (Nat.lt_of_succ_lt_succ enough) unwritten
        refine ⟨after, walks, ?_, ?_, ?_⟩
        · rw [counted, set_regs, if_neg (by decide), set_regs, if_pos rfl, eax, BitVec.add_assoc,
            Nat.add_comm, BitVec.ofNat_add]
        · rw [written, set_memory, memory, set_regs, if_neg (by decide), set_regs, if_pos rfl, edi]
          rfl
        · intro r member
          rw [kept r member, set_regs, if_neg (by rintro rfl; simp at member)]
          exact others r member

/-! ## The function -/

/-- The frame pointer that a walk starts with. -/
def WalkEntry.first (s : Cpu) : WalkEntry → BitVec 32
  | .walkStack => s.regs .ebp
  | .walkStackFrom => s.memory.load (s.regs .esp + 8#32)

/-- The first argument of a call. -/
def Cpu.walkArray (s : Cpu) : BitVec 32 := s.memory.load (s.regs .esp)

/-- The second argument of a call. -/
def Cpu.walkMaximum (s : Cpu) : BitVec 32 := s.memory.load (s.regs .esp + 4#32)

/-- The words that a call pushes. -/
def walkPushed (s : Cpu) (returnAddress : BitVec 32) : List (BitVec 32) :=
  [returnAddress, s.regs .ebp, s.regs .edi, s.regs .ebx]

/-- The words are on the stack then. -/
theorem pushed_word (s : Cpu) (returnAddress : BitVec 32) {i : Nat} (inside : i < 4) :
    (s.memory.pushWords (s.regs .esp) (walkPushed s returnAddress)).load
        (s.regs .esp - BitVec.ofNat 32 (4 * (i + 1))) = (walkPushed s returnAddress).getD i 0 :=
  load_pushWords_getD _ s.memory (s.regs .esp) (by simp [walkPushed]) inside

/-- The arguments are above them. -/
theorem pushed_argument (s : Cpu) (returnAddress : BitVec 32) {offset : Nat} (near : offset ≤ 8) :
    (s.memory.pushWords (s.regs .esp) (walkPushed s returnAddress)).load
        (s.regs .esp + BitVec.ofNat 32 offset) =
      s.memory.load (s.regs .esp + BitVec.ofNat 32 offset) := by
  apply load_pushWords_apart
  intro i inside
  have few : i < 4 := inside
  unfold Apart
  bv_omega

/-- The parts of a listing run one after the other. -/
theorem runWalk_append (first second : List WalkInstr) (s : Cpu) :
    runWalk (first ++ second) s = runWalk second (runWalk first s) := by
  induction first generalizing s with
  | nil => rfl
  | cons instr rest ih => exact ih (instr.exec s)

/-- The CPU behind the stack frame. -/
theorem walkFrame_spec (s : Cpu) (returnAddress : BitVec 32) :
    (runWalk walkFrame (s.pushWord returnAddress)).memory =
        s.memory.pushWords (s.regs .esp) (walkPushed s returnAddress) ∧
      (runWalk walkFrame (s.pushWord returnAddress)).regs .esp = s.regs .esp - 16#32 ∧
      (runWalk walkFrame (s.pushWord returnAddress)).regs .ebp = s.regs .esp - 8#32 ∧
      (runWalk walkFrame (s.pushWord returnAddress)).regs .esi = s.regs .esi := by
  have frame : s.regs .esp - 4#32 - 4#32 = s.regs .esp - 8#32 := by bv_omega
  have lowest : s.regs .esp - 8#32 - 4#32 - 4#32 = s.regs .esp - 16#32 := by bv_omega
  refine ⟨?_, ?_, ?_, ?_⟩
  all_goals
    simp [walkFrame, runWalk, WalkInstr.exec, Instr.exec, Cpu.pushWord, set_regs, pushWords,
      walkPushed, frame, lowest]

/-- The frame pointer that is loaded behind the stack frame. -/
def WalkEntry.pointer (x : Cpu) : WalkEntry → BitVec 32
  | .walkStack => x.memory.load (x.regs .ebp)
  | .walkStackFrom => x.memory.load (x.regs .ebp + 16#32)

/-- What the local registers are set up with. -/
theorem setup_run (x : Cpu) (entry : WalkEntry) :
    (runWalk entry.setup x).regs .edi = x.memory.load (x.regs .ebp + 8#32) ∧
      (runWalk entry.setup x).regs .ecx = x.memory.load (x.regs .ebp + 12#32) ∧
      (runWalk entry.setup x).regs .ebx = entry.pointer x ∧
      (runWalk entry.setup x).regs .eax = 0#32 ∧
      (∀ r ∈ [Reg.esi, .ebp, .esp], (runWalk entry.setup x).regs r = x.regs r) ∧
      (runWalk entry.setup x).memory = x.memory := by
  cases entry
  all_goals
    refine ⟨?_, ?_, ?_, ?_, ?_, ?_⟩
    all_goals
      simp [WalkEntry.setup, WalkEntry.pointer, runWalk, WalkInstr.exec, Instr.exec, set_regs]

/-- The CPU in front of the loop. -/
theorem enter_spec (s : Cpu) (entry : WalkEntry) (returnAddress : BitVec 32) :
    (runWalk entry.enter (s.pushWord returnAddress)).memory =
        s.memory.pushWords (s.regs .esp) (walkPushed s returnAddress) ∧
      (runWalk entry.enter (s.pushWord returnAddress)).regs .esp = s.regs .esp - 16#32 ∧
      (runWalk entry.enter (s.pushWord returnAddress)).regs .ebp = s.regs .esp - 8#32 ∧
      (runWalk entry.enter (s.pushWord returnAddress)).regs .esi = s.regs .esi ∧
      (runWalk entry.enter (s.pushWord returnAddress)).regs .eax = 0#32 ∧
      (runWalk entry.enter (s.pushWord returnAddress)).regs .edi =
        s.memory.load (s.regs .esp) ∧
      (runWalk entry.enter (s.pushWord returnAddress)).regs .ecx =
        s.memory.load (s.regs .esp + 4#32) ∧
      (runWalk entry.enter (s.pushWord returnAddress)).regs .ebx = entry.first s := by
  obtain ⟨memory, esp, ebp, esi⟩ := walkFrame_spec s returnAddress
  have argument {offset : Nat} (near : offset ≤ 8) :
      (s.memory.pushWords (s.regs .esp) (walkPushed s returnAddress)).load
          (s.regs .esp - 8#32 + BitVec.ofNat 32 (8 + offset)) =
        s.memory.load (s.regs .esp + BitVec.ofNat 32 offset) := by
    have place : s.regs .esp - 8#32 + BitVec.ofNat 32 (8 + offset) =
        s.regs .esp + BitVec.ofNat 32 offset := by
      rw [BitVec.ofNat_add]
      bv_omega
    rw [place, pushed_argument s returnAddress near]
  have array := argument (Nat.zero_le 8)
  have maximum := argument (by decide : 4 ≤ 8)
  have pointer := argument (Nat.le_refl 8)
  have caller := pushed_word s returnAddress (by decide : 1 < 4)
  rw [BitVec.add_zero] at array
  unfold WalkEntry.enter
  rw [runWalk_append]
  generalize runWalk walkFrame (s.pushWord returnAddress) = x at memory esp ebp esi
  obtain ⟨setEdi, setEcx, setEbx, setEax, others, unwritten⟩ := setup_run x entry
  rw [unwritten, others _ (by simp), others _ (by simp), others _ (by simp), setEdi, setEcx,
    setEbx, setEax, memory, ebp]
  refine ⟨rfl, esp, rfl, esi, rfl, array, maximum, ?_⟩
  cases entry with
  | walkStack =>
    unfold WalkEntry.pointer WalkEntry.first
    rw [memory, ebp]
    exact caller
  | walkStackFrom =>
    unfold WalkEntry.pointer WalkEntry.first
    rw [memory, ebp]
    exact pointer

/-- What `.done` loads. -/
theorem walkDone_run (x : Cpu) :
    (runWalk walkDone x).regs .ebx = x.memory.load (x.regs .esp) ∧
      (runWalk walkDone x).regs .edi = x.memory.load (x.regs .esp + 4#32) ∧
      (runWalk walkDone x).regs .ebp = x.memory.load (x.regs .ebp) ∧
      (runWalk walkDone x).eip = x.memory.load (x.regs .ebp + 4#32) ∧
      (runWalk walkDone x).regs .esp = x.regs .ebp + 8#32 ∧
      (runWalk walkDone x).regs .esi = x.regs .esi ∧
      (runWalk walkDone x).regs .eax = x.regs .eax ∧
      (runWalk walkDone x).memory = x.memory := by
  refine ⟨?_, ?_, ?_, ?_, ?_, ?_, ?_, ?_⟩
  all_goals
    simp [walkDone, runWalk, WalkInstr.exec, Instr.exec, Cpu.drop, Cpu.top, set_regs,
      BitVec.add_assoc]

/-- A call of `walk_stack` or `walk_stack_from` stores the address of each call that is active, the
last one first, until the array is full or the frames end, and returns their number. It leaves the
registers of its caller and all memory but the array and the words that it pushes. -/
theorem callWalk_finds_calls (s : Cpu) (entry : WalkEntry) (returnAddress : BitVec 32)
    {frames : List (BitVec 32 × BitVec 32)}
    (chain : Frames s.memory 0#32 4#32 (entry.first s) frames)
    {fuel : Nat} (enough : frames.length < fuel)
    (above : ∀ frame ∈ frames, AreasApart frame.1 8 (s.regs .esp - 16#32) 16)
    (beside : ∀ frame ∈ frames,
      AreasApart frame.1 8 s.walkArray (4 * stored frames.length s.walkMaximum))
    (below : AreasApart s.walkArray (4 * stored frames.length s.walkMaximum)
      (s.regs .esp - 16#32) 16) :
    (∃ after, s.callWalk fuel entry returnAddress = some after ∧
      after.regs .eax = BitVec.ofNat 32 (stored frames.length s.walkMaximum) ∧
      after.memory.loadWords s.walkArray (stored frames.length s.walkMaximum) =
        (callSites 1#32 frames).take (stored frames.length s.walkMaximum) ∧
      (∀ r ∈ calleeSaved, after.regs r = s.regs r) ∧ after.eip = returnAddress ∧
      ∀ base length,
        AreasApart base length s.walkArray (4 * stored frames.length s.walkMaximum) →
        AreasApart base length (s.regs .esp - 16#32) 16 →
        Same after.memory s.memory base length) ∧
      (stored frames.length s.walkMaximum ≤ s.walkMaximum.toNat ↔
        s.walkMaximum ≠ 0 ∨ frames.length = 0) := by
  refine ⟨?_, stored_le_iff _ _⟩
  unfold Cpu.walkArray Cpu.walkMaximum at *
  obtain ⟨memory, esp, ebp, esi, eax, edi, ecx, ebx⟩ := enter_spec s entry returnAddress
  have count := length_take_callSites 1#32
    (stored_le frames.length (s.memory.load (s.regs .esp + 4#32)))
  have size := below.size_lt (by decide)
  have pushed {base : BitVec 32} {length : Nat}
      (apart : AreasApart base length (s.regs .esp - 16#32) 16) :
      Same (s.memory.pushWords (s.regs .esp) (walkPushed s returnAddress)) s.memory base length :=
    (Same.refl s.memory base length).pushWords (walkPushed s returnAddress) apart
  -- the frames are the same behind the stack frame of the function
  have chained : Frames (runWalk entry.enter (s.pushWord returnAddress)).memory 0#32 4#32
      ((runWalk entry.enter (s.pushWord returnAddress)).regs .ebx) frames := by
    rw [ebx, memory]
    apply chain.congr
    intro frame member
    have same := pushed (above frame member)
    have first := same.load (by decide : 0 + 4 ≤ 8)
    have second := same.load (by decide : 4 + 4 ≤ 8)
    exact ⟨first, second⟩
  obtain ⟨walked, walks, counted, written, others⟩ := walk_spec chained enough (by
    intro frame member k less
    rw [ecx] at less
    rw [edi]
    have apart := beside frame member
    have first := apart.words (i := 0) (j := 4 * k) (by decide) (by omega)
    rw [BitVec.add_zero] at first
    exact ⟨first, apart.words (i := 4) (j := 4 * k) (by decide) (by omega)⟩)
  rw [ecx, eax, BitVec.zero_add] at counted
  rw [ecx, edi, memory] at written
  obtain ⟨doneEbx, doneEdi, doneEbp, doneEip, doneEsp, doneEsi, doneEax, doneMemory⟩ :=
    walkDone_run walked
  rw [others .esp (by decide), esp] at doneEbx doneEdi
  rw [others .ebp (by decide), ebp] at doneEbp doneEip doneEsp
  rw [others .esi (by decide), esi] at doneEsi
  -- the words that were pushed are not in the array
  have word {i : Nat} (inside : i < 4) :
      walked.memory.load (s.regs .esp - BitVec.ofNat 32 (4 * (i + 1))) =
        (walkPushed s returnAddress).getD i 0 := by
    rw [written, load_storeWords_apart, pushed_word s returnAddress inside]
    intro k less
    rw [count] at less
    have place : s.regs .esp - 16#32 + BitVec.ofNat 32 (12 - 4 * i) =
        s.regs .esp - BitVec.ofNat 32 (4 * (i + 1)) := by bv_omega
    have apart := below.words (i := 4 * k) (j := 12 - 4 * i) (by omega) (by omega)
    rw [place] at apart
    exact apart.symm
  have savedEip := word (by decide : 0 < 4)
  have savedEbp := word (by decide : 1 < 4)
  have savedEdi := word (by decide : 2 < 4)
  have savedEbx := word (by decide : 3 < 4)
  have placeEip : s.regs .esp - 8#32 + 4#32 = s.regs .esp - 4#32 := by bv_omega
  have placeEdi : s.regs .esp - 16#32 + 4#32 = s.regs .esp - 12#32 := by bv_omega
  rw [placeEip] at doneEip
  rw [placeEdi] at doneEdi
  rw [BitVec.sub_add_cancel] at doneEsp
  refine ⟨runWalk walkDone walked, ?_, ?_, ?_, ?_, ?_, ?_⟩
  · rw [Cpu.callWalk, walks]
    rfl
  · rw [doneEax, counted]
  · rw [doneMemory, written]
    have whole := loadWords_storeWords ((callSites 1#32 frames).take
      (stored frames.length (s.memory.load (s.regs .esp + 4#32))))
      (s.memory.pushWords (s.regs .esp) (walkPushed s returnAddress))
      (s.memory.load (s.regs .esp)) (by rw [count]; omega)
    rw [count] at whole
    exact whole
  · intro r member
    simp only [calleeSaved, List.mem_cons, List.not_mem_nil, or_false] at member
    rcases member with rfl | rfl | rfl | rfl | rfl
    · exact doneEbx.trans savedEbx
    · exact doneEsi
    · exact doneEdi.trans savedEdi
    · exact doneEbp.trans savedEbp
    · exact doneEsp
  · exact doneEip.trans savedEip
  · intro base length apart outside
    rw [doneMemory, written]
    apply (pushed outside).storeWords
    rw [count]
    exact apart

/-- A stack with two frames, and the arguments of a call. -/
def exampleStack : Memory :=
  storeWords (storeWords (storeWords (fun _ => 0) 0x1000#32 [0x2000#32, 10#32])
    0x1100#32 [0x1200#32, 0x5005#32]) 0x1200#32 [0#32, 0x6005#32]

/-- The CPU at the call. -/
def exampleWalk : Cpu where
  regs
    | .esp => 0x1000#32
    | .ebp => 0x1100#32
    | _ => 0x33#32
  eflags := 0x202#32
  eip := 0x9000#32
  memory := exampleStack

/-- Its frames. -/
theorem exampleWalk_frames : Frames exampleWalk.memory 0#32 4#32 0x1100#32
    [(0x1100#32, exampleWalk.memory.load (0x1100#32 + 4#32)),
      (0x1200#32, exampleWalk.memory.load (0x1200#32 + 4#32))] := by
  have first : exampleWalk.memory.load (0x1100#32 + 0#32) = 0x1200#32 := by decide +kernel
  have second : exampleWalk.memory.load (0x1200#32 + 0#32) = 0 := by decide +kernel
  apply Frames.frame (by decide)
  rw [first]
  apply Frames.frame (by decide)
  rw [second]
  exact .top

/-- Both calls are found. -/
theorem callWalk_finds_calls_two : ∃ after,
    exampleWalk.callWalk 3 .walkStack 0x777#32 = some after ∧
      after.regs .eax = 2#32 ∧
      after.memory.loadWords 0x2000#32 2 = [0x5004#32, 0x6004#32] ∧ after.eip = 0x777#32 := by
  have count : stored 2 exampleWalk.walkMaximum = 2 := by decide +kernel
  have array : exampleWalk.walkArray = 0x2000#32 := by decide +kernel
  -- frame by frame: `∀ frame ∈ frames` as a whole would be decided over all pairs of words
  obtain ⟨⟨after, returns, eax, words, -, eip, -⟩, -⟩ := callWalk_finds_calls exampleWalk
    .walkStack 0x777#32 exampleWalk_frames (by decide : 2 < 3)
    (List.forall_mem_cons.mpr
      ⟨by decide +kernel, List.forall_mem_singleton.mpr (by decide +kernel)⟩)
    (List.forall_mem_cons.mpr
      ⟨by decide +kernel, List.forall_mem_singleton.mpr (by decide +kernel)⟩)
    (by decide +kernel)
  change after.memory.loadWords _ (stored 2 exampleWalk.walkMaximum) =
    List.take (stored 2 exampleWalk.walkMaximum) _ at words
  rw [count, array] at words
  refine ⟨after, returns, ?_, ?_, eip⟩
  · rw [eax]
    exact congrArg _ count
  · rw [words]
    decide +kernel

end FelineOS.I386
