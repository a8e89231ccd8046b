import FelineOS.Kernel.NewTaskI386
import FelineOS.Verif.TaskSwitchI386
import FelineOS.Verif.TaskWorld

/-!
# No task of the i386 loses its context

A switch gives the next task what its `struct Registers` and its stack hold, and leaves both for the
task that it switches away from. `init_frame` lays out the stack of a new task as if the task had
been switched away from just before `exit_scheduler_stub`. So every run of switches, new tasks and
code that keeps to its own memory is a run of tasks that wait for their contexts.
-/

namespace FelineOS.I386

open Library Memory

variable (s : Cpu)

/-! ## A switch -/

/-- The two words below the stack pointer. -/
theorem frame_words (esp : BitVec 32) :
    esp - 8#32 + 4#32 = esp - 4#32 ∧ esp - 8#32 + 8#32 = esp := by
  constructor
  all_goals bv_omega

/-- A task is held where its registers are, as long as its stack stays. -/
theorem Held.copied {m later : Memory} {area other : BitVec 32} {kept : Kept}
    (held : Held m area kept) (registers : m.Copied area later other 36)
    (same : Same later m (kept.esp - 8#32) (8 + 4 * kept.stack.length)) :
    Held later other kept := by
  obtain ⟨next, top⟩ := frame_words kept.esp
  have words := same.loadWords (i := 8) (n := kept.stack.length) (Nat.le_refl _)
  have ebp := same.load (i := 0) (by omega)
  have eip := same.load (i := 4) (by omega)
  rw [BitVec.add_zero] at ebp
  rw [next] at eip
  rw [top] at words
  constructor
  case esi => exact (registers.load (i := 16) (by decide)).trans held.esi
  case edi => exact (registers.load (i := 20) (by decide)).trans held.edi
  case frame => exact (registers.load (i := 24) (by decide)).trans held.frame
  case eflags => exact (registers.load (i := 32) (by decide)).trans held.eflags
  case ebp => exact ebp.trans held.ebp
  case eip => exact eip.trans held.eip
  case stack => exact words.trans held.stack

/-- A switch gives the task that it loads all that was held of it. -/
theorem callSwap_gets (returnAddress : BitVec 32) {area : BitVec 32} {kept : Kept}
    (loads : s.loadArgument = area) (held : Held s.memory area kept)
    (areaArea : AreasApart area 36 s.saveArgument 36)
    (areaStack : AreasApart area 36 (s.regs .esp - 12#32) 12)
    (stackArea :
      AreasApart (kept.esp - 8#32) (8 + 4 * kept.stack.length) s.saveArgument 36)
    (stackStack :
      AreasApart (kept.esp - 8#32) (8 + 4 * kept.stack.length) (s.regs .esp - 12#32) 12) :
    (s.callSwap returnAddress).kept kept.stack.length = kept := by
  have after := held.copied (callSwap_same s returnAddress areaArea areaStack).copied
    (callSwap_same s returnAddress stackArea stackStack)
  obtain ⟨middle, flags, loaded, call, next, -⟩ := callSwap_middle s returnAddress
  rw [loads] at next
  have memory := callSwap_memory s call
  rw [memory] at after
  obtain ⟨-, esi, edi, ebp, esp, eip, -⟩ := loadRegisters_regs middle _ _ next after.frame
  obtain ⟨below, above⟩ := frame_words kept.esp
  rw [BitVec.add_assoc, show (4#32 + 4#32 : BitVec 32) = 8#32 from rfl, above] at esp
  rw [below] at eip
  -- the flags were loaded before the last word went on the stack
  obtain ⟨written, -, flagsMemory, flagsLoaded⟩ := callSwap_written s returnAddress
  have far : Apart (area + 32#32) (s.regs .esp - 12#32) := by
    have words := areaStack.words (i := 32) (j := 0) (by decide) (by decide)
    rwa [BitVec.add_zero] at words
  have eflags : (s.callSwap returnAddress).eflags = kept.eflags := by
    rw [← after.eflags, ← memory, flagsMemory, flagsWritten, load_store_apart far, flagsLoaded,
      loads]
  unfold Cpu.kept
  rw [eflags, call, esi, edi, ebp, esp, eip, after.esi, after.edi, after.ebp, after.eip,
    ← call, memory, after.stack]

/-- A switch leaves in the area and on the stack what the running task gets back. -/
theorem callSwap_holds {n : Nat} (returnAddress : BitVec 32) (fits : 12 + 4 * n ≤ 2 ^ 32)
    (own : AreasApart s.saveArgument 36 (s.regs .esp - 12#32) (12 + 4 * n)) :
    Held (s.callSwap returnAddress).memory s.saveArgument
      ({ s with eip := returnAddress }.kept n) := by
  have near : AreasApart s.saveArgument 36 (s.regs .esp - 12#32) 12 := by
    have part := own.part (i := 0) (n := 12) (by omega)
    rwa [BitVec.add_zero] at part
  have saved := callSwap_saves s returnAddress near
  obtain ⟨next, -⟩ := frame_words (s.regs .esp)
  obtain ⟨middle, written, memory, -⟩ := callSwap_written s returnAddress
  have eip := saved.behindFrame
  rw [next] at eip
  -- the flags are not overwritten by the word that passes through the stack
  have flags : (s.callSwap returnAddress).memory.load (s.saveArgument + 32#32) = s.eflags := by
    have far := near.words (i := 32) (j := 0) (by decide) (by decide)
    rw [BitVec.add_zero] at far
    rw [memory, flagsWritten, load_store_apart far, load_store]
  -- the words of the stack are above everything that is written
  have above : s.regs .esp - 12#32 + 12#32 = s.regs .esp := by bv_omega
  have area : AreasApart (s.regs .esp) (4 * n) s.saveArgument 36 := by
    have part := own.part (i := 12) (n := 4 * n) (by omega)
    rw [above] at part
    exact part.symm
  have below : AreasApart (s.regs .esp) (4 * n) (s.regs .esp - 12#32) 12 := by
    intro i first j second same
    bv_omega
  have words := (callSwap_same s returnAddress area below).loadWords (i := 0) (n := n) (by omega)
  rw [BitVec.add_zero] at words
  constructor
  case esi => exact saved.esi
  case edi => exact saved.edi
  case frame => exact saved.ebp
  case eflags => exact flags
  case ebp => exact saved.inFrame
  case eip => exact eip
  case stack =>
    simp only [Cpu.kept, length_loadWords]
    exact words

/-! ## A new task -/

/-- The memory with a return address and `ebp` on the stack. -/
def framed (returnAddress : BitVec 32) : Memory :=
  (s.memory.store (s.regs .esp - 4#32) returnAddress).store (s.regs .esp - 8#32) (s.regs .ebp)

/-- A frame leaves the arguments behind it. -/
theorem framed_argument (returnAddress : BitVec 32) {distance : Nat} (small : distance ≤ 8) :
    (framed s returnAddress).load (s.regs .esp + BitVec.ofNat 32 distance) =
      s.memory.load (s.regs .esp + BitVec.ofNat 32 distance) := by
  have below : Apart (s.regs .esp + BitVec.ofNat 32 distance) (s.regs .esp - 8#32) ∧
      Apart (s.regs .esp + BitVec.ofNat 32 distance) (s.regs .esp - 4#32) := by
    unfold Apart
    bv_omega
  rw [framed, load_store_apart below.1, load_store_apart below.2]

/-- The return address and `ebp` are in the frame. -/
theorem framed_words (returnAddress : BitVec 32) :
    (framed s returnAddress).load (s.regs .esp - 8#32) = s.regs .ebp ∧
      (framed s returnAddress).load (s.regs .esp - 4#32) = returnAddress := by
  obtain ⟨-, -, apart⟩ := stack_apart (s.regs .esp)
  unfold framed
  exact ⟨load_store _ _ _, by rw [load_store_apart apart, load_store]⟩

/-- The stack of a new task, below `top`. -/
def newStack (m : Memory) (top stub startExecuting : BitVec 32) : Memory :=
  (((m.store (top - 4#32) startExecuting).store (top - 8#32) 0#32).store (top - 12#32) stub).store
    (top - 16#32) 0#32

/-- The words that are written below `top` are in the area there. -/
theorem below_top (top : BitVec 32) : top - 16#32 + 4#32 = top - 12#32 ∧
    top - 16#32 + 8#32 = top - 8#32 ∧ top - 16#32 + 12#32 = top - 4#32 := by
  refine ⟨?_, ?_, ?_⟩
  all_goals bv_omega

/-- The words that are pushed one after the other. -/
theorem pushed_words (top : BitVec 32) : top - 4#32 - 4#32 = top - 8#32 ∧
    top - 8#32 - 4#32 = top - 12#32 ∧ top - 12#32 - 4#32 = top - 16#32 := by
  refine ⟨?_, ?_, ?_⟩
  all_goals bv_omega

/-- The arguments of a function are behind its frame. -/
theorem frame_argument (esp : BitVec 32) (distance : Nat) :
    esp - 8#32 + BitVec.ofNat 32 (8 + distance) = esp + BitVec.ofNat 32 distance := by bv_omega

/-- The words of the stack of a new task. -/
theorem newStack_words (m : Memory) (top stub startExecuting : BitVec 32) :
    (newStack m top stub startExecuting).load (top - 16#32) = 0#32 ∧
      (newStack m top stub startExecuting).load (top - 12#32) = stub ∧
      (newStack m top stub startExecuting).load (top - 8#32) = 0#32 ∧
      (newStack m top stub startExecuting).load (top - 4#32) = startExecuting := by
  obtain ⟨second, third, fourth⟩ := below_top top
  have apart (i j : BitVec 32) (offsets : Apart i j) :
      Apart (top - 16#32 + i) (top - 16#32 + j) := (apart_offsets _ i j).mpr offsets
  have above (i : BitVec 32) (offsets : Apart i 0#32) : Apart (top - 16#32 + i) (top - 16#32) := by
    have zero := apart i 0#32 offsets
    rwa [BitVec.add_zero] at zero
  unfold newStack
  rw [← second, ← third, ← fourth]
  refine ⟨load_store _ _ _, ?_, ?_, ?_⟩
  · rw [load_store_apart (above _ (by decide)), load_store]
  · rw [load_store_apart (above _ (by decide)), load_store_apart (apart _ _ (by decide)),
      load_store]
  · rw [load_store_apart (above _ (by decide)), load_store_apart (apart _ _ (by decide)),
      load_store_apart (apart _ _ (by decide)), load_store]

/-- `init_frame` puts a new stack below `top` and returns its lowest address. The caller gets back
its registers and the memory outside of the new stack and of its frame. -/
theorem callInitFrame_spec (returnAddress : BitVec 32) {top stub startExecuting : BitVec 32}
    (arguments : InitArguments s top stub startExecuting)
    (own : AreasApart (top - 16#32) 16 (s.regs .esp - 8#32) 20) :
    (s.callInitFrame returnAddress).memory =
        newStack (framed s returnAddress) top stub startExecuting ∧
      (s.callInitFrame returnAddress).regs .eax = top - 16#32 ∧
      (∀ r ∈ calleeSaved, (s.callInitFrame returnAddress).regs r = s.regs r) ∧
      (s.callInitFrame returnAddress).eip = returnAddress := by
  obtain ⟨second, third, fourth⟩ := below_top top
  obtain ⟨place, -⟩ := pushed_words (s.regs .esp)
  obtain ⟨secondPush, thirdPush, fourthPush⟩ := pushed_words top
  have word (distance : Nat) : s.regs .esp - 8#32 + BitVec.ofNat 32 (8 + distance) =
      s.regs .esp + BitVec.ofNat 32 distance := frame_argument (s.regs .esp) distance
  -- the arguments, of which one is read between the pushes
  have topWord : (framed s returnAddress).load (s.regs .esp) = top := by
    have unchanged := @framed_argument s returnAddress 0 (by decide)
    rw [BitVec.add_zero] at unchanged
    rw [unchanged, arguments.espTop]
  have startWord : (framed s returnAddress).load (s.regs .esp - 8#32 + 16#32) =
      startExecuting := by
    rw [word 8, framed_argument s _ (by decide), arguments.startExecuting]
  have far (i j : Nat) (first : i + 4 ≤ 16) (second : j + 4 ≤ 20) :
      Apart (s.regs .esp - 8#32 + BitVec.ofNat 32 j) (top - 16#32 + BitVec.ofNat 32 i) :=
    (own.words first second).symm
  have stubWord : (((framed s returnAddress).store (top - 4#32) startExecuting).store
      (top - 8#32) 0#32).load (s.regs .esp - 8#32 + 12#32) = stub := by
    rw [← third, load_store_apart (far 8 12 (by decide) (by decide)), ← fourth,
      load_store_apart (far 12 12 (by decide) (by decide)), word 4,
      framed_argument s _ (by decide), arguments.exitSchedulerStub]
  -- the frame of the caller, below the arguments
  have below (m : Memory) (distance : Nat) (small : distance + 4 ≤ 20) :
      (newStack m top stub startExecuting).load (s.regs .esp - 8#32 + BitVec.ofNat 32 distance) =
        m.load (s.regs .esp - 8#32 + BitVec.ofNat 32 distance) := by
    have lowest := far 0 distance (by decide) small
    rw [BitVec.add_zero] at lowest
    unfold newStack
    rw [load_store_apart lowest, ← second, load_store_apart (far 4 distance (by decide) small),
      ← third, load_store_apart (far 8 distance (by decide) small), ← fourth,
      load_store_apart (far 12 distance (by decide) small)]
  obtain ⟨oldEbp, oldEip⟩ := framed_words s returnAddress
  have ebp := below (framed s returnAddress) 0 (by decide)
  have eip := below (framed s returnAddress) 4 (by decide)
  obtain ⟨next, -⟩ := frame_words (s.regs .esp)
  rw [BitVec.add_zero, oldEbp] at ebp
  rw [next, oldEip] at eip
  unfold newStack framed at ebp eip
  unfold framed at topWord startWord stubWord
  rw [newStack]
  unfold framed
  refine ⟨?_, ?_, ?_, ?_⟩
  all_goals
    simp [Cpu.callInitFrame, initFrame, runStack, StackInstr.exec, Instr.exec, set_regs,
      Cpu.pushWord, Cpu.drop, Cpu.top, calleeSaved, place, topWord, startWord, stubWord,
      secondPush, thirdPush, fourthPush, ebp, eip, next]

/-- The memory outside of the new stack and of its own frame is not changed by `init_frame`. -/
theorem callInitFrame_same (returnAddress : BitVec 32) {top stub startExecuting base : BitVec 32}
    {length : Nat} (arguments : InitArguments s top stub startExecuting)
    (own : AreasApart (top - 16#32) 16 (s.regs .esp - 8#32) 20)
    (stack : AreasApart base length (top - 16#32) 16)
    (frame : AreasApart base length (s.regs .esp - 8#32) 8) :
    Same (s.callInitFrame returnAddress).memory s.memory base length := by
  obtain ⟨second, third, fourth⟩ := below_top top
  obtain ⟨next, -⟩ := frame_words (s.regs .esp)
  have lowest := stack.part (i := 0) (n := 4) (by decide)
  have stub := stack.part (i := 4) (n := 4) (by decide)
  have zero := stack.part (i := 8) (n := 4) (by decide)
  have start := stack.part (i := 12) (n := 4) (by decide)
  have ebp := frame.part (i := 0) (n := 4) (by decide)
  have eip := frame.part (i := 4) (n := 4) (by decide)
  rw [BitVec.add_zero] at lowest ebp
  rw [second] at stub
  rw [third] at zero
  rw [fourth] at start
  rw [next] at eip
  rw [(callInitFrame_spec s returnAddress arguments own).1]
  exact ((((((Same.refl s.memory base length).store eip).store ebp).store start).store
    zero).store stub).store lowest

/-- `get_eflags` returns the flags. -/
theorem callGetEflags_eax (returnAddress : BitVec 32) :
    (s.callGetEflags returnAddress).regs .eax = s.eflags := by
  simp [Cpu.callGetEflags, getEflags, runStack, StackInstr.exec, Instr.exec, set_regs,
    Cpu.pushWord, Cpu.drop, Cpu.top]

/-- A new task is held: it waits as if it had been switched away from. -/
theorem newTask_held {between fill : Cpu → Cpu} {first second area top stub startExecuting : BitVec 32}
    (arguments : InitArguments s top stub startExecuting)
    (own : AreasApart (top - 16#32) 16 (s.regs .esp - 8#32) 20)
    (filled : ∀ i < 9,
      (s.newTask between fill first second).memory.load (area + BitVec.ofNat 32 (4 * i)) =
        (newRegisters ((s.callInitFrame first).regs .eax)
          (((between (s.callInitFrame first)).callGetEflags second).regs .eax)).getD i 0)
    (frame : (s.newTask between fill first second).memory.Same (s.callInitFrame first).memory
      (top - 16#32) 16) :
    Held (s.newTask between fill first second).memory area
      (newKept stub top startExecuting (between (s.callInitFrame first)).eflags) := by
  obtain ⟨memory, eax, -⟩ := callInitFrame_spec s first arguments own
  obtain ⟨lowest, stubWord, zero, start⟩ :=
    newStack_words (framed s first) top stub startExecuting
  obtain ⟨stubPlace, third, fourth⟩ := below_top top
  obtain ⟨-, thirdPush, -⟩ := pushed_words top
  have place : top - 8#32 - 8#32 = top - 16#32 := by bv_omega
  have above : top - 8#32 + 4#32 = top - 4#32 := by bv_omega
  rw [callGetEflags_eax, eax] at filled
  rw [memory] at frame
  have word0 := frame.load (i := 0) (by decide)
  have word1 := frame.load (i := 4) (by decide)
  have word2 := frame.load (i := 8) (by decide)
  have word3 := frame.load (i := 12) (by decide)
  rw [BitVec.add_zero, lowest] at word0
  rw [stubPlace, stubWord] at word1
  rw [third, zero] at word2
  rw [fourth, start] at word3
  unfold newKept
  constructor
  case esi => exact filled 4 (by decide)
  case edi => exact filled 5 (by decide)
  case frame =>
    rw [place]
    exact filled 6 (by decide)
  case eflags => exact filled 8 (by decide)
  case ebp =>
    rw [place]
    exact word0
  case eip =>
    rw [thirdPush]
    exact word1
  case stack => simp [loadWords, List.range_succ, word2, above, word3]

/-! ## Runs -/

/-- The listings do what a target has to do. -/
theorem target_correct (stub : BitVec 32) : (target stub).Correct where
  copied registers stack held := held.copied registers stack
  creates := by
    rintro s laidOut filled written area initial ⟨between, fill, arguments, own, filled, frame⟩
    refine ⟨fun base length outside => ?_, newTask_held s arguments own filled frame⟩
    exact callInitFrame_same s _ arguments own (outside _ List.mem_cons_self)
      (outside _ (List.mem_cons_of_mem _ List.mem_cons_self))
  saves := by
    rintro s later written area next saved ⟨n, returnAddress, fits, own⟩
    refine ⟨fun base length outside => ?_, callSwap_holds s returnAddress fits own⟩
    exact callSwap_same s returnAddress (outside _ List.mem_cons_self)
      (outside _ (List.mem_cons_of_mem _ List.mem_cons_self))
  loads := by
    intro s later written area saved next switches apart held
    obtain ⟨loads, same⟩ : ∃ loads, loads = next.area := ⟨_, rfl⟩
    rw [← same] at switches
    obtain ⟨n, returnAddress, fits, own⟩ := switches
    obtain ⟨registers, stack⟩ := apart
    exact callSwap_gets s returnAddress same held (registers _ List.mem_cons_self)
      (registers _ (List.mem_cons_of_mem _ List.mem_cons_self)) (stack _ List.mem_cons_self)
      (stack _ (List.mem_cons_of_mem _ List.mem_cons_self))

/-- In every run of new tasks, switches and code that keeps to its own memory, every switch gives
the next task the context it was switched away from with or created with, and the machine has the
contexts of all tasks that wait. -/
theorem task_contexts_kept {stub : BitVec 32} {start : Cpu} {w : Tasks.World Cpu Kept}
    (reachable : Tasks.World.Reachable (target stub) start w) :
    Scheduler.ContextsKept w.history ∧ w.Holds (target stub) :=
  reachable.kept (target_correct stub)

/-! ## A first task -/

/-- The CPU at a call of `init_frame`. -/
def sampleStart : Cpu where
  regs
    | .esp => 0x8000
    | _ => 0
  eflags := 0x202
  eip := 0
  memory := Memory.storeWords (fun _ => 0) 0x8000 [0x4000, 0x1000, 0x2000]

/-- The code that fills the registers of the new task and calls `swap_task_registers`. -/
def sampleFill (s : Cpu) : Cpu :=
  { s with memory :=
      (s.memory.storeWords 0x5000 (newRegisters 0x3ff0 0x202)).storeWords 0x8000 [0x6000, 0x5000] }

/-- A new task is switched to and enters `exit_scheduler_stub`, which is at the address 0x1000
here. -/
theorem task_contexts_kept_first : ∃ w, Tasks.World.Reachable (target 0x1000) sampleStart w ∧
    w.running = 1 ∧ w.machine.eip = 0x1000 ∧ Scheduler.ContextsKept w.history := by
  have creates : Creates 0x1000 sampleStart _ _ _ 0x5000 _ :=
    @Creates.newTask 0x1000 sampleStart 0x4000 0x2000 0x5000 0x300 0x400 id sampleFill
      ⟨by decide +kernel, by decide +kernel, by decide +kernel⟩ (by decide +kernel)
      (by decide +kernel) (by decide +kernel)
  have created : Tasks.World.Reachable (target 0x1000) sampleStart _ :=
    .step .start (@Tasks.World.Step.create _ _ (target 0x1000) _ 1 _ _ _ _ _ _ (by decide) creates
      (fun _ member => absurd member List.not_mem_nil) .nil)
  have switches := @Switches.callSwap (sampleStart.newTask id sampleFill 0x300 0x400) 0 0x500
    (by decide) (by decide +kernel)
  have switched := Tasks.World.Reachable.step created (@Tasks.World.Step.switch _ _ (target 0x1000)
    _ [] [] _ _ _ _ _ rfl switches (by
      intro t member
      rw [List.mem_singleton] at member
      subst member
      exact ⟨by decide +kernel, by decide +kernel⟩))
  exact ⟨_, switched, rfl, by decide +kernel, (task_contexts_kept switched).1⟩

end FelineOS.I386
