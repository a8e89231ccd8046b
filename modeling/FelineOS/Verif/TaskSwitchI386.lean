import FelineOS.Kernel.TaskSwitchI386

/-!
# What a task gets back on the i386

`swap_task_registers` writes nine words into the save area and uses three words of the stack. When
another task switches back, the registers are loaded from the area, and `mov %ebp, %esp` takes the
stack from the saved frame. The word for `ebx` is the exception: at the time it is saved the
register already holds the address of the area.
-/

namespace FelineOS.I386

open Library Memory

variable (s : Cpu)

/-! ## The machine -/

/-- A register after a write. -/
theorem set_regs (r q : Reg) (word : BitVec 32) :
    (s.set r word).regs q = if q = r then word else s.regs q := Function.update_apply ..

/-- A write to a register leaves the memory. -/
@[simp] theorem set_memory (r : Reg) (word : BitVec 32) : (s.set r word).memory = s.memory := rfl

/-- A write to a register leaves the flags. -/
@[simp] theorem set_eflags (r : Reg) (word : BitVec 32) : (s.set r word).eflags = s.eflags := rfl

/-- A write to a register leaves the CPU where it is. -/
@[simp] theorem set_eip (r : Reg) (word : BitVec 32) : (s.set r word).eip = s.eip := rfl

/-- The parts of a listing run one after the other. -/
theorem run_append (first second : List Instr) : run (first ++ second) s = run second (run first s) := by
  induction first generalizing s with
  | nil => rfl
  | cons instr rest ih => exact ih (instr.exec s)

/-! ## The three parts of the listing -/

/-- What `saveRegisters` leaves in the registers that are used later. -/
theorem saveRegisters_regs (frame : BitVec 32) (place : s.regs .esp - 4#32 = frame) :
    (run saveRegisters s).regs .esp = frame ∧
      (run saveRegisters s).regs .ebx = (s.memory.store frame (s.regs .ebp)).load (frame + 8#32) ∧
      (run saveRegisters s).regs .eax = (s.memory.store frame (s.regs .ebp)).load (frame + 12#32) := by
  subst place
  refine ⟨?_, ?_, ?_⟩
  all_goals simp [saveRegisters, run, Instr.exec, set_regs, Cpu.pushWord]

/-- The memory after the general purpose registers are saved. -/
def areaWritten (m : Memory) (save next frame : BitVec 32) : Memory :=
  (((((((m.store (save + 0#32) next).store (save + 4#32) save).store
    (save + 8#32) (s.regs .ecx)).store (save + 12#32) (s.regs .edx)).store
    (save + 16#32) (s.regs .esi)).store (save + 20#32) (s.regs .edi)).store
    (save + 24#32) frame).store (save + 28#32) frame

/-- What `saveRegisters` leaves in the memory. -/
theorem saveRegisters_memory (frame save next : BitVec 32) (place : s.regs .esp - 4#32 = frame)
    (first : (s.memory.store frame (s.regs .ebp)).load (frame + 8#32) = save)
    (second : (s.memory.store frame (s.regs .ebp)).load (frame + 12#32) = next) :
    (run saveRegisters s).memory =
      areaWritten s (s.memory.store frame (s.regs .ebp)) save next frame := by
  subst place first second
  simp [saveRegisters, run, Instr.exec, set_regs, Cpu.pushWord, areaWritten]

/-- The words that the area holds then. -/
theorem areaWritten_words (m : Memory) (save next frame : BitVec 32) :
    (areaWritten s m save next frame).load (save + 4#32) = save ∧
      (areaWritten s m save next frame).load (save + 16#32) = s.regs .esi ∧
      (areaWritten s m save next frame).load (save + 20#32) = s.regs .edi ∧
      (areaWritten s m save next frame).load (save + 24#32) = frame := by
  refine ⟨?_, ?_, ?_, ?_⟩
  all_goals
    simp (disch := (rw [apart_offsets]; decide)) only [areaWritten, load_store_apart, load_store]

/-- Words outside of the area stay. -/
theorem areaWritten_outside (m : Memory) {save next frame word : BitVec 32}
    (apart : ∀ i, i + 4 ≤ 36 → Apart word (save + BitVec.ofNat 32 i)) :
    (areaWritten s m save next frame).load word = m.load word := by
  unfold areaWritten
  rw [load_store_apart (apart 28 (by decide)), load_store_apart (apart 24 (by decide)),
    load_store_apart (apart 20 (by decide)), load_store_apart (apart 16 (by decide)),
    load_store_apart (apart 12 (by decide)), load_store_apart (apart 8 (by decide)),
    load_store_apart (apart 4 (by decide)), load_store_apart (apart 0 (by decide))]

/-- Swapping the flags goes through one register only. -/
theorem swapFlags_regs {r : Reg} (other : r ≠ .ecx) : (run swapFlags s).regs r = s.regs r := by
  cases r <;> simp [swapFlags, run, Instr.exec, set_regs, Cpu.drop, Cpu.pushWord] at other ⊢

/-- The memory after the flags are saved, and loaded through the word below the stack. -/
def flagsWritten (m : Memory) (save below flags loaded : BitVec 32) : Memory :=
  ((m.store below flags).store (save + 32#32) flags).store below loaded

/-- What `swapFlags` leaves in the memory. -/
theorem swapFlags_memory (below save : BitVec 32) (place : s.regs .esp - 4#32 = below)
    (area : s.regs .ebx = save) : ∃ flags loaded,
      (run swapFlags s).memory = flagsWritten s.memory save below flags loaded := by
  subst place area
  refine ⟨s.eflags, ((s.memory.store (s.regs .esp - 4#32) s.eflags).store
    (s.regs .ebx + 32#32) s.eflags).load (s.regs .eax + 32#32), ?_⟩
  simp [swapFlags, run, Instr.exec, set_regs, Cpu.drop, Cpu.top, Cpu.pushWord, flagsWritten]

/-- The other words stay. -/
theorem flagsWritten_outside (m : Memory) {save below flags loaded word : BitVec 32}
    (stack : Apart word below) (area : Apart word (save + 32#32)) :
    (flagsWritten m save below flags loaded).load word = m.load word := by
  unfold flagsWritten
  rw [load_store_apart stack, load_store_apart area, load_store_apart stack]

/-- What `loadRegisters` leaves in the registers. -/
theorem loadRegisters_regs (area frame : BitVec 32) (loads : s.regs .eax = area)
    (saved : s.memory.load (area + 24#32) = frame) :
    (run loadRegisters s).regs .ebx = s.memory.load (area + 4#32) ∧
      (run loadRegisters s).regs .esi = s.memory.load (area + 16#32) ∧
      (run loadRegisters s).regs .edi = s.memory.load (area + 20#32) ∧
      (run loadRegisters s).regs .ebp = s.memory.load frame ∧
      (run loadRegisters s).regs .esp = frame + 4#32 + 4#32 ∧
      (run loadRegisters s).eip = s.memory.load (frame + 4#32) ∧
      (run loadRegisters s).memory = s.memory := by
  subst loads saved
  refine ⟨?_, ?_, ?_, ?_, ?_, ?_, ?_⟩
  all_goals simp [loadRegisters, run, Instr.exec, set_regs, Cpu.drop, Cpu.top]

/-! ## One call -/

/-- What the save area and the frame of a task hold while it waits: `save` is the address of the
area and `frame` that of the word with the saved `ebp`. -/
structure Saved (s : Cpu) (returnAddress save frame : BitVec 32) (m : Memory) : Prop where
  /-- The address of the area instead of `ebx`. -/
  ebx : m.load (save + 4#32) = save
  /-- `esi`. -/
  esi : m.load (save + 16#32) = s.regs .esi
  /-- `edi`. -/
  edi : m.load (save + 20#32) = s.regs .edi
  /-- The frame instead of `ebp`. -/
  ebp : m.load (save + 24#32) = frame
  /-- `ebp` is in the frame. -/
  inFrame : m.load frame = s.regs .ebp
  /-- Behind it is the return address. -/
  behindFrame : m.load (frame + 4#32) = returnAddress

/-- The words of the stack below the arguments of a call. -/
theorem stack_words (esp : BitVec 32) : esp - 4#32 = esp - 8#32 + 4#32 ∧
    esp - 4#32 - 4#32 = esp - 8#32 ∧ esp - 8#32 - 4#32 = esp - 12#32 ∧
    esp - 8#32 + 8#32 = esp ∧ esp - 8#32 + 12#32 = esp + 4#32 ∧
    esp - 8#32 + 4#32 + 4#32 = esp := by
  refine ⟨?_, ?_, ?_, ?_, ?_, ?_⟩
  all_goals bv_omega

/-- The arguments stand behind the frame that the call makes. -/
theorem arguments_framed (word other : BitVec 32) {distance : BitVec 32}
    (behind : distance = 0#32 ∨ distance = 4#32) :
    ((s.memory.store (s.regs .esp - 4#32) word).store (s.regs .esp - 8#32) other).load
      (s.regs .esp + distance) = s.memory.load (s.regs .esp + distance) := by
  have below : Apart (s.regs .esp + distance) (s.regs .esp - 8#32) ∧
      Apart (s.regs .esp + distance) (s.regs .esp - 4#32) := by
    unfold Apart
    rcases behind with same | next
    · subst same
      bv_omega
    · subst next
      bv_omega
  rw [load_store_apart below.1, load_store_apart below.2]

/-- The registers and the memory at the instruction that loads the next stack. -/
theorem callSwap_middle (returnAddress : BitVec 32) : ∃ middle flags loaded,
    s.callSwap returnAddress = run loadRegisters middle ∧ middle.regs .eax = s.loadArgument ∧
      middle.memory = flagsWritten (areaWritten s ((s.memory.store (s.regs .esp - 4#32)
        returnAddress).store (s.regs .esp - 8#32) (s.regs .ebp)) s.saveArgument s.loadArgument
        (s.regs .esp - 8#32)) s.saveArgument (s.regs .esp - 12#32) flags loaded := by
  let entered := s.pushWord returnAddress
  obtain ⟨-, place, below, first, second, -⟩ := stack_words (s.regs .esp)
  have pushed (r : Reg) (other : r ≠ .esp) : entered.regs r = s.regs r := by
    simp only [entered, Cpu.pushWord, set_regs, if_neg other]
  have atFrame : entered.regs .esp - 4#32 = s.regs .esp - 8#32 := by
    simp only [entered, Cpu.pushWord, set_regs, ↓reduceIte, place]
  have memory : entered.memory = s.memory.store (s.regs .esp - 4#32) returnAddress := rfl
  have saveWord : (entered.memory.store (s.regs .esp - 8#32) (entered.regs .ebp)).load
      (s.regs .esp - 8#32 + 8#32) = s.saveArgument := by
    have framed := arguments_framed s returnAddress (entered.regs .ebp) (Or.inl rfl)
    rw [BitVec.add_zero] at framed
    rw [first, memory, framed]
    rfl
  have loadWord : (entered.memory.store (s.regs .esp - 8#32) (entered.regs .ebp)).load
      (s.regs .esp - 8#32 + 12#32) = s.loadArgument := by
    rw [second, memory, arguments_framed s returnAddress (entered.regs .ebp) (Or.inr rfl)]
    rfl
  obtain ⟨stack, area, next⟩ := saveRegisters_regs entered _ atFrame
  rw [saveWord] at area
  rw [loadWord] at next
  have written := saveRegisters_memory entered _ _ _ atFrame saveWord loadWord
  have under : (run saveRegisters entered).regs .esp - 4#32 = s.regs .esp - 12#32 := by
    rw [stack, below]
  obtain ⟨flags, loaded, swapped⟩ := swapFlags_memory (run saveRegisters entered) _ _ under area
  refine ⟨run swapFlags (run saveRegisters entered), flags, loaded, ?_, ?_, ?_⟩
  · rw [Cpu.callSwap, swapTaskRegisters, run_append, run_append]
  · rw [swapFlags_regs _ (by decide), next]
  · rw [swapped, written, memory, pushed .ebp (by decide)]
    simp only [areaWritten, pushed .ecx (by decide), pushed .edx (by decide),
      pushed .esi (by decide), pushed .edi (by decide)]

/-- The loads at the end of a call leave the memory. -/
theorem callSwap_memory {middle : Cpu} {returnAddress : BitVec 32}
    (call : s.callSwap returnAddress = run loadRegisters middle) :
    (s.callSwap returnAddress).memory = middle.memory := by
  rw [call]
  exact (loadRegisters_regs middle _ _ rfl rfl).2.2.2.2.2.2

/-- The words that a call uses on the stack are apart. -/
theorem stack_apart (esp : BitVec 32) : Apart (esp - 8#32) (esp - 12#32) ∧
    Apart (esp - 4#32) (esp - 12#32) ∧ Apart (esp - 4#32) (esp - 8#32) := by
  unfold Apart
  bv_omega

/-- The words of the save area are apart from those on the stack. -/
theorem area_apart {save esp : BitVec 32} (apart : AreasApart save 36 (esp - 12#32) 12) {i : Nat}
    (inside : i + 4 ≤ 36) : Apart (save + BitVec.ofNat 32 i) (esp - 12#32) ∧
      Apart (esp - 8#32) (save + BitVec.ofNat 32 i) ∧
      Apart (esp - 4#32) (save + BitVec.ofNat 32 i) := by
  have frameWord : esp - 12#32 + 4#32 = esp - 8#32 := by bv_omega
  have returnWord : esp - 12#32 + 8#32 = esp - 4#32 := by bv_omega
  have flags := apart.words (j := 0) inside (by decide)
  have frame := apart.words (j := 4) inside (by decide)
  have behind := apart.words (j := 8) inside (by decide)
  rw [BitVec.add_zero] at flags
  rw [frameWord] at frame
  rw [returnWord] at behind
  exact ⟨flags, frame.symm, behind.symm⟩

/-- A call leaves the words of its task in the area and in the frame. -/
theorem callSwap_saves (returnAddress : BitVec 32)
    (apart : AreasApart s.saveArgument 36 (s.regs .esp - 12#32) 12) :
    Saved s returnAddress s.saveArgument (s.regs .esp - 8#32)
      (s.callSwap returnAddress).memory := by
  obtain ⟨middle, flags, loaded, call, -, memory⟩ := callSwap_middle s returnAddress
  obtain ⟨behind, -⟩ := stack_words (s.regs .esp)
  obtain ⟨frameFlags, returnFlags, returnFrame⟩ := stack_apart (s.regs .esp)
  let framed := (s.memory.store (s.regs .esp - 4#32) returnAddress).store (s.regs .esp - 8#32)
    (s.regs .ebp)
  obtain ⟨ebx, esi, edi, ebp⟩ :=
    areaWritten_words s framed s.saveArgument s.loadArgument (s.regs .esp - 8#32)
  -- what is written behind the words leaves them
  have areaWord (i : Nat) (inside : i + 4 ≤ 32) (m : Memory) :
      (flagsWritten m s.saveArgument (s.regs .esp - 12#32) flags loaded).load
        (s.saveArgument + BitVec.ofNat 32 i) = m.load (s.saveArgument + BitVec.ofNat 32 i) := by
    apply flagsWritten_outside
    · exact (area_apart apart (by omega)).1
    · rw [apart_offsets]
      unfold Apart
      bv_omega
  have stackWord (word : BitVec 32) (far : Apart word (s.regs .esp - 12#32))
      (outside : ∀ i, i + 4 ≤ 36 → Apart word (s.saveArgument + BitVec.ofNat 32 i)) :
      (flagsWritten (areaWritten s framed s.saveArgument s.loadArgument (s.regs .esp - 8#32))
        s.saveArgument (s.regs .esp - 12#32) flags loaded).load word = framed.load word := by
    rw [flagsWritten_outside _ far (outside 32 (by decide)), areaWritten_outside s _ outside]
  rw [callSwap_memory s call, memory]
  constructor
  case ebx => rw [areaWord 4 (by decide), ebx]
  case esi => rw [areaWord 16 (by decide), esi]
  case edi => rw [areaWord 20 (by decide), edi]
  case ebp => rw [areaWord 24 (by decide), ebp]
  case inFrame =>
    rw [stackWord _ frameFlags fun i inside => (area_apart apart inside).2.1, load_store]
  case behindFrame =>
    rw [← behind, stackWord _ returnFlags fun i inside => (area_apart apart inside).2.2,
      load_store_apart returnFrame, load_store]

/-- A call that loads an area goes on where the words in it say. -/
theorem callSwap_resumes {x : Cpu} {returnAddress later save frame : BitVec 32}
    (argument : x.loadArgument = save)
    (saved : Saved s returnAddress save frame (x.callSwap later).memory) :
    (x.callSwap later).regs .ebx = save ∧ (x.callSwap later).regs .esi = s.regs .esi ∧
      (x.callSwap later).regs .edi = s.regs .edi ∧ (x.callSwap later).regs .ebp = s.regs .ebp ∧
      (x.callSwap later).regs .esp = frame + 4#32 + 4#32 ∧
      (x.callSwap later).eip = returnAddress := by
  obtain ⟨middle, flags, loaded, call, next, -⟩ := callSwap_middle x later
  rw [callSwap_memory x call] at saved
  rw [argument] at next
  obtain ⟨ebx, esi, edi, ebp, esp, eip, -⟩ := loadRegisters_regs middle _ _ next saved.ebp
  rw [call, ebx, esi, edi, ebp, esp, eip]
  exact ⟨saved.ebx, saved.esi, saved.edi, saved.inFrame, rfl, saved.behindFrame⟩

/-- What is saved stays saved while the area and the frame stay as they are. -/
theorem Saved.keep {returnAddress save frame : BitVec 32} {m later : Memory}
    (saved : Saved s returnAddress save frame m) (area : Same later m save 36)
    (stack : Same later m frame 8) : Saved s returnAddress save frame later := by
  have inFrame := stack.load (i := 0) (by decide)
  rw [BitVec.add_zero] at inFrame
  constructor
  case ebx => exact (area.load (i := 4) (by decide)).trans saved.ebx
  case esi => exact (area.load (i := 16) (by decide)).trans saved.esi
  case edi => exact (area.load (i := 20) (by decide)).trans saved.edi
  case ebp => exact (area.load (i := 24) (by decide)).trans saved.ebp
  case inFrame => exact inFrame.trans saved.inFrame
  case behindFrame => exact (stack.load (i := 4) (by decide)).trans saved.behindFrame

/-! ## What a switch writes -/

/-- Saving the registers leaves the flags. -/
theorem saveRegisters_eflags : (run saveRegisters s).eflags = s.eflags := by
  simp [saveRegisters, run, Instr.exec, Cpu.pushWord]

/-- Loading the registers leaves the flags. -/
theorem loadRegisters_eflags : (run loadRegisters s).eflags = s.eflags := by
  simp [loadRegisters, run, Instr.exec, Cpu.drop]

/-- The flags that `swapFlags` saves and those that it loads. -/
theorem swapFlags_eflags {below save area : BitVec 32} (place : s.regs .esp - 4#32 = below)
    (saves : s.regs .ebx = save) (loads : s.regs .eax = area) :
    (run swapFlags s).memory = flagsWritten s.memory save below s.eflags (run swapFlags s).eflags ∧
      (run swapFlags s).eflags =
        ((s.memory.store below s.eflags).store (save + 32#32) s.eflags).load (area + 32#32) := by
  subst place saves loads
  constructor
  all_goals
    simp [swapFlags, run, Instr.exec, set_regs, Cpu.drop, Cpu.top, Cpu.pushWord, flagsWritten]

/-- The memory behind a switch, written out, and the flags. -/
theorem callSwap_written (returnAddress : BitVec 32) :
    ∃ middle : Memory, middle = areaWritten s ((s.memory.store (s.regs .esp - 4#32)
        returnAddress).store (s.regs .esp - 8#32) (s.regs .ebp)) s.saveArgument s.loadArgument
        (s.regs .esp - 8#32) ∧
      (s.callSwap returnAddress).memory = flagsWritten middle s.saveArgument
        (s.regs .esp - 12#32) s.eflags (s.callSwap returnAddress).eflags ∧
      (s.callSwap returnAddress).eflags = ((middle.store (s.regs .esp - 12#32) s.eflags).store
        (s.saveArgument + 32#32) s.eflags).load (s.loadArgument + 32#32) := by
  let entered := s.pushWord returnAddress
  obtain ⟨-, place, below, first, second, -⟩ := stack_words (s.regs .esp)
  have atFrame : entered.regs .esp - 4#32 = s.regs .esp - 8#32 := by
    simp only [entered, Cpu.pushWord, set_regs, ↓reduceIte, place]
  have pushed (r : Reg) (other : r ≠ .esp) : entered.regs r = s.regs r := by
    simp only [entered, Cpu.pushWord, set_regs, if_neg other]
  -- the arguments stand behind the frame
  have argument {distance word : BitVec 32} (behind : distance = 0#32 ∨ distance = 4#32)
      (place : word = s.regs .esp + distance) :
      (entered.memory.store (s.regs .esp - 8#32) (entered.regs .ebp)).load word =
        s.memory.load word := by
    subst place
    exact arguments_framed s returnAddress (entered.regs .ebp) behind
  have saveWord := argument (Or.inl rfl) (BitVec.add_zero _).symm
  have loadWord := argument (Or.inr rfl) rfl
  have saves : (entered.memory.store (s.regs .esp - 8#32) (entered.regs .ebp)).load
      (s.regs .esp - 8#32 + 8#32) = s.saveArgument := by
    rw [first, saveWord]
    rfl
  have loads : (entered.memory.store (s.regs .esp - 8#32) (entered.regs .ebp)).load
      (s.regs .esp - 8#32 + 12#32) = s.loadArgument := by
    rw [second, loadWord]
    rfl
  obtain ⟨stack, area, next⟩ := saveRegisters_regs entered _ atFrame
  rw [saves] at area
  rw [loads] at next
  have written := saveRegisters_memory entered _ _ _ atFrame saves loads
  have under : (run saveRegisters entered).regs .esp - 4#32 = s.regs .esp - 12#32 := by
    rw [stack, below]
  obtain ⟨memory, flags⟩ := swapFlags_eflags (run saveRegisters entered) under area next
  have call : s.callSwap returnAddress =
      run loadRegisters (run swapFlags (run saveRegisters entered)) := by
    rw [Cpu.callSwap, swapTaskRegisters, run_append, run_append]
  have kept : (run saveRegisters entered).eflags = s.eflags := saveRegisters_eflags entered
  refine ⟨(run saveRegisters entered).memory, ?_, ?_, ?_⟩
  · rw [written]
    simp only [areaWritten, pushed .ecx (by decide), pushed .edx (by decide),
      pushed .esi (by decide), pushed .edi (by decide), pushed .ebp (by decide)]
    rfl
  · rw [callSwap_memory s call, call, loadRegisters_eflags, memory, kept]
  · rw [call, loadRegisters_eflags, flags, kept]

/-- A switch changes the area that it saves to and the stack below its arguments only. -/
theorem callSwap_same (returnAddress : BitVec 32) {base : BitVec 32} {length : Nat}
    (area : AreasApart base length s.saveArgument 36)
    (stack : AreasApart base length (s.regs .esp - 12#32) 12) :
    Same (s.callSwap returnAddress).memory s.memory base length := by
  obtain ⟨middle, written, memory, -⟩ := callSwap_written s returnAddress
  have flags := stack.part (i := 0) (n := 4) (by decide)
  have frame := stack.part (i := 4) (n := 4) (by decide)
  have behind := stack.part (i := 8) (n := 4) (by decide)
  have frameWord : s.regs .esp - 12#32 + 4#32 = s.regs .esp - 8#32 := by bv_omega
  have returnWord : s.regs .esp - 12#32 + 8#32 = s.regs .esp - 4#32 := by bv_omega
  rw [BitVec.add_zero] at flags
  rw [frameWord] at frame
  rw [returnWord] at behind
  have word (i : Nat) (inside : i + 4 ≤ 36) :
      AreasApart base length (s.saveArgument + BitVec.ofNat 32 i) 4 := area.part inside
  rw [memory, written]
  unfold flagsWritten areaWritten
  exact ((((((((((((((Same.refl s.memory base length).store behind).store frame).store
    (word 0 (by decide))).store (word 4 (by decide))).store (word 8 (by decide))).store
    (word 12 (by decide))).store (word 16 (by decide))).store (word 20 (by decide))).store
    (word 24 (by decide))).store (word 28 (by decide))).store flags).store
    (word 32 (by decide))).store flags)

/-! ## Chains of switches -/

/-- A chain of switches ends with a turn that switches back to a waiting task, which called with the
CPU in the state `s`: the last call loads the save area of the task, and since the task was switched
away from, neither the area nor its frame has changed. -/
structure SwitchedBack (s : Cpu) (returnAddress : BitVec 32) (chain : List Turn) (last : Turn) :
    Prop where
  /-- The task is loaded. -/
  argument : (last.code (turns chain (s.callSwap returnAddress))).loadArgument = s.saveArgument
  /-- The save area. -/
  area : Same (last.take (turns chain (s.callSwap returnAddress))).memory
    (s.callSwap returnAddress).memory s.saveArgument 36
  /-- The saved `ebp` and the return address. -/
  stack : Same (last.take (turns chain (s.callSwap returnAddress))).memory
    (s.callSwap returnAddress).memory (s.regs .esp - 8#32) 8

/-- The task goes on behind its call, with its registers except for `ebx`. -/
theorem SwitchedBack.regs {returnAddress : BitVec 32} {chain : List Turn} {last : Turn}
    (back : SwitchedBack s returnAddress chain last)
    (apart : AreasApart s.saveArgument 36 (s.regs .esp - 12#32) 12) {resumed : Cpu}
    (state : last.take (turns chain (s.callSwap returnAddress)) = resumed) :
    resumed.regs .ebx = s.saveArgument ∧ resumed.regs .esi = s.regs .esi ∧
      resumed.regs .edi = s.regs .edi ∧ resumed.regs .ebp = s.regs .ebp ∧
      resumed.regs .esp = s.regs .esp ∧ resumed.eip = returnAddress := by
  have saved := (callSwap_saves s returnAddress apart).keep s back.area back.stack
  obtain ⟨ebx, esi, edi, ebp, esp, eip⟩ := callSwap_resumes s back.argument saved
  have stack : s.regs .esp - 8#32 + 4#32 + 4#32 = s.regs .esp := by bv_omega
  rw [stack] at esp
  subst state
  exact ⟨ebx, esi, edi, ebp, esp, eip⟩

/-- A task that is switched away from and back to goes on behind its call. `esi`, `edi`, `ebp` and
`esp` are what they were, and so `ebx` is only if the task kept the address of its save area
there. -/
theorem swapTaskRegisters_preserves_iff (returnAddress : BitVec 32)
    (apart : AreasApart s.saveArgument 36 (s.regs .esp - 12#32) 12) (chain : List Turn) (last : Turn)
    (back : SwitchedBack s returnAddress chain last) :
    (last.take (turns chain (s.callSwap returnAddress))).eip = returnAddress ∧
      (∀ r ∈ calleeSaved, r ≠ .ebx →
        (last.take (turns chain (s.callSwap returnAddress))).regs r = s.regs r) ∧
      ((∀ r ∈ calleeSaved,
        (last.take (turns chain (s.callSwap returnAddress))).regs r = s.regs r) ↔
          s.regs .ebx = s.saveArgument) := by
  obtain ⟨resumed, state⟩ : ∃ resumed, last.take (turns chain (s.callSwap returnAddress)) = resumed :=
    ⟨_, rfl⟩
  obtain ⟨ebx, esi, edi, ebp, esp, eip⟩ := back.regs s apart state
  rw [state]
  refine ⟨eip, ?_, ?_⟩
  · simp [calleeSaved, esi, edi, ebp, esp]
  · simp only [calleeSaved, List.forall_mem_cons, ebx, esi, edi, ebp, esp, true_and]
    constructor
    · intro preserved
      exact preserved.1.symm
    · intro kept
      exact ⟨kept.symm, fun _ none => absurd none List.not_mem_nil⟩

/-! ## A task that uses `ebx` -/

/-- A task with some value in `ebx` switches to another one. -/
def sampleTask (ebx : BitVec 32) : Cpu where
  regs
    | .ebx => ebx
    | .esp => 0x8000
    | _ => 0
  eflags := 0
  eip := 0
  memory := (Memory.store (fun _ => 0) 0x8000 0x1000).store 0x8004 0x2000

/-- The other task switches back on its own stack. -/
def sampleTurn : Turn where
  code s := { s.set .esp 0x9000 with
    memory := (s.memory.store 0x9000 0x2000).store 0x9004 0x1000 }
  returnAddress := 0x300

/-- The save area of the task is not on its stack, and the other task leaves both alone. -/
theorem sampleTask_back (ebx : BitVec 32) (choice : ebx = 7 ∨ ebx = 0x1000) :
    AreasApart (sampleTask ebx).saveArgument 36 ((sampleTask ebx).regs .esp - 12#32) 12 ∧
      SwitchedBack (sampleTask ebx) 0x200 [] sampleTurn := by
  rcases choice with same | same
  all_goals
    subst same
    refine ⟨by decide +kernel, ⟨by decide +kernel, by decide +kernel, by decide +kernel⟩⟩

/-- The task comes back with the address of its save area in `ebx`. -/
theorem swapTaskRegisters_loses_ebx :
    AreasApart (sampleTask 7).saveArgument 36 ((sampleTask 7).regs .esp - 12#32) 12 ∧
      SwitchedBack (sampleTask 7) 0x200 [] sampleTurn ∧
      (sampleTask 7).regs .ebx = 7 ∧
      (sampleTurn.take (turns [] ((sampleTask 7).callSwap 0x200))).regs .ebx = 0x1000 := by
  obtain ⟨apart, back⟩ := sampleTask_back 7 (Or.inl rfl)
  refine ⟨apart, back, rfl, ?_⟩
  rw [(back.regs _ apart rfl).1]
  decide +kernel

/-- A task that has the address there already gets everything back. -/
theorem swapTaskRegisters_preserves_kept :
    (sampleTurn.take (turns [] ((sampleTask 0x1000).callSwap 0x200))).eip = 0x200 ∧
      ∀ r ∈ calleeSaved,
        (sampleTurn.take (turns [] ((sampleTask 0x1000).callSwap 0x200))).regs r =
          (sampleTask 0x1000).regs r := by
  obtain ⟨apart, back⟩ := sampleTask_back 0x1000 (Or.inr rfl)
  have kept := swapTaskRegisters_preserves_iff (sampleTask 0x1000) 0x200 apart [] sampleTurn back
  have address : (sampleTask 0x1000).regs .ebx = (sampleTask 0x1000).saveArgument := by
    decide +kernel
  exact ⟨kept.1, kept.2.2.mpr address⟩

end FelineOS.I386
