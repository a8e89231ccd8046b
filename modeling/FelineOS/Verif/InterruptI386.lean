import FelineOS.Kernel.InterruptI386
import FelineOS.Verif.TaskSwitchI386

/-!
# What an interrupt leaves on the i386

The gates that `idt_init` fills in lead the CPU to the stubs. The stub of the timer puts back what
the calling convention lets its handler change, and the handler keeps the rest, through all of its
task switches; the stub of the system calls hands three registers on as arguments, and what its
handler returns comes out of `raw_syscall`.
-/

namespace FelineOS.I386

open Library Memory

/-! ## The interrupt descriptor table -/

/-- The CPU reads back what `idt_set_descriptor` has written. -/
theorem decode_descriptor (isr : BitVec 32) (flags : BitVec 8) :
    Gate.decode (0x08#16 ++ isr.extractLsb' 0 16) (isr.extractLsb' 16 16 ++ flags ++ 0#8) =
      ⟨isr, 0x08#16, flags.getLsbD 7, flags.extractLsb' 0 5⟩ := by
  have isrHigh : (isr.extractLsb' 16 16 ++ flags ++ 0#8).extractLsb' 16 16 =
      isr.extractLsb' 16 16 := by
    rw [BitVec.extractLsb'_append_eq_of_le (by decide),
      BitVec.extractLsb'_append_eq_of_le (by decide)]
    exact BitVec.extractLsb'_eq_self
  have isrLow : (0x08#16 ++ isr.extractLsb' 0 16).extractLsb' 0 16 = isr.extractLsb' 0 16 := by
    rw [BitVec.extractLsb'_append_eq_of_add_le (by decide), BitVec.extractLsb'_eq_self]
  have present : (isr.extractLsb' 16 16 ++ flags ++ 0#8).getLsbD 15 = flags.getLsbD 7 := by
    rw [BitVec.getLsbD_append, if_neg (by decide), BitVec.getLsbD_append, if_pos (by decide)]
  unfold Gate.decode
  rw [isrHigh, isrLow, present, BitVec.extractLsb'_append_eq_of_le (by decide),
    BitVec.extractLsb'_append_eq_of_le (by decide),
    BitVec.extractLsb'_append_eq_of_add_le (by decide), BitVec.extractLsb'_eq_self]
  congr 1
  exact BitVec.extractLsb'_append_extractLsb'

/-- The memory has an entry of the table. -/
structure HasGate (m : Memory) (idt : BitVec 32) (vector : BitVec 8) (isr : BitVec 32)
    (flags : BitVec 8) : Prop where
  /-- The lower word. -/
  low : m.load (idtEntry idt vector) = 0x08#16 ++ isr.extractLsb' 0 16
  /-- The upper word. -/
  high : m.load (idtEntry idt vector + 4#32) = isr.extractLsb' 16 16 ++ flags ++ 0#8

/-- The words of two entries are apart. -/
theorem entries_apart (idt : BitVec 32) {v w : BitVec 8} (other : v ≠ w) {i j : BitVec 32}
    (first : i = 0#32 ∨ i = 4#32) (second : j = 0#32 ∨ j = 4#32) :
    Apart (idtEntry idt v + i) (idtEntry idt w + j) := by
  have bounds : v.toNat < 256 ∧ w.toNat < 256 := ⟨v.isLt, w.isLt⟩
  have numbers : v.toNat ≠ w.toNat := fun same => other (BitVec.eq_of_toNat_eq same)
  unfold idtEntry
  rw [BitVec.add_assoc, BitVec.add_assoc, apart_offsets]
  generalize v.toNat = m at *
  generalize w.toNat = n at *
  unfold Apart
  rcases first with rfl | rfl <;> rcases second with rfl | rfl <;> bv_omega

/-- `idt_set_descriptor` writes its entry and leaves the others. -/
theorem idtSetDescriptor_spec (m : Memory) (idt : BitVec 32) (vector : BitVec 8) (isr : BitVec 32)
    (flags : BitVec 8) :
    HasGate (idtSetDescriptor m idt vector isr flags) idt vector isr flags ∧
      ∀ v i f, v ≠ vector → HasGate m idt v i f →
        HasGate (idtSetDescriptor m idt vector isr flags) idt v i f := by
  have behind : Apart (idtEntry idt vector) (idtEntry idt vector + 4#32) := by
    have offsets := (apart_offsets (idtEntry idt vector) 0#32 4#32).mpr (by decide)
    rwa [BitVec.add_zero] at offsets
  constructor
  · constructor
    · rw [idtSetDescriptor, load_store_apart behind, load_store]
    · rw [idtSetDescriptor, load_store]
  · intro v i f other gate
    have apart (first second : BitVec 32) (one : first = 0#32 ∨ first = 4#32)
        (two : second = 0#32 ∨ second = 4#32) :=
      entries_apart idt other one two
    have lowLow := apart 0#32 0#32 (Or.inl rfl) (Or.inl rfl)
    have lowHigh := apart 0#32 4#32 (Or.inl rfl) (Or.inr rfl)
    have highLow := apart 4#32 0#32 (Or.inr rfl) (Or.inl rfl)
    have highHigh := apart 4#32 4#32 (Or.inr rfl) (Or.inr rfl)
    rw [BitVec.add_zero] at lowLow lowHigh highLow
    rw [BitVec.add_zero] at lowLow
    constructor
    · rw [idtSetDescriptor, load_store_apart lowHigh, load_store_apart lowLow, gate.low]
    · rw [idtSetDescriptor, load_store_apart highHigh, load_store_apart highLow, gate.high]

/-- The vectors are different numbers. -/
theorem vector_ne {v w : Nat} (first : v < 256) (second : w < 256) (other : v ≠ w) :
    BitVec.ofNat 8 v ≠ BitVec.ofNat 8 w := by
  intro same
  apply other
  have numbers := congrArg BitVec.toNat same
  rwa [BitVec.toNat_ofNat, BitVec.toNat_ofNat, Nat.mod_eq_of_lt first,
    Nat.mod_eq_of_lt second] at numbers

/-- The loop of `idt_init` has filled in the first gates. -/
theorem idtFill_gates (m : Memory) (idt : BitVec 32) (isrStubTable : Nat → BitVec 32) {n : Nat}
    (small : n < 256) {v : Nat} (done : v < n) :
    HasGate (idtFill m idt isrStubTable n) idt (BitVec.ofNat 8 v) (isrStubTable v)
      idtInterruptGate := by
  induction n with
  | zero => exact absurd done (Nat.not_lt_zero _)
  | succ n ih =>
    obtain ⟨own, others⟩ := idtSetDescriptor_spec (idtFill m idt isrStubTable n) idt
      (BitVec.ofNat 8 n) (isrStubTable n) idtInterruptGate
    by_cases last : v = n
    · subst last
      exact own
    · exact others _ _ _ (vector_ne (by omega) (by omega) last) (ih (by omega) (by omega))

/-- The flags of the gates that `idt_init` fills in. -/
def gateFlags (v : Nat) : BitVec 8 := if v = 31 then idtTrapGate else idtInterruptGate

/-- `idt_init` fills in a gate for every entry of the stub table. -/
theorem idtInit_gates (m : Memory) (idt : BitVec 32) (isrStubTable : Nat → BitVec 32) {v : Nat}
    (listed : v < 33) : HasGate (idtInit m idt isrStubTable).1 idt (BitVec.ofNat 8 v)
      (isrStubTable v) (gateFlags v) := by
  obtain ⟨timer, beforeTimer⟩ := idtSetDescriptor_spec
    (idtSetDescriptor (idtFill m idt isrStubTable 31) idt 31 (isrStubTable 31) idtTrapGate) idt 32
    (isrStubTable 32) idtInterruptGate
  obtain ⟨syscall, beforeSyscall⟩ := idtSetDescriptor_spec (idtFill m idt isrStubTable 31) idt 31
    (isrStubTable 31) idtTrapGate
  by_cases last : v = 32
  · subst last
    exact timer
  · have notLast : BitVec.ofNat 8 v ≠ 32#8 := vector_ne (w := 32) (by omega) (by decide) last
    apply beforeTimer _ _ _ notLast
    by_cases trap : v = 31
    · subst trap
      exact syscall
    · have notTrap : BitVec.ofNat 8 v ≠ 31#8 := vector_ne (w := 31) (by omega) (by decide) trap
      have gate := idtFill_gates m idt isrStubTable (n := 31) (by decide) (v := v) (by omega)
      rw [gateFlags, if_neg trap]
      exact beforeSyscall _ _ _ notTrap gate

/-- The memory still has the table that `idt_init` filled in. -/
def HasIdt (m : Memory) (idt : BitVec 32) (isrStubTable : Nat → BitVec 32) : Prop :=
  ∀ v < 33, HasGate m idt (BitVec.ofNat 8 v) (isrStubTable v) (gateFlags v)

/-- The table is there as long as its bytes stay the same. -/
theorem hasIdt_same {m start : Memory} {idt : BitVec 32} {isrStubTable : Nat → BitVec 32}
    (same : Same m (idtInit start idt isrStubTable).1 idt 264) : HasIdt m idt isrStubTable := by
  intro v listed
  have gate := idtInit_gates start idt isrStubTable listed
  have number : (BitVec.ofNat 8 v).toNat = v := by
    rw [BitVec.toNat_ofNat]
    omega
  have low := same.load (i := 8 * v) (by omega)
  have high := same.load (i := 8 * v + 4) (by omega)
  rw [BitVec.ofNat_add, ← BitVec.add_assoc] at high
  have place : idtEntry idt (BitVec.ofNat 8 v) = idt + BitVec.ofNat 32 (8 * v) := by
    rw [idtEntry, number]
  constructor
  · rw [place, low, ← place, gate.low]
  · rw [place, high, ← place, gate.high]

/-- The flags that the gate of a vector clears. -/
def clearedBy (v : Nat) : BitVec 32 :=
  if v = 31 then Core.clearedFlags else Core.clearedFlags ||| Core.interruptFlag

/-- An interrupt that has a stub enters it, in the segment of the kernel; another one has no
gate. -/
theorem interrupt_enters (c : Core) {idt : BitVec 32} {isrStubTable : Nat → BitVec 32}
    (table : HasIdt c.memory idt isrStubTable) {v : Nat} (byte : v < 256) :
    c.interrupt ⟨8 * 33 - 1, idt⟩ (BitVec.ofNat 8 v) =
      if v < 33 then some (c.enter ⟨isrStubTable v, 0x08, true, (gateFlags v).extractLsb' 0 5⟩
        (clearedBy v)) else none := by
  have number : (BitVec.ofNat 8 v).toNat = v := by
    rw [BitVec.toNat_ofNat]
    omega
  have limit : (8 * 33 - 1 : BitVec 16).toNat = 263 := by decide
  unfold Core.interrupt
  rw [number]
  simp only [limit]
  by_cases listed : v < 33
  · have gate := table v listed
    rw [gate.low, gate.high, decode_descriptor, if_neg (by omega), if_pos listed]
    unfold gateFlags clearedBy
    by_cases trap : v = 31
    · simp [trap, idtTrapGate]
    · simp [trap, idtInterruptGate]
  · rw [if_pos (by omega), if_neg listed]

/-! ## C functions -/

/-- A C function that was entered with the CPU in the state `entry` has returned: it has kept the
registers of the calling convention and some bytes of the stack. -/
structure Returned (base : BitVec 32) (size : Nat) (entry x : Cpu) : Prop where
  /-- The registers. -/
  regs : ∀ r ∈ [Reg.ebx, .esi, .edi, .ebp], x.regs r = entry.regs r
  /-- The return address is taken off the stack. -/
  esp : x.regs .esp = entry.regs .esp + 4#32
  /-- The stack of its callers. -/
  stack : Same x.memory entry.memory base size
  /-- The return. -/
  eip : x.eip = entry.memory.load (entry.regs .esp)

/-- A task that was switched away from in the state `s` goes on: it has everything back but
`ebx`. -/
structure Resumed (base : BitVec 32) (own size : Nat) (s : Cpu) (returnAddress : BitVec 32)
    (x : Cpu) : Prop where
  /-- The registers. -/
  regs : ∀ r ∈ [Reg.esi, .edi, .ebp, .esp], x.regs r = s.regs r
  /-- The address of the save area. -/
  ebx : x.regs .ebx = s.saveArgument
  /-- The stack. -/
  stack : Same x.memory s.memory (base - BitVec.ofNat 32 own) (own + size)
  /-- The place. -/
  eip : x.eip = returnAddress

/-- A function that was entered with the CPU in the state `entry` obeys the calling convention,
although the switches it makes change `ebx`. -/
def Obeys (base : BitVec 32) (own size : Nat) (entry : Cpu) : Handler → Prop
  | .returns x => Returned base size entry x
  | .swaps s returnAddress resume =>
    ∀ x, Resumed base own size s returnAddress x → Obeys base own size entry (resume x)

/-- Through all of its switches the function keeps the calling convention. -/
theorem Runs.returned {base : BitVec 32} {own size : Nat} {entry final : Cpu} {handler : Handler}
    (runs : Runs base own size handler final) (obeys : Obeys base own size entry handler) :
    Returned base size entry final := by
  induction runs with
  | returns s => exact obeys
  | @swaps s final returnAddress resume chain last resumed apart argument state area frame stack
      rest ih =>
    apply ih
    apply obeys
    have back : SwitchedBack s returnAddress chain last := by
      rw [← state] at area frame
      exact ⟨argument, area, frame⟩
    obtain ⟨ebx, esi, edi, ebp, esp, eip⟩ := back.regs s apart state
    refine ⟨?_, ebx, stack, eip⟩
    simp [esi, edi, ebp, esp]

/-! ## The timer -/

/-- A register after a `call`. -/
theorem call_regs (c : Core) (returnAddress : BitVec 32) {r : Reg} (other : r ≠ .esp) :
    (c.call returnAddress).regs r = c.regs r := by
  simp only [Core.call, Cpu.pushWord, set_regs, if_neg other]

/-- The entry of `PIT_isr_handler`. -/
def Core.timerEntry (taken : Core) (returnAddress : BitVec 32) : Core :=
  (runStub timerEnter taken).call returnAddress

/-- What is on the stack at the entry of `PIT_isr_handler`, and the registers there. -/
theorem timerEntry_spec (c : Core) (gate : Gate) (cleared returnAddress : BitVec 32) :
    ((c.enter gate cleared).timerEntry returnAddress).memory = c.memory.pushWords (c.regs .esp)
        [c.eflags, c.cs.setWidth 32, c.eip, c.regs .ebp, c.regs .eax, c.regs .ecx, c.regs .edx,
          returnAddress] ∧
      ((c.enter gate cleared).timerEntry returnAddress).regs .esp = c.regs .esp - 32#32 ∧
      ((c.enter gate cleared).timerEntry returnAddress).regs .ebp = c.regs .esp - 16#32 ∧
      ∀ r ∈ [Reg.ebx, .esi, .edi],
        ((c.enter gate cleared).timerEntry returnAddress).regs r = c.regs r := by
  have below : c.regs .esp - 4#32 - 4#32 - 4#32 - 4#32 = c.regs .esp - 16#32 := by bv_omega
  have lowest : c.regs .esp - 16#32 - 4#32 - 4#32 - 4#32 - 4#32 = c.regs .esp - 32#32 := by
    bv_omega
  refine ⟨?_, ?_, ?_, ?_⟩
  · simp [Core.timerEntry, Core.call, timerEnter, runStub, StubInstr.exec, Instr.exec, Core.enter,
      Cpu.pushWord, set_regs, pushWords]
  · simp [Core.timerEntry, Core.call, timerEnter, runStub, StubInstr.exec, Instr.exec, Core.enter,
      Cpu.pushWord, set_regs, below, lowest]
  · simp [Core.timerEntry, Core.call, timerEnter, runStub, StubInstr.exec, Instr.exec, Core.enter,
      Cpu.pushWord, set_regs, below]
  · simp [Core.timerEntry, Core.call, timerEnter, runStub, StubInstr.exec, Instr.exec, Core.enter,
      Cpu.pushWord, set_regs]

/-- What the end of the stub loads. -/
theorem timerLeave_run (x : Core) (frame : BitVec 32) (stack : x.regs .esp = frame)
    (place : x.regs .ebp = frame + 12#32) :
    (runStub timerLeave x).regs .edx = x.memory.load frame ∧
      (runStub timerLeave x).regs .ecx = x.memory.load (frame + 4#32) ∧
      (runStub timerLeave x).regs .eax = x.memory.load (frame + 8#32) ∧
      (runStub timerLeave x).regs .ebp = x.memory.load (frame + 12#32) ∧
      (runStub timerLeave x).eip = x.memory.load (frame + 16#32) ∧
      (runStub timerLeave x).cs = (x.memory.load (frame + 20#32)).setWidth 16 ∧
      (runStub timerLeave x).eflags = x.memory.load (frame + 24#32) ∧
      (runStub timerLeave x).regs .esp = frame + 28#32 ∧
      (∀ r ∈ [Reg.ebx, .esi, .edi], (runStub timerLeave x).regs r = x.regs r) ∧
      (runStub timerLeave x).memory = x.memory := by
  subst stack
  refine ⟨?_, ?_, ?_, ?_, ?_, ?_, ?_, ?_, ?_, ?_⟩
  all_goals
    simp [timerLeave, runStub, StubInstr.exec, Instr.exec, Cpu.drop, Cpu.top, set_regs, place,
      BitVec.add_assoc]

/-- The CPU behind the stub, when `PIT_isr_handler` has left it in the state `final`. -/
def Core.timerReturn (taken : Core) (final : Cpu) : Core :=
  runStub timerLeave { taken with toCpu := final }

/-- The words of the frame that the stub of the timer loads. -/
theorem timerEntry_words (c : Core) (gate : Gate) (cleared returnAddress : BitVec 32) {n : Nat}
    {final : Cpu} (same : Same final.memory
      ((c.enter gate cleared).timerEntry returnAddress).memory (c.regs .esp - 28#32) (28 + n)) :
    final.memory.load (c.regs .esp - 28#32) = c.regs .edx ∧
      final.memory.load (c.regs .esp - 28#32 + 4#32) = c.regs .ecx ∧
      final.memory.load (c.regs .esp - 28#32 + 8#32) = c.regs .eax ∧
      final.memory.load (c.regs .esp - 28#32 + 12#32) = c.regs .ebp ∧
      final.memory.load (c.regs .esp - 28#32 + 16#32) = c.eip ∧
      final.memory.load (c.regs .esp - 28#32 + 20#32) = c.cs.setWidth 32 ∧
      final.memory.load (c.regs .esp - 28#32 + 24#32) = c.eflags := by
  rw [(timerEntry_spec c gate cleared returnAddress).1] at same
  generalize c.regs .esp = esp at same ⊢
  let pushed := [c.eflags, c.cs.setWidth 32, c.eip, c.regs .ebp, c.regs .eax, c.regs .ecx,
    c.regs .edx, returnAddress]
  -- the word `i` from the top
  have word (i : Nat) (inside : i < 7) : final.memory.load
      (esp - 28#32 + BitVec.ofNat 32 (4 * (6 - i))) = pushed.getD i 0 := by
    have place : esp - 28#32 + BitVec.ofNat 32 (4 * (6 - i)) =
        esp - BitVec.ofNat 32 (4 * (i + 1)) := by bv_omega
    rw [same.load (by omega), place]
    exact load_pushWords_getD pushed c.memory esp (show 4 * 8 ≤ 2 ^ 32 by decide)
      (Nat.lt_of_lt_of_le inside (show 7 ≤ 8 by decide))
  have lowest := word 6 (by decide)
  rw [BitVec.add_zero] at lowest
  exact ⟨lowest, word 5 (by decide), word 4 (by decide), word 3 (by decide), word 2 (by decide),
    word 1 (by decide), word 0 (by decide)⟩

/-- An interrupt of the timer at any instruction, with any handler that obeys the calling convention
and any switches to other tasks and back: it enters `isr_stub_32` with interrupts off, and behind
the stub the interrupted code finds all its registers, its flags and its stack as they were. -/
theorem timer_transparent (c : Core) {start : Memory} {idt returnAddress : BitVec 32}
    {isrStubTable : Nat → BitVec 32} {n : Nat}
    (table : Same c.memory (idtInit start idt isrStubTable).1 idt 264) (fits : 32 + n ≤ 2 ^ 32) :
    ∃ taken, c.interrupt (idtInit start idt isrStubTable).2 32 = some taken ∧
      taken.eip = isrStubTable 32 ∧ taken.eflags.getLsbD 9 = false ∧
      ∀ own handler final, Runs (c.regs .esp - 28#32) own (28 + n) handler final →
        Obeys (c.regs .esp - 28#32) own (28 + n) (taken.timerEntry returnAddress).toCpu handler →
        (∀ r, (taken.timerReturn final).regs r = c.regs r) ∧
          (taken.timerReturn final).eflags = c.eflags ∧
          (taken.timerReturn final).eip = c.eip ∧ (taken.timerReturn final).cs = c.cs ∧
          Same (taken.timerReturn final).memory c.memory (c.regs .esp) n := by
  have gates := hasIdt_same table
  have enters := interrupt_enters c gates (v := 32) (by decide)
  rw [if_pos (by decide)] at enters
  refine ⟨_, enters, rfl, ?_, ?_⟩
  · simp [Core.enter, clearedBy, Core.clearedFlags, Core.interruptFlag]
  · intro own handler final runs obeys
    have returned := runs.returned obeys
    obtain ⟨-, esp, ebp, others⟩ := timerEntry_spec c
      ⟨isrStubTable 32, 0x08, true, (gateFlags 32).extractLsb' 0 5⟩ (clearedBy 32) returnAddress
    obtain ⟨edxWord, ecxWord, eaxWord, ebpWord, eipWord, csWord, flagsWord⟩ :=
      timerEntry_words c _ (clearedBy 32) returnAddress returned.stack
    have stack : final.regs .esp = c.regs .esp - 28#32 := by
      have place : c.regs .esp - 32#32 + 4#32 = c.regs .esp - 28#32 := by bv_omega
      rw [returned.esp, esp, place]
    have frame : final.regs .ebp = c.regs .esp - 28#32 + 12#32 := by
      have place : c.regs .esp - 16#32 = c.regs .esp - 28#32 + 12#32 := by bv_omega
      rw [returned.regs .ebp (by decide), ebp, place]
    obtain ⟨edx, ecx, eax, ebpLoaded, eip, cs, flags, espLeft, untouched, memory⟩ :=
      timerLeave_run { c.enter ⟨isrStubTable 32, 0x08, true, (gateFlags 32).extractLsb' 0 5⟩
        (clearedBy 32) with toCpu := final } _ stack frame
    unfold Core.timerReturn
    refine ⟨?_, flags.trans flagsWord, eip.trans eipWord, ?_, ?_⟩
    · intro r
      have kept (listed : r ∈ [Reg.ebx, .esi, .edi]) (saved : r ∈ [Reg.ebx, .esi, .edi, .ebp]) :=
        (untouched r listed).trans ((returned.regs r saved).trans (others r listed))
      cases r with
      | eax => exact eax.trans eaxWord
      | ecx => exact ecx.trans ecxWord
      | edx => exact edx.trans edxWord
      | ebp => exact ebpLoaded.trans ebpWord
      | esp => rw [espLeft, BitVec.sub_add_cancel]
      | ebx | esi | edi => exact kept (by decide) (by decide)
    · rw [cs, csWord]
      apply BitVec.eq_of_toNat_eq
      simp
    · have upper := returned.stack.part (i := 28) (n := n) (Nat.le_refl _)
      rw [BitVec.sub_add_cancel, (timerEntry_spec c _ _ _).1] at upper
      rw [memory]
      exact upper.trans ((Same.refl _ _ _).pushWords _ (apart_below (c.regs .esp) fits))

/-- The addresses of some stubs. -/
def sampleStubs (v : Nat) : BitVec 32 := BitVec.ofNat 32 (0x100000 + 16 * v)

/-- Some code that is interrupted. -/
def sampleCode : Core where
  regs r := if r = .esp then 0x8000 else 7
  eflags := 0x602
  eip := 0x4000
  memory := (idtInit (fun _ => 0) 0x2000 sampleStubs).1
  cs := 0x08

/-- A function returns at once. -/
def returnAtOnce (entry : Cpu) : Cpu := { entry.drop with eip := entry.top }

/-- A function puts `ebx` on the stack and the arguments of `swap_task_registers`, calls it, takes
the arguments off the stack, gets its `ebx` back and returns. -/
def switchOnce (entry : Cpu) (save load returnAddress : BitVec 32) : Handler :=
  .swaps (((entry.pushWord (entry.regs .ebx)).pushWord load).pushWord save) returnAddress fun x =>
    .returns (returnAtOnce ((Instr.pop .ebx).exec x.drop.drop))

/-- The function obeys the calling convention, since its own frame stays while other tasks run. -/
theorem switchOnce_obeys (entry : Cpu) (save load returnAddress : BitVec 32) {size : Nat}
    (fits : 12 + (4 + size) ≤ 2 ^ 32) :
    Obeys (entry.regs .esp + 4#32) 16 size entry (switchOnce entry save load returnAddress) := by
  intro x resumed
  have base : entry.regs .esp + 4#32 - 16#32 = entry.regs .esp - 12#32 := by bv_omega
  have pushed : (((entry.pushWord (entry.regs .ebx)).pushWord load).pushWord save).memory =
      entry.memory.pushWords (entry.regs .esp) [entry.regs .ebx, load, save] := by
    simp [Cpu.pushWord, set_regs, pushWords]
  have esp : x.regs .esp = entry.regs .esp - 12#32 := by
    rw [resumed.regs .esp (by decide)]
    simp only [Cpu.pushWord, set_regs, if_true]
    bv_omega
  have stack := resumed.stack
  rw [base, pushed] at stack
  -- Above the three words, the memory is that of the entry.
  have above : Same x.memory entry.memory (entry.regs .esp) (4 + size) := by
    have part := stack.part (i := 12) (n := 4 + size) (by omega)
    have place : entry.regs .esp - 12#32 + BitVec.ofNat 32 12 = entry.regs .esp := by bv_omega
    rw [place] at part
    exact part.trans ((Same.refl entry.memory _ _).pushWords [entry.regs .ebx, load, save]
      (apart_below (entry.regs .esp) fits))
  have ebx : x.memory.load (entry.regs .esp - 4#32) = entry.regs .ebx := by
    have word := stack.load (i := 8) (by omega)
    have place : entry.regs .esp - 12#32 + BitVec.ofNat 32 8 = entry.regs .esp - 4#32 := by bv_omega
    rw [place] at word
    exact word.trans (load_pushWords_getD [entry.regs .ebx, load, save] entry.memory
      (entry.regs .esp) (show 4 * 3 ≤ 2 ^ 32 by decide) (i := 0) (show 0 < 3 by decide))
  have target : x.memory.load (entry.regs .esp) = entry.memory.load (entry.regs .esp) := by
    have word := above.load (i := 0) (by omega)
    rwa [BitVec.add_zero] at word
  have kept (r : Reg) (saved : r ∈ [Reg.esi, .edi, .ebp]) : x.regs r = entry.regs r := by
    have same := resumed.regs r (by revert saved; cases r <;> decide)
    have plain : r ≠ .esp := by
      rintro rfl
      exact absurd saved (by decide)
    simpa [Cpu.pushWord, set_regs, plain] using same
  have slot : entry.regs .esp - 12#32 + 4#32 + 4#32 = entry.regs .esp - 4#32 := by bv_omega
  have back : entry.regs .esp - 4#32 + 4#32 = entry.regs .esp := BitVec.sub_add_cancel ..
  constructor
  case regs =>
    intro r saved
    cases r with
    | ebx => simp [returnAtOnce, Instr.exec, Cpu.drop, Cpu.top, set_regs, esp, slot, ebx]
    | esi => simpa [returnAtOnce, Instr.exec, Cpu.drop, set_regs] using kept .esi (by decide)
    | edi => simpa [returnAtOnce, Instr.exec, Cpu.drop, set_regs] using kept .edi (by decide)
    | ebp => simpa [returnAtOnce, Instr.exec, Cpu.drop, set_regs] using kept .ebp (by decide)
    | eax | ecx | edx | esp => exact absurd saved (by decide)
  case esp => simp [returnAtOnce, Instr.exec, Cpu.drop, set_regs, esp, slot, back]
  case stack => exact above.part (i := 4) (Nat.le_refl _)
  case eip =>
    simp [returnAtOnce, Instr.exec, Cpu.drop, Cpu.top, Cpu.set, esp, slot, back, target]

/-- Another task switches back: its arguments are on its own stack. -/
def otherTurn : Turn where
  code x := { x.set .esp 0x9000 with
    memory := (x.memory.store 0x9000 0xB000).store 0x9004 0xA000 }
  returnAddress := 0x600

/-- What lies beside the save area of the other task and its stack stays. -/
theorem otherTurn_same (x : Cpu) {base : BitVec 32} {length : Nat}
    (area : AreasApart base length 0xB000 36) (stack : AreasApart base length 0x8FF4 20) :
    Same (otherTurn.take x).memory x.memory base length := by
  have saves : (otherTurn.code x).saveArgument = 0xB000 := by
    have stacked : (otherTurn.code x).saveArgument =
        ((x.memory.store 0x9000 0xB000).store 0x9004 0xA000).load 0x9000 := by
      simp [otherTurn, Cpu.saveArgument, set_regs]
    rw [stacked, load_store_apart (by decide), load_store]
  have top : (otherTurn.code x).regs .esp - 12#32 = 0x8FF4 := by
    simp [otherTurn, set_regs]
  have first := stack.part (i := 12) (n := 4) (by decide)
  have second := stack.part (i := 16) (n := 4) (by decide)
  have below := stack.part (i := 0) (n := 12) (by decide)
  rw [BitVec.add_zero] at below
  refine (callSwap_same (otherTurn.code x) 0x600 ?_ ?_).trans ?_
  · rw [saves]
    exact area
  · rw [top]
    exact below
  · exact ((Same.refl x.memory base length).store first).store second

/-- The handler that switches to the other task and back runs to its end. -/
theorem switchOnce_runs {entry : Cpu} (esp : entry.regs .esp = 0x7FE0) :
    ∃ final, Runs 0x7FE4 16 92 (switchOnce entry 0xA000 0xB000 0x500) final := by
  obtain ⟨s, call⟩ : ∃ s, ((entry.pushWord (entry.regs .ebx)).pushWord 0xB000).pushWord 0xA000 = s :=
    ⟨_, rfl⟩
  have stack : s.regs .esp = 0x7FD4 := by
    subst call
    simp [Cpu.pushWord, set_regs, esp]
  have saves : s.saveArgument = 0xA000 := by
    subst call
    simp [Cpu.pushWord, Cpu.saveArgument, set_regs]
  have others (base : BitVec 32) (length : Nat) (area : AreasApart base length 0xB000 36)
      (below : AreasApart base length 0x8FF4 20) :=
    otherTurn_same (s.callSwap 0x500) area below
  unfold switchOnce
  rw [call]
  refine ⟨_, .swaps [] otherTurn ?_ ?_ rfl ?_ ?_ ?_ (.returns _)⟩
  · rw [saves, stack]
    decide +kernel
  · rw [saves]
    simp [otherTurn, Cpu.loadArgument, set_regs]
  · rw [saves]
    exact others _ _ (by decide +kernel) (by decide +kernel)
  · rw [stack]
    exact others _ _ (by decide +kernel) (by decide +kernel)
  · refine (others _ _ (by decide +kernel) (by decide +kernel)).trans (callSwap_same s 0x500 ?_ ?_)
    · rw [saves]
      decide +kernel
    · rw [stack]
      decide +kernel

/-- The timer with a handler that switches to another task and back. -/
theorem timer_transparent_switch : ∃ taken final,
    sampleCode.interrupt (idtInit (fun _ => 0) 0x2000 sampleStubs).2 32 = some taken ∧
      taken.eip = 0x100200 ∧
      Runs 0x7FE4 16 92 (switchOnce (taken.timerEntry 0x300).toCpu 0xA000 0xB000 0x500) final ∧
      ∀ r, (taken.timerReturn final).regs r = sampleCode.regs r := by
  obtain ⟨taken, enters, eip, -, behind⟩ := @timer_transparent sampleCode (fun _ => 0) 0x2000 0x300
    sampleStubs 64 (Same.refl _ _ _) (by decide)
  have esp : (taken.timerEntry 0x300).regs .esp = 0x7FE0 := by
    have gate := interrupt_enters sampleCode (hasIdt_same (Same.refl (idtInit (fun _ => 0) 0x2000
      sampleStubs).1 0x2000 264)) (v := 32) (by decide)
    obtain rfl := Option.some.inj (enters.symm.trans gate)
    exact (timerEntry_spec sampleCode _ _ _).2.1
  have base : sampleCode.regs .esp - 28#32 = 0x7FE4 := by decide
  rw [base] at behind
  obtain ⟨final, runs⟩ := switchOnce_runs esp
  have obeys : Obeys ((taken.timerEntry 0x300).regs .esp + 4#32) 16 92 (taken.timerEntry 0x300).toCpu
      (switchOnce (taken.timerEntry 0x300).toCpu 0xA000 0xB000 0x500) :=
    switchOnce_obeys (taken.timerEntry 0x300).toCpu 0xA000 0xB000 0x500 (by decide)
  rw [esp] at obeys
  exact ⟨taken, final, enters, eip, runs, (behind 16 _ _ runs obeys).1⟩

end FelineOS.I386
