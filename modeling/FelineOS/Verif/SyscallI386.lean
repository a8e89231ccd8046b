import FelineOS.Kernel.Syscall
import FelineOS.Verif.InterruptI386

/-!
# A system call from end to end

`raw_syscall` puts its arguments into registers and raises an interrupt, and the stub puts them back
on the stack. So calling `raw_syscall` is calling `syscall_handler`, and the functions of the libc
get what the kernel wrote for them.
-/

namespace FelineOS.I386

open Library Memory

/-- The CPU at the `int` of `raw_syscall`, which was called from the CPU in the state `c`; `behind`
is the address of the next instruction. -/
def Core.rawSyscall (c : Core) (returnAddress behind : BitVec 32) : Core :=
  { runStub rawSyscallEnter (c.call returnAddress) with eip := behind }

/-- The entry of `syscall_handler`. -/
def Core.syscallEntry (taken : Core) (callSite : BitVec 32) : Core :=
  (runStub syscallEnter taken).call callSite

/-- The CPU behind `raw_syscall`, when `syscall_handler` has left it in the state `final`. -/
def Core.syscallReturn (taken : Core) (final : Cpu) : Core :=
  runStub rawSyscallLeave (runStub syscallLeave { taken with toCpu := final })

/-- An argument of a C function, at its entry. -/
def Core.argument (c : Core) (i : Nat) : BitVec 32 :=
  c.memory.load (c.regs .esp + BitVec.ofNat 32 (4 + 4 * i))

/-- The `bool` that a C function returned. -/
def Core.returnedBool (c : Core) : Bool := (c.regs .eax).extractLsb' 0 8 ≠ 0

/-- What the caller of `raw_syscall` has on the stack. -/
structure SyscallArguments (c : Core) (which args result : BitVec 32) : Prop where
  /-- `which`. -/
  which : c.memory.load (c.regs .esp) = which
  /-- `args`. -/
  args : c.memory.load (c.regs .esp + 4#32) = args
  /-- `result`. -/
  result : c.memory.load (c.regs .esp + 8#32) = result

/-- The CPU at the `int`. -/
theorem rawSyscall_spec (c : Core) {returnAddress behind which args result : BitVec 32}
    (arguments : SyscallArguments c which args result) :
    (c.rawSyscall returnAddress behind).memory =
        c.memory.pushWords (c.regs .esp) [returnAddress, c.regs .ebp] ∧
      (c.rawSyscall returnAddress behind).regs .esp = c.regs .esp - 8#32 ∧
      (c.rawSyscall returnAddress behind).regs .ebp = c.regs .esp - 8#32 ∧
      (c.rawSyscall returnAddress behind).regs .eax = which ∧
      (c.rawSyscall returnAddress behind).regs .ecx = args ∧
      (c.rawSyscall returnAddress behind).regs .edx = result ∧
      (∀ r ∈ [Reg.ebx, .esi, .edi], (c.rawSyscall returnAddress behind).regs r = c.regs r) ∧
      (c.rawSyscall returnAddress behind).eflags = c.eflags ∧
      (c.rawSyscall returnAddress behind).cs = c.cs ∧
      (c.rawSyscall returnAddress behind).eip = behind := by
  have place : c.regs .esp - 4#32 - 4#32 = c.regs .esp - 8#32 := by bv_omega
  have first : c.regs .esp - 8#32 + 8#32 = c.regs .esp := BitVec.sub_add_cancel ..
  have second : c.regs .esp - 8#32 + 12#32 = c.regs .esp + 4#32 := by bv_omega
  have third : c.regs .esp - 8#32 + 16#32 = c.regs .esp + 8#32 := by bv_omega
  -- the arguments are above what was pushed
  have argument (distance : Nat) (small : distance ≤ 8) :
      ((c.memory.store (c.regs .esp - 4#32) returnAddress).store (c.regs .esp - 8#32)
        (c.regs .ebp)).load (c.regs .esp + BitVec.ofNat 32 distance) =
          c.memory.load (c.regs .esp + BitVec.ofNat 32 distance) := by
    have above : Apart (c.regs .esp + BitVec.ofNat 32 distance) (c.regs .esp - 8#32) ∧
        Apart (c.regs .esp + BitVec.ofNat 32 distance) (c.regs .esp - 4#32) := by
      clear place first second third arguments
      generalize c.regs .esp = esp
      unfold Apart
      bv_omega
    rw [load_store_apart above.1, load_store_apart above.2]
  have whichWord := argument 0 (by decide)
  rw [BitVec.add_zero, arguments.which] at whichWord
  have argsWord := (argument 4 (by decide)).trans arguments.args
  have resultWord := (argument 8 (by decide)).trans arguments.result
  refine ⟨?_, ?_, ?_, ?_, ?_, ?_, ?_, ?_, ?_, ?_⟩
  all_goals
    simp [Core.rawSyscall, Core.call, rawSyscallEnter, runStub, StubInstr.exec, Instr.exec,
      Cpu.pushWord, set_regs, pushWords, place, first, second, third, whichWord, argsWord,
      resultWord]

/-- The entry of `syscall_handler`, from the CPU `x` at the `int`. -/
theorem syscallEntry_spec (x : Core) (gate : Gate) (cleared callSite : BitVec 32) :
    ((x.enter gate cleared).syscallEntry callSite).memory = x.memory.pushWords (x.regs .esp)
        [x.eflags, x.cs.setWidth 32, x.eip, x.regs .ebp, x.regs .edx, x.regs .ecx, x.regs .eax,
          callSite] ∧
      ((x.enter gate cleared).syscallEntry callSite).regs .esp = x.regs .esp - 32#32 ∧
      ((x.enter gate cleared).syscallEntry callSite).regs .ebp = x.regs .esp - 16#32 ∧
      (∀ r ∈ [Reg.ebx, .esi, .edi],
        ((x.enter gate cleared).syscallEntry callSite).regs r = x.regs r) ∧
      ((x.enter gate cleared).syscallEntry callSite).eflags =
        x.eflags &&& ~~~cleared &&& ~~~0x400#32 := by
  have below : x.regs .esp - 4#32 - 4#32 - 4#32 - 4#32 = x.regs .esp - 16#32 := by bv_omega
  have lowest : x.regs .esp - 16#32 - 4#32 - 4#32 - 4#32 - 4#32 = x.regs .esp - 32#32 := by
    bv_omega
  refine ⟨?_, ?_, ?_, ?_, ?_⟩
  all_goals
    simp [Core.syscallEntry, Core.call, syscallEnter, runStub, StubInstr.exec, Instr.exec,
      Core.enter, Cpu.pushWord, set_regs, pushWords, below, lowest]

/-- The end of the stub and the end of `raw_syscall`. -/
theorem syscallReturn_run (taken : Core) (final : Cpu) {frame raw : BitVec 32}
    (place : final.regs .ebp = frame) (saved : final.memory.load frame = raw) :
    (taken.syscallReturn final).regs .ebp = final.memory.load raw ∧
      (taken.syscallReturn final).eip = final.memory.load (raw + 4#32) ∧
      (taken.syscallReturn final).regs .esp = raw + 8#32 ∧
      (taken.syscallReturn final).cs = (final.memory.load (frame + 8#32)).setWidth 16 ∧
      (taken.syscallReturn final).eflags = final.memory.load (frame + 12#32) ∧
      (∀ r, r ∉ [Reg.ebp, .esp] → (taken.syscallReturn final).regs r = final.regs r) ∧
      (taken.syscallReturn final).memory = final.memory := by
  subst place saved
  refine ⟨?_, ?_, ?_, ?_, ?_, ?_, ?_⟩
  case refine_6 =>
    intro r other
    simp only [List.mem_cons, List.not_mem_nil, or_false, not_or] at other
    simp [Core.syscallReturn, syscallLeave, rawSyscallLeave, runStub, StubInstr.exec, Instr.exec,
      Cpu.drop, Cpu.top, set_regs, other]
  all_goals
    simp [Core.syscallReturn, syscallLeave, rawSyscallLeave, runStub, StubInstr.exec, Instr.exec,
      Cpu.drop, Cpu.top, set_regs, BitVec.add_assoc]

/-- The stack at the entry of `syscall_handler`. -/
theorem syscall_pushed (c : Core) {returnAddress behind callSite which args result : BitVec 32}
    (arguments : SyscallArguments c which args result) (gate : Gate) (cleared : BitVec 32) :
    (((c.rawSyscall returnAddress behind).enter gate cleared).syscallEntry callSite).memory =
      c.memory.pushWords (c.regs .esp) [returnAddress, c.regs .ebp, c.eflags, c.cs.setWidth 32,
        behind, c.regs .esp - 8#32, result, args, which, callSite] := by
  obtain ⟨memory, esp, ebp, eax, ecx, edx, -, flags, cs, eip⟩ :=
    @rawSyscall_spec c returnAddress behind which args result arguments
  obtain ⟨entry, -⟩ := syscallEntry_spec (c.rawSyscall returnAddress behind) gate cleared callSite
  rw [entry, memory, esp, ebp, eax, ecx, edx, flags, cs, eip]
  exact (pushWords_append [returnAddress, c.regs .ebp] _ c.memory (c.regs .esp)).symm

section Call

variable (c : Core) {returnAddress behind callSite which args result : BitVec 32}

/-- The words on the stack of the caller when `syscall_handler` is done, and its arguments when it
is entered. -/
theorem syscall_words (arguments : SyscallArguments c which args result) (gate : Gate)
    (cleared : BitVec 32) {i : Nat} (inside : i < 10) :
    (((c.rawSyscall returnAddress behind).enter gate cleared).syscallEntry callSite).memory.load
        (c.regs .esp - BitVec.ofNat 32 (4 * (i + 1))) =
      [returnAddress, c.regs .ebp, c.eflags, c.cs.setWidth 32, behind, c.regs .esp - 8#32, result,
        args, which, callSite].getD i 0 := by
  rw [syscall_pushed c arguments gate cleared]
  exact load_pushWords_getD _ c.memory (c.regs .esp) (by simp) inside

/-- Calling `raw_syscall` is calling `syscall_handler`: the interrupt enters `isr_stub_31` with
interrupts as they were, the handler gets the three arguments, the memory outside of ten words of
the stack and a clear direction flag, and for any handler that obeys the calling convention, with any switches to other tasks and back,
`raw_syscall` obeys it as well and returns what the handler did. The flags are restored. -/
theorem rawSyscall_calls {start : Memory} {idt : BitVec 32} {isrStubTable : Nat → BitVec 32}
    {n : Nat} (table : Same c.memory (idtInit start idt isrStubTable).1 idt 264)
    (apart : AreasApart idt 264 (c.regs .esp - 8#32) 8)
    (arguments : SyscallArguments c which args result) (fits : 40 + n ≤ 2 ^ 32) :
    ∃ taken, (c.rawSyscall returnAddress behind).interrupt (idtInit start idt isrStubTable).2 31 =
        some taken ∧ taken.eip = isrStubTable 31 ∧
      (taken.syscallEntry callSite).argument 0 = which ∧
      (taken.syscallEntry callSite).argument 1 = args ∧
      (taken.syscallEntry callSite).argument 2 = result ∧
      (∀ base length, AreasApart base length (c.regs .esp - 40#32) 40 →
        Same (taken.syscallEntry callSite).memory c.memory base length) ∧
      (taken.syscallEntry callSite).eflags.getLsbD 10 = false ∧
      (taken.syscallEntry callSite).eflags.getLsbD 9 = c.eflags.getLsbD 9 ∧
      ∀ own handler final, Runs (c.regs .esp - 24#32) own (24 + n) handler final →
        Obeys (c.regs .esp - 24#32) own (24 + n) (taken.syscallEntry callSite).toCpu handler →
        Returned (c.regs .esp) n (c.call returnAddress).toCpu (taken.syscallReturn final).toCpu ∧
          (taken.syscallReturn final).regs .eax = final.regs .eax ∧
          (taken.syscallReturn final).memory = final.memory ∧
          (taken.syscallReturn final).eflags = c.eflags ∧
          (taken.syscallReturn final).cs = c.cs := by
  obtain ⟨memory, esp, -, -, -, -, untouched, flags, -, -⟩ :=
    @rawSyscall_spec c returnAddress behind which args result arguments
  have stillThere : Same (c.rawSyscall returnAddress behind).memory
      (idtInit start idt isrStubTable).1 idt 264 := by
    rw [memory]
    exact table.pushWords _ apart
  have enters := interrupt_enters (c.rawSyscall returnAddress behind) (hasIdt_same stillThere)
    (v := 31) (by decide)
  rw [if_pos (by decide)] at enters
  obtain ⟨-, entryEsp, entryEbp, entryRegs, entryFlags⟩ := syscallEntry_spec
    (c.rawSyscall returnAddress behind)
    ⟨isrStubTable 31, 0x08, true, (gateFlags 31).extractLsb' 0 5⟩ (clearedBy 31) callSite
  have word (i : Nat) (inside : i < 10) := @syscall_words c returnAddress behind callSite which args
    result arguments ⟨isrStubTable 31, 0x08, true, (gateFlags 31).extractLsb' 0 5⟩ (clearedBy 31) i
    inside
  rw [esp] at entryEsp entryEbp
  rw [flags] at entryFlags
  have bottom : c.regs .esp - 8#32 - 32#32 = c.regs .esp - 40#32 := by bv_omega
  have frame : c.regs .esp - 8#32 - 16#32 = c.regs .esp - 24#32 := by bv_omega
  rw [bottom] at entryEsp
  rw [frame] at entryEbp
  refine ⟨_, enters, rfl, ?_, ?_, ?_, ?_, ?_, ?_, ?_⟩
  · have place : c.regs .esp - 40#32 + 4#32 = c.regs .esp - 36#32 := by bv_omega
    rw [Core.argument, entryEsp, Nat.mul_zero, Nat.add_zero, place]
    exact word 8 (by decide)
  · have place : c.regs .esp - 40#32 + 8#32 = c.regs .esp - 32#32 := by bv_omega
    rw [Core.argument, entryEsp, place]
    exact word 7 (by decide)
  · have place : c.regs .esp - 40#32 + 12#32 = c.regs .esp - 28#32 := by bv_omega
    rw [Core.argument, entryEsp, place]
    exact word 6 (by decide)
  · intro base length apart
    rw [syscall_pushed c arguments]
    exact (Same.refl c.memory base length).pushWords _ apart
  · rw [entryFlags]
    simp
  · rw [entryFlags]
    simp [clearedBy, Core.clearedFlags]
  · intro own handler final runs obeys
    have returned := runs.returned obeys
    -- what the two listings load is above what the handler may change
    have loaded (d i : Nat) (inside : d + 4 ≤ 24) (listed : i < 10)
        (place : c.regs .esp - 24#32 + BitVec.ofNat 32 d =
          c.regs .esp - BitVec.ofNat 32 (4 * (i + 1))) :=
      (returned.stack.load (i := d) (by omega)).trans
        ((congrArg _ place).trans (word i listed))
    have lowest := loaded 0 5 (by decide) (by decide) (BitVec.add_zero _)
    have cs := loaded 8 3 (by decide) (by decide) (by bv_omega)
    have eflags := loaded 12 2 (by decide) (by decide) (by bv_omega)
    have ebp := loaded 16 1 (by decide) (by decide) (by bv_omega)
    have eip := loaded 20 0 (by decide) (by decide) (by bv_omega)
    rw [BitVec.add_zero] at lowest
    have raw : final.memory.load (c.regs .esp - 24#32) = c.regs .esp - 8#32 := lowest
    have lower : c.regs .esp - 24#32 + 16#32 = c.regs .esp - 8#32 := by bv_omega
    have upper : c.regs .esp - 24#32 + 20#32 = c.regs .esp - 8#32 + 4#32 := by bv_omega
    rw [lower] at ebp
    rw [upper] at eip
    have place : final.regs .ebp = c.regs .esp - 24#32 := by
      rw [returned.regs .ebp (by decide), entryEbp]
    obtain ⟨ebpLoaded, eipLoaded, espLeft, csLoaded, flagsLoaded, others, memoryLeft⟩ :=
      syscallReturn_run ((c.rawSyscall returnAddress behind).enter
        ⟨isrStubTable 31, 0x08, true, (gateFlags 31).extractLsb' 0 5⟩ (clearedBy 31)) final place raw
    refine ⟨?_, others .eax (by decide), memoryLeft, flagsLoaded.trans eflags, ?_⟩
    · have kept (r : Reg) (plain : r ∉ [Reg.ebp, .esp]) (listed : r ∈ [Reg.ebx, .esi, .edi])
          (saved : r ∈ [Reg.ebx, .esi, .edi, .ebp]) :=
        (others r plain).trans ((returned.regs r saved).trans ((entryRegs r listed).trans
          (untouched r listed)))
      constructor
      case regs =>
        intro r saved
        rw [call_regs c returnAddress (by revert saved; cases r <;> decide)]
        cases r with
        | ebx | esi | edi => exact kept _ (by decide) (by decide) (by decide)
        | ebp => exact ebpLoaded.trans ebp
        | eax | ecx | edx | esp => exact absurd saved (by decide)
      case esp =>
        rw [espLeft]
        simp [Core.call, Cpu.pushWord, set_regs]
      case stack =>
        have upper := returned.stack.part (i := 24) (n := n) (Nat.le_refl _)
        rw [BitVec.sub_add_cancel, syscall_pushed c arguments] at upper
        have pushed := (Same.refl c.memory (c.regs .esp) n).pushWords
          [returnAddress] (@apart_below (c.regs .esp) n 4 (by omega))
        rw [memoryLeft]
        have all := (Same.refl c.memory (c.regs .esp) n).pushWords [returnAddress, c.regs .ebp,
          c.eflags, c.cs.setWidth 32, behind, c.regs .esp - 8#32, result, args, which, callSite]
          (apart_below (c.regs .esp) fits)
        exact (upper.trans all).trans fun i inside => (pushed i inside).symm
      case eip =>
        rw [eipLoaded, eip]
        simp [Core.call, Cpu.pushWord, set_regs]
    · rw [csLoaded, cs]
      apply BitVec.eq_of_toNat_eq
      simp

/-- `syscall_handler` calls the function that it has selected. -/
theorem syscallHandler_runs {m : Memory} {func : Memory → BitVec 32 → Memory}
    (selected : Syscall.realFunc which = some func) (someArgs : args ≠ 0) (someResult : result ≠ 0) :
    Syscall.syscallHandler m which args result = .ok (true, func m result) := by
  have notBoth : ¬ (args = 0 ∧ result = 0) := fun both => someArgs both.1
  have notOne : ¬ (args = 0 ∨ result = 0) := not_or.mpr ⟨someArgs, someResult⟩
  unfold Syscall.syscallHandler
  rw [selected]
  simp only [if_neg notBoth, if_neg notOne]

/-- `syscall_handler` refuses what the functions of the libc ask for. -/
theorem syscallHandler_refuses (call : Syscall.FileCall) (m : Memory) (someArgs : args ≠ 0)
    (someResult : result ≠ 0) :
    ∃ written, Syscall.syscallHandler m call.number args result = .ok (true, written) ∧
      ∀ later : Memory, Same later written result call.resultSize →
        call.finish true later result = (-1, some Syscall.enotsup) := by
  have apart : Apart result (result + 4#32) := by
    have offsets := (apart_offsets result 0#32 4#32).mpr (by decide)
    rwa [BitVec.add_zero] at offsets
  cases call
  all_goals
    refine ⟨_, syscallHandler_runs rfl someArgs someResult, ?_⟩
    intro later same
    have error := same.load (i := 0) (by simp [Syscall.FileCall.resultSize])
    rw [BitVec.add_zero] at error
  case close =>
    simp [Syscall.FileCall.finish, error, Syscall.scClose, Syscall.onError]
  all_goals
    have value := same.load (i := 4) (by simp [Syscall.FileCall.resultSize])
    simp [Syscall.FileCall.finish, error, value, Syscall.scOpen, Syscall.scRead, Syscall.scWrite,
      Syscall.onError, load_store_apart apart]

/-- `open`, `read`, `write` and `close` go through the interrupt to `syscall_handler` and back, with
any switches to other tasks meanwhile. Whatever they are called with, the handler gets the number, both
pointers and what the function put at the first one, the caller gets its registers, its flags and its
stack back, and the function returns -1 with `errno` set to `ENOTSUP`. -/
theorem fileCall_notSupported (call : Syscall.FileCall) {start : Memory} {idt : BitVec 32}
    {isrStubTable : Nat → BitVec 32} {n : Nat}
    (table : Same c.memory (idtInit start idt isrStubTable).1 idt 264)
    (apart : AreasApart idt 264 (c.regs .esp - 8#32) 8)
    (arguments : SyscallArguments c call.number args result) (someArgs : args ≠ 0)
    (someResult : result ≠ 0) (fits : 40 + n ≤ 2 ^ 32) :
    ∃ taken, (c.rawSyscall returnAddress behind).interrupt (idtInit start idt isrStubTable).2 31 =
        some taken ∧ taken.eip = isrStubTable 31 ∧
      (taken.syscallEntry callSite).argument 0 = call.number ∧
      (taken.syscallEntry callSite).argument 1 = args ∧
      (taken.syscallEntry callSite).argument 2 = result ∧
      (c.memory.loadWords args call.arguments.length = call.arguments →
        AreasApart args (4 * call.arguments.length) (c.regs .esp - 40#32) 40 →
        (taken.syscallEntry callSite).memory.loadWords args call.arguments.length =
          call.arguments) ∧
      ∀ own handler final valid written, Runs (c.regs .esp - 24#32) own (24 + n) handler final →
        Obeys (c.regs .esp - 24#32) own (24 + n) (taken.syscallEntry callSite).toCpu handler →
        Syscall.syscallHandler (taken.syscallEntry callSite).memory
          ((taken.syscallEntry callSite).argument 0) ((taken.syscallEntry callSite).argument 1)
          ((taken.syscallEntry callSite).argument 2) = .ok (valid, written) →
        Same final.memory written result call.resultSize →
        ((final.regs .eax).extractLsb' 0 8 ≠ 0 ↔ valid = true) →
        Returned (c.regs .esp) n (c.call returnAddress).toCpu (taken.syscallReturn final).toCpu ∧
          (taken.syscallReturn final).eflags = c.eflags ∧
          call.finish (taken.syscallReturn final).returnedBool (taken.syscallReturn final).memory
            result = (-1, some Syscall.enotsup) := by
  obtain ⟨taken, enters, eip, which, first, second, frame, -, -, behindHandler⟩ :=
    @rawSyscall_calls c returnAddress behind callSite _ args result start idt isrStubTable n table
      apart arguments fits
  refine ⟨taken, enters, eip, which, first, second, ?_, ?_⟩
  · intro stored beside
    have words := (frame args _ beside).loadWords (i := 0) (n := call.arguments.length) (by omega)
    rw [BitVec.add_zero] at words
    exact words.trans stored
  intro own handler final valid written runs obeys handles same bool
  obtain ⟨returned, eax, memory, flags, -⟩ := behindHandler own handler final runs obeys
  obtain ⟨refused, isRefused, finishes⟩ :=
    syscallHandler_refuses call (taken.syscallEntry callSite).memory someArgs someResult
  rw [which, first, second, isRefused] at handles
  obtain ⟨rfl, rfl⟩ := Prod.mk.inj (Except.ok.inj handles)
  have isTrue : (taken.syscallReturn final).returnedBool = true := by
    rw [Core.returnedBool, eax]
    simpa using bool
  rw [isTrue, memory]
  exact ⟨returned, flags, finishes _ same⟩

end Call

/-! ## One call -/

/-- The CPU at the call of `raw_syscall` in `open`. -/
def sampleCaller : Core where
  regs r := if r = .esp then 0x8000 else 7
  eflags := 0x202
  eip := 0
  memory := (idtInit (Memory.storeWords (fun _ => 0) 0x8000 [1, 0x9000, 0x9100]) 0x2000
    sampleStubs).1
  cs := 0x08

/-- `syscall_handler` for the result at 0x9100. -/
def sampleHandler (entry : Cpu) : Cpu :=
  { (returnAtOnce entry).set .eax 1 with memory := Syscall.scOpen entry.memory 0x9100 }

/-- A call of `open`. -/
theorem fileCall_notSupported_open : ∃ taken,
    (sampleCaller.rawSyscall 0x300 0x400).interrupt (idtInit (Memory.storeWords (fun _ => 0) 0x8000
      [1, 0x9000, 0x9100]) 0x2000 sampleStubs).2 31 = some taken ∧
    (Syscall.FileCall.open 0x5000 0).finish
      (taken.syscallReturn (sampleHandler (taken.syscallEntry 0x500).toCpu)).returnedBool
      (taken.syscallReturn (sampleHandler (taken.syscallEntry 0x500).toCpu)).memory 0x9100 =
        (-1, some 95) := by
  have arguments : SyscallArguments sampleCaller 1 0x9000 0x9100 :=
    ⟨by decide +kernel, by decide +kernel, by decide +kernel⟩
  obtain ⟨taken, enters, -, which, first, second, -, behind⟩ := @fileCall_notSupported sampleCaller
    0x300 0x400 0x500 0x9000 0x9100 (.open 0x5000 0) _ 0x2000 sampleStubs 12 (Same.refl _ _ _)
    (by decide +kernel) arguments (by decide) (by decide) (by decide)
  have obeys : Obeys (sampleCaller.regs .esp - 24#32) 0 (24 + 12) (taken.syscallEntry 0x500).toCpu
      (.returns (sampleHandler (taken.syscallEntry 0x500).toCpu)) := by
    refine ⟨?_, ?_, ?_, rfl⟩
    · simp [sampleHandler, returnAtOnce, Cpu.drop, set_regs]
    · simp [sampleHandler, returnAtOnce, Cpu.drop, set_regs]
    · exact ((Same.refl _ _ _).store (by decide +kernel)).store (by decide +kernel)
  have handles := @syscallHandler_runs (Syscall.FileCall.open 0x5000 0).number 0x9000 0x9100
    (taken.syscallEntry 0x500).memory Syscall.scOpen rfl (by decide) (by decide)
  rw [← which, ← first, ← second] at handles
  have result := behind 0 _ _ true _ (.returns _) obeys handles (by rw [second]; exact Same.refl _ _ _)
    (by simp [sampleHandler, set_regs])
  exact ⟨taken, enters, result.2.2⟩

end FelineOS.I386
