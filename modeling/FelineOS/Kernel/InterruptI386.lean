import FelineOS.Kernel.TaskSwitchI386

/-!
# Interrupts of the i386

`idt_init` of `arch/i386/interrupts/idt.cpp`, what the CPU does with the table, and the two stubs of
`isr.S` that return: that of the timer and that of the system calls. `raw_syscall` of the libc is the
other end of the latter. Everything runs in the segment of the kernel, so the CPU does not change
its stack.
-/

namespace FelineOS.I386

open Library

/-- The CPU with its code segment. -/
structure Core extends Cpu where
  /-- The selector in `cs`. -/
  cs : BitVec 16

/-! ## The interrupt descriptor table -/

/-- `idtr_t`. -/
structure Idtr where
  /-- The last byte of the table. -/
  limit : BitVec 16
  /-- The address of the table. -/
  base : BitVec 32
  deriving DecidableEq, Repr

/-- `IDT_INTERRUPT_GATE`. -/
def idtInterruptGate : BitVec 8 := 0x8e

/-- `IDT_TRAP_GATE`. -/
def idtTrapGate : BitVec 8 := 0x8f

/-- The address of an entry of the table at `idt`. -/
def idtEntry (idt : BitVec 32) (vector : BitVec 8) : BitVec 32 :=
  idt + BitVec.ofNat 32 (8 * vector.toNat)

/-- `idt_set_descriptor`; the five fields are two words. -/
def idtSetDescriptor (m : Memory) (idt : BitVec 32) (vector : BitVec 8) (isr : BitVec 32)
    (flags : BitVec 8) : Memory :=
  (m.store (idtEntry idt vector) (0x08#16 ++ isr.extractLsb' 0 16)).store
    (idtEntry idt vector + 4#32) (isr.extractLsb' 16 16 ++ flags ++ 0#8)

/-- The loop of `idt_init` over the first vectors. -/
def idtFill (m : Memory) (idt : BitVec 32) (isrStubTable : Nat → BitVec 32) : Nat → Memory
  | 0 => m
  | vector + 1 =>
    idtSetDescriptor (idtFill m idt isrStubTable vector) idt (BitVec.ofNat 8 vector)
      (isrStubTable vector) idtInterruptGate

/-- `idt_init`, as far as the table goes. -/
def idtInit (m : Memory) (idt : BitVec 32) (isrStubTable : Nat → BitVec 32) : Memory × Idtr :=
  let filled := idtFill m idt isrStubTable 31
  let syscall := idtSetDescriptor filled idt 31 (isrStubTable 31) idtTrapGate
  let timer := idtSetDescriptor syscall idt 32 (isrStubTable 32) idtInterruptGate
  (timer, ⟨8 * 33 - 1, idt⟩)

/-! ## The CPU -/

/-- An entry of the table, as the CPU reads it. -/
structure Gate where
  /-- The address of the code. -/
  offset : BitVec 32
  /-- Its segment. -/
  selector : BitVec 16
  /-- Whether there is an entry. -/
  present : Bool
  /-- What kind of entry it is. -/
  kind : BitVec 5
  deriving DecidableEq, Repr

/-- The fields of an entry, from its two words. -/
def Gate.decode (low high : BitVec 32) : Gate where
  offset := high.extractLsb' 16 16 ++ low.extractLsb' 0 16
  selector := low.extractLsb' 16 16
  present := high.getLsbD 15
  kind := high.extractLsb' 8 5

namespace Core

/-- The flags that the CPU clears with every interrupt: `TF`, `NT`, `RF` and `VM`. -/
def clearedFlags : BitVec 32 := 0x34100

/-- `IF`, which an interrupt gate clears as well. -/
def interruptFlag : BitVec 32 := 0x200

/-- The CPU saves the flags and where it is, and goes on at the gate. -/
def enter (c : Core) (gate : Gate) (cleared : BitVec 32) : Core :=
  let pushed := ((c.pushWord c.eflags).pushWord (c.cs.setWidth 32)).pushWord c.eip
  { pushed with eflags := c.eflags &&& ~~~cleared, eip := gate.offset, cs := gate.selector }

/-- An interrupt. Without a usable gate there is another one instead. -/
def interrupt (c : Core) (idtr : Idtr) (vector : BitVec 8) : Option Core :=
  if idtr.limit.toNat < 8 * vector.toNat + 7 then none
  else
    let gate := Gate.decode (c.memory.load (idtEntry idtr.base vector))
      (c.memory.load (idtEntry idtr.base vector + 4#32))
    if !gate.present then none
    else if gate.kind = 0b01110 then some (c.enter gate (clearedFlags ||| interruptFlag))
    else if gate.kind = 0b01111 then some (c.enter gate clearedFlags)
    else none

end Core

/-- A flag at its place. -/
def flagAt (bit : Nat) (set : Bool) : BitVec 32 := if set then BitVec.twoPow 32 bit else 0

/-- The flags behind an addition. -/
def addFlags (a b eflags : BitVec 32) : BitVec 32 :=
  eflags &&& ~~~0x8d5#32 |||
    flagAt 0 (2 ^ 32 ≤ a.toNat + b.toNat) |||
    flagAt 2 ((List.range 8).foldl (fun even bit => even ^^ (a + b).getLsbD bit) true) |||
    flagAt 4 (16 ≤ a.toNat % 16 + b.toNat % 16) |||
    flagAt 6 (a + b = 0) |||
    flagAt 7 (a + b).msb |||
    flagAt 11 (a.msb = b.msb ∧ (a + b).msb ≠ a.msb)

/-- The instructions of the stubs; those that the task switch has as well are its own. -/
inductive StubInstr where
  /-- An instruction that the task switch has as well. -/
  | plain (instr : Instr)
  /-- `cld`. -/
  | cld
  /-- `add $immediate, %target`. -/
  | add (immediate : BitVec 32) (target : Reg)
  /-- `iret`. -/
  | iret
  deriving DecidableEq, Repr

/-- One instruction. -/
def StubInstr.exec : StubInstr → Core → Core
  | .plain instr, c => { c with toCpu := instr.exec c.toCpu }
  | .cld, c => { c with eflags := c.eflags &&& ~~~0x400#32 }
  | .add immediate target, c =>
    { c with
      toCpu := { c.toCpu.set target (c.regs target + immediate) with
        eflags := addFlags (c.regs target) immediate c.eflags } }
  | .iret, c =>
    let behind := c.toCpu.drop.drop.drop
    { toCpu := { behind with
        eip := c.memory.load (c.regs .esp)
        eflags := c.memory.load (c.regs .esp + 8#32) }
      cs := (c.memory.load (c.regs .esp + 4#32)).setWidth 16 }

/-- Some instructions, one after the other. -/
def runStub : List StubInstr → Core → Core
  | [], c => c
  | instr :: rest, c => runStub rest (instr.exec c)

/-! ## The listings -/

/-- `isr_stub_32` up to the call of `PIT_isr_handler`. -/
def timerEnter : List StubInstr :=
  [.plain (.push .ebp), .plain (.mov .esp .ebp),
    .plain (.push .eax), .plain (.push .ecx), .plain (.push .edx)]

/-- `isr_stub_32` behind the call. -/
def timerLeave : List StubInstr :=
  [.plain (.pop .edx), .plain (.pop .ecx), .plain (.pop .eax),
    .plain (.mov .ebp .esp), .plain (.pop .ebp), .iret]

/-- `isr_stub_31` up to the call of `syscall_handler`. -/
def syscallEnter : List StubInstr :=
  [.plain (.push .ebp), .plain (.mov .esp .ebp), .cld,
    .plain (.push .edx), .plain (.push .ecx), .plain (.push .eax)]

/-- `isr_stub_31` behind the call. -/
def syscallLeave : List StubInstr :=
  [.add 0xc .esp, .plain (.mov .ebp .esp), .plain (.pop .ebp), .iret]

/-- `raw_syscall` up to its interrupt. -/
def rawSyscallEnter : List StubInstr :=
  [.plain (.push .ebp), .plain (.mov .esp .ebp), .plain (.load 8 .ebp .eax),
    .plain (.load 12 .ebp .ecx), .plain (.load 16 .ebp .edx)]

/-- `raw_syscall` behind its interrupt. -/
def rawSyscallLeave : List StubInstr :=
  [.plain (.mov .ebp .esp), .plain (.pop .ebp), .plain .ret]

/-- `call`: the return address is that of the next instruction. -/
def Core.call (c : Core) (returnAddress : BitVec 32) : Core :=
  { c with toCpu := c.toCpu.pushWord returnAddress }

/-! ## C functions -/

/-- What a C function does: it returns in some state of the CPU, or it calls `swap_task_registers`
and goes on from the state that the CPU is in behind the call. -/
inductive Handler where
  /-- It returns. -/
  | returns (s : Cpu)
  /-- It switches to another task. -/
  | swaps (s : Cpu) (returnAddress : BitVec 32) (resume : Cpu → Handler)

/-- The function runs to its end, through all of its switches, and leaves the CPU in the last
state. While other tasks run, some bytes at `base` on the stack of the task stay the same, and `own`
bytes below, where the function has its own frame. -/
inductive Runs (base : BitVec 32) (own size : Nat) : Handler → Cpu → Prop where
  /-- It returns. -/
  | returns (s : Cpu) : Runs base own size (.returns s) s
  /-- It is switched away from and back to. -/
  | swaps {s final : Cpu} {returnAddress : BitVec 32} {resume : Cpu → Handler} (chain : List Turn)
    (last : Turn) {resumed : Cpu}
    (apart : Memory.AreasApart s.saveArgument 36 (s.regs .esp - 12#32) 12)
    (argument : (last.code (turns chain (s.callSwap returnAddress))).loadArgument = s.saveArgument)
    (state : last.take (turns chain (s.callSwap returnAddress)) = resumed)
    (area : resumed.memory.Same (s.callSwap returnAddress).memory s.saveArgument 36)
    (frame : resumed.memory.Same (s.callSwap returnAddress).memory (s.regs .esp - 8#32) 8)
    (stack : resumed.memory.Same s.memory (base - BitVec.ofNat 32 own) (own + size))
    (rest : Runs base own size (resume resumed) final) :
    Runs base own size (.swaps s returnAddress resume) final

end FelineOS.I386
