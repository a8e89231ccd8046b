import FelineOS.Library.WordMemory
import Mathlib.Logic.Function.Basic

/-!
# Interrupts and the task switch of the ARM

`irq_handler` of `arch/arm/interrupts/isr.S` and `swap_task_registers` of `arch/arm/task/task.S`,
instruction by instruction. The code that is interrupted runs in the system mode, as the kernel
does, or in the user mode; the two have the same registers. Of the interrupt mode only `lr` and
`spsr` matter, which the CPU writes when it takes the interrupt: `lr` is 4 behind the instruction
that comes next.
-/

namespace FelineOS.Arm

open Library

/-- The registers of the system mode, without `pc`; `fp` is `r11` and `ip` is `r12`. -/
inductive Reg where
  | r0
  | r1
  | r2
  | r3
  | r4
  | r5
  | r6
  | r7
  | r8
  | r9
  | r10
  | r11
  | r12
  | sp
  | lr
  deriving DecidableEq, Repr

/-- The CPU with its memory. -/
structure Cpu where
  /-- The registers. -/
  regs : Reg → BitVec 32
  /-- The flags and the mode. -/
  cpsr : BitVec 32
  /-- Where the CPU goes on. -/
  pc : BitVec 32
  /-- `lr` of the interrupt mode. -/
  lrIrq : BitVec 32
  /-- `spsr` of the interrupt mode. -/
  spsrIrq : BitVec 32
  /-- The memory. -/
  memory : Memory

/-- `irq_mode`. -/
def irqMode : BitVec 32 := 0x12

/-- `sys_mode`. -/
def sysMode : BitVec 32 := 0x1f

/-- A status register with another mode. -/
def setMode (psr mode : BitVec 32) : BitVec 32 := psr &&& ~~~0x1f#32 ||| mode

namespace Cpu

/-- A register is written. -/
def set (s : Cpu) (r : Reg) (word : BitVec 32) : Cpu :=
  { s with regs := Function.update s.regs r word }

/-- The CPU takes an interrupt: it masks further ones and leaves the Thumb state. -/
def takeInterrupt (s : Cpu) : Cpu :=
  { s with
    lrIrq := s.pc + 4#32
    spsrIrq := s.cpsr
    cpsr := setMode (s.cpsr &&& ~~~0x20#32 ||| 0x180#32) irqMode }

/-- The registers with some of them loaded from consecutive words. -/
def loadRegs (m : Memory) : BitVec 32 → List Reg → (Reg → BitVec 32) → Reg → BitVec 32
  | _, [], regs => regs
  | base, r :: rest, regs => loadRegs m (base + 4#32) rest (Function.update regs r (m.load base))

end Cpu

/-- The instructions of the listings. A list of registers is in the order of their numbers. -/
inductive Instr where
  /-- `srsfd #sys_mode!`. -/
  | srsfd
  /-- `cps #mode`. -/
  | cps (mode : BitVec 32)
  /-- `push {list}`. -/
  | push (list : List Reg)
  /-- `pop {list}`. -/
  | pop (list : List Reg)
  /-- `add target, source, #immediate`. -/
  | add (target source : Reg) (immediate : BitVec 32)
  /-- `sub target, source, #immediate`. -/
  | sub (target source : Reg) (immediate : BitVec 32)
  /-- `stm base, {list}`. -/
  | stm (base : Reg) (list : List Reg)
  /-- `ldm base, {list}`. -/
  | ldm (base : Reg) (list : List Reg)
  /-- `bx r`, to code in the ARM state. -/
  | bx (r : Reg)
  /-- `rfefd sp!`. -/
  | rfefd
  deriving DecidableEq, Repr

/-- The bytes of some registers. -/
def bytesOf (list : List Reg) : BitVec 32 := BitVec.ofNat 32 (4 * list.length)

/-- One instruction. -/
def Instr.exec : Instr → Cpu → Cpu
  | .srsfd, s =>
    { s.set .sp (s.regs .sp - 8#32) with
      memory := s.memory.storeWords (s.regs .sp - 8#32) [s.lrIrq, s.spsrIrq] }
  | .cps mode, s => { s with cpsr := setMode s.cpsr mode }
  | .push list, s =>
    { s.set .sp (s.regs .sp - bytesOf list) with
      memory := s.memory.storeWords (s.regs .sp - bytesOf list) (list.map s.regs) }
  | .pop list, s =>
    { s with
      regs := Cpu.loadRegs s.memory (s.regs .sp) list
        (Function.update s.regs .sp (s.regs .sp + bytesOf list)) }
  | .add target source immediate, s => s.set target (s.regs source + immediate)
  | .sub target source immediate, s => s.set target (s.regs source - immediate)
  | .stm base list, s =>
    { s with memory := s.memory.storeWords (s.regs base) (list.map s.regs) }
  | .ldm base list, s => { s with regs := Cpu.loadRegs s.memory (s.regs base) list s.regs }
  | .bx r, s => { s with pc := s.regs r }
  | .rfefd, s =>
    { s.set .sp (s.regs .sp + 8#32) with
      pc := s.memory.load (s.regs .sp)
      cpsr := s.memory.load (s.regs .sp + 4#32) }

/-- Some instructions, one after the other. -/
def run : List Instr → Cpu → Cpu
  | [], s => s
  | instr :: rest, s => run rest (instr.exec s)

/-- The registers of the task switch. -/
def taskRegisters : List Reg :=
  [.r0, .r1, .r2, .r3, .r4, .r5, .r6, .r7, .r8, .r9, .r10, .r11, .r12, .sp, .lr]

/-- `swap_task_registers`. -/
def swapTaskRegisters : List Instr := [.stm .r0 taskRegisters, .ldm .r1 taskRegisters, .bx .lr]

/-- `irq_handler` up to the call of `interrupt_handler`. -/
def irqEnter : List Instr := [.srsfd, .cps sysMode, .push [.r11, .r12, .lr], .add .r11 .sp 0xc]

/-- `irq_handler` behind the call of `interrupt_handler`. -/
def irqLeave : List Instr := [.sub .sp .r11 0xc, .pop [.r11, .r12, .lr], .rfefd]

/-- `bl interrupt_handler`, at the entry of the function. -/
def Cpu.callHandler (s : Cpu) (returnAddress : BitVec 32) : Cpu := s.set .lr returnAddress

/-- What `interrupt_handler` does: it returns in some state of the CPU, or it calls
`swap_task_registers` and goes on from the state that the CPU is in behind the call. -/
inductive Handler where
  /-- It returns. -/
  | returns (s : Cpu)
  /-- It switches to another task. -/
  | swaps (s : Cpu) (resume : Cpu → Handler)

/-- A chain of switches: every task runs its code up to the entry of `swap_task_registers`. -/
def turns : List (Cpu → Cpu) → Cpu → Cpu
  | [], s => s
  | code :: rest, s => turns rest (run swapTaskRegisters (code s))

/-- A task entered `swap_task_registers` with the CPU in the state `s`. A chain of switches later,
the code `last` of some task ends in a call that loads the save area of the first one, and neither
the area nor the 20 bytes at `frame` on the stack of the task have changed. -/
structure SwitchedBack (frame : BitVec 32) (s : Cpu) (chain : List (Cpu → Cpu))
    (last : Cpu → Cpu) : Prop where
  /-- The task is loaded. -/
  argument : (last (turns chain (run swapTaskRegisters s))).regs .r1 = s.regs .r0
  /-- The save area. -/
  area : (run swapTaskRegisters (last (turns chain (run swapTaskRegisters s)))).memory.Same
    (run swapTaskRegisters s).memory (s.regs .r0) 60
  /-- The stack. -/
  stack : (run swapTaskRegisters (last (turns chain (run swapTaskRegisters s)))).memory.Same
    s.memory frame 20

/-- The handler runs to its end, through all of its switches, and leaves the CPU in the last
state. -/
inductive Runs (frame : BitVec 32) : Handler → Cpu → Prop where
  /-- It returns. -/
  | returns (s : Cpu) : Runs frame (.returns s) s
  /-- It is switched away from and back to. -/
  | swaps {s final : Cpu} {resume : Cpu → Handler} (chain : List (Cpu → Cpu)) (last : Cpu → Cpu)
    (back : SwitchedBack frame s chain last)
    (rest : Runs frame
      (resume (run swapTaskRegisters (last (turns chain (run swapTaskRegisters s))))) final) :
    Runs frame (.swaps s resume) final

/-- The entry of `interrupt_handler` for an interrupt that the CPU takes in the state `s`. -/
def Cpu.handlerEntry (s : Cpu) (returnAddress : BitVec 32) : Cpu :=
  (run irqEnter s.takeInterrupt).callHandler returnAddress

end FelineOS.Arm
