import FelineOS.Library.WordMemory
import Mathlib.Logic.Function.Basic

/-!
# The task switch of the i386

`swap_task_registers` of `arch/i386/task/task.S`, instruction by instruction. The listing runs from
its first line to its last; `eip` is where the CPU goes on when it leaves the listing. The flags
are a word like any other here: which of their bits `popf` ignores makes no difference to the other
registers.
-/

namespace FelineOS.I386

open Library

/-- The registers of the listing. -/
inductive Reg where
  | eax
  | ebx
  | ecx
  | edx
  | esi
  | edi
  | ebp
  | esp
  deriving DecidableEq, Repr

/-- The CPU with its memory. -/
structure Cpu where
  /-- The general purpose registers. -/
  regs : Reg → BitVec 32
  /-- The flags. -/
  eflags : BitVec 32
  /-- Where the CPU goes on. -/
  eip : BitVec 32
  /-- The memory. -/
  memory : Memory

namespace Cpu

/-- A register is written. -/
def set (s : Cpu) (r : Reg) (word : BitVec 32) : Cpu :=
  { s with regs := Function.update s.regs r word }

/-- A word goes on the stack. -/
def pushWord (s : Cpu) (word : BitVec 32) : Cpu :=
  { s.set .esp (s.regs .esp - 4#32) with memory := s.memory.store (s.regs .esp - 4#32) word }

/-- The word on top of the stack. -/
def top (s : Cpu) : BitVec 32 := s.memory.load (s.regs .esp)

/-- The word on top of the stack is taken away. -/
def drop (s : Cpu) : Cpu := s.set .esp (s.regs .esp + 4#32)

end Cpu

/-- The instructions of the listing, with their operands in its order. -/
inductive Instr where
  /-- `push %r`. -/
  | push (r : Reg)
  /-- `pop %r`. -/
  | pop (r : Reg)
  /-- `mov %source, %target`. -/
  | mov (source target : Reg)
  /-- `mov disp(%base), %target`. -/
  | load (disp : Nat) (base target : Reg)
  /-- `mov %source, disp(%base)`. -/
  | store (source : Reg) (disp : Nat) (base : Reg)
  /-- `pushf`. -/
  | pushf
  /-- `popf`. -/
  | popf
  /-- `ret`. -/
  | ret
  deriving DecidableEq, Repr

/-- One instruction. -/
def Instr.exec : Instr → Cpu → Cpu
  | .push r, s => s.pushWord (s.regs r)
  | .pop r, s => s.drop.set r s.top
  | .mov source target, s => s.set target (s.regs source)
  | .load disp base target, s => s.set target (s.memory.load (s.regs base + BitVec.ofNat 32 disp))
  | .store source disp base, s =>
    { s with memory := s.memory.store (s.regs base + BitVec.ofNat 32 disp) (s.regs source) }
  | .pushf, s => s.pushWord s.eflags
  | .popf, s => { s.drop with eflags := s.top }
  | .ret, s => { s.drop with eip := s.top }

/-- Some instructions, one after the other. -/
def run : List Instr → Cpu → Cpu
  | [], s => s
  | instr :: rest, s => run rest (instr.exec s)

/-- The stack frame of the old task, the arguments and the registers that are saved. -/
def saveRegisters : List Instr :=
  [.push .ebp, .mov .esp .ebp,
    .load 8 .ebp .ebx, .load 12 .ebp .eax,
    .store .eax 0x00 .ebx, .store .ebx 0x04 .ebx, .store .ecx 0x08 .ebx, .store .edx 0x0c .ebx,
    .store .esi 0x10 .ebx, .store .edi 0x14 .ebx, .store .ebp 0x18 .ebx, .store .esp 0x1c .ebx]

/-- The flags are saved and loaded. -/
def swapFlags : List Instr :=
  [.pushf, .pop .ecx, .store .ecx 0x20 .ebx, .load 0x20 .eax .ecx, .push .ecx, .popf]

/-- The registers that are loaded, and the stack frame of the new task. -/
def loadRegisters : List Instr :=
  [.load 0x1c .eax .esp, .load 0x18 .eax .ebp, .load 0x14 .eax .edi, .load 0x10 .eax .esi,
    .load 0x0c .eax .edx, .load 0x08 .eax .ecx, .load 0x04 .eax .ebx, .load 0x00 .eax .eax,
    .mov .ebp .esp, .pop .ebp, .ret]

/-- `swap_task_registers`. -/
def swapTaskRegisters : List Instr := saveRegisters ++ swapFlags ++ loadRegisters

/-- `call swap_task_registers`; the return address is that of the next instruction. -/
def Cpu.callSwap (s : Cpu) (returnAddress : BitVec 32) : Cpu :=
  run swapTaskRegisters (s.pushWord returnAddress)

/-- The first argument at a call. -/
def Cpu.saveArgument (s : Cpu) : BitVec 32 := s.memory.load (s.regs .esp)

/-- The second argument at a call. -/
def Cpu.loadArgument (s : Cpu) : BitVec 32 := s.memory.load (s.regs .esp + 4#32)

/-- What a task does from one switch to the next: its code, and the call that it ends with. -/
structure Turn where
  /-- The code, up to the call. -/
  code : Cpu → Cpu
  /-- The return address of the call. -/
  returnAddress : BitVec 32

/-- The code of a turn and its switch. -/
def Turn.take (turn : Turn) (s : Cpu) : Cpu := (turn.code s).callSwap turn.returnAddress

/-- A chain of switches. -/
def turns : List Turn → Cpu → Cpu
  | [], s => s
  | turn :: rest, s => turns rest (turn.take s)

/-- The registers that a function leaves as they are, by the calling convention. -/
def calleeSaved : List Reg := [.ebx, .esi, .edi, .ebp, .esp]

end FelineOS.I386
