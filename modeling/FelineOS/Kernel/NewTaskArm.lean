import FelineOS.Kernel.InterruptArm
import FelineOS.Kernel.TaskWorld

/-!
# New tasks on the ARM

What the ARM keeps of a task that waits: all registers, of which `lr` says where the task goes on.
`create_new_task` needs no assembly code here; the registers of a new task return to
`exit_scheduler_stub` with its argument in `r0`.
-/

namespace FelineOS.Arm

open Library

/-- What a task gets back with a switch. -/
structure Kept where
  /-- The registers. -/
  regs : Reg → BitVec 32
  /-- Where the task goes on. -/
  pc : BitVec 32
  /-- The words of its stack, from `sp` on. -/
  stack : List (BitVec 32)

/-- What the CPU has of the running task, with `n` words of its stack. -/
def Cpu.kept (s : Cpu) (n : Nat) : Kept where
  regs := s.regs
  pc := s.pc
  stack := s.memory.loadWords (s.regs .sp) n

/-- `struct ARMRegisters` of a new task: `Task{}` with three fields set. -/
def newRegisters (stub top startExecuting : BitVec 32) : Reg → BitVec 32
  | .sp => top
  | .lr => stub
  | .r0 => startExecuting
  | _ => 0

/-- What a new task starts with: it enters `exit_scheduler_stub`, whose address is `stub`, with
an empty stack below `top`. -/
def newKept (stub top startExecuting : BitVec 32) : Kept where
  regs := newRegisters stub top startExecuting
  pc := stub
  stack := []

/-- The context of the scheduler that this is. -/
def Kept.context (stub : BitVec 32) (kept : Kept) : Scheduler.Context Kept where
  registers := kept
  resume := if kept.pc = stub then .exitSchedulerStub (UInt32.ofBitVec (kept.regs .r0)) else .sched

/-- The memory has some registers at an address, in the order of `stm`. -/
def HasRegisters (m : Memory) (area : BitVec 32) (regs : Reg → BitVec 32) : Prop :=
  m.loadWords area 15 = taskRegisters.map regs

instance (m : Memory) (area : BitVec 32) (regs : Reg → BitVec 32) :
    Decidable (HasRegisters m area regs) := inferInstanceAs (Decidable (_ = _))

/-- What the memory has of a task that waits. -/
structure Held (m : Memory) (area : BitVec 32) (kept : Kept) : Prop where
  /-- The registers. -/
  regs : HasRegisters m area kept.regs
  /-- Where the task goes on is in one of them. -/
  pc : kept.regs .lr = kept.pc
  /-- The stack. -/
  stack : m.loadWords (kept.regs .sp) kept.stack.length = kept.stack

/-- `create_new_task`: any code that fills the registers. -/
inductive Creates (stub : BitVec 32) (s : Cpu) :
    List Tasks.Area → Cpu → Cpu → BitVec 32 → Kept → Prop where
  /-- The registers are those of a new task. -/
  | newTask {top startExecuting area : BitVec 32} (fill : Cpu → Cpu)
    (filled : HasRegisters (fill s).memory area (newRegisters stub top startExecuting)) :
    Creates stub s [] s (fill s) area (newKept stub top startExecuting)

/-- The entry of `swap_task_registers`, with some words on the stack of the task. -/
inductive Switches (s : Cpu) : List Tasks.Area → Cpu → BitVec 32 → Kept → BitVec 32 → Prop where
  /-- The save area is apart from the stack. -/
  | swap (n : Nat) (fits : 4 * n ≤ 2 ^ 32)
    (own : Memory.AreasApart (s.regs .sp) (4 * n) (s.regs .r0) 60) :
    Switches s [⟨s.regs .r0, 60⟩] (run swapTaskRegisters s) (s.regs .r0)
      ({ s with pc := s.regs .lr }.kept n) (s.regs .r1)

/-- The ARM. -/
def target (stub : BitVec 32) : Tasks.Target Cpu Kept where
  memory := Cpu.memory
  sizeofRegisters := 60
  stack kept := ⟨kept.regs .sp, 4 * kept.stack.length⟩
  Held := Held
  reads s kept := s.kept kept.stack.length
  context := Kept.context stub
  Creates := Creates stub
  Switches := Switches

end FelineOS.Arm
