import FelineOS.Kernel.TaskSwitchI386
import FelineOS.Kernel.TaskWorld

/-!
# New tasks on the i386

`init_frame` and `get_eflags` of `arch/i386/task/task.S`, instruction by instruction, and what the
i386 keeps of a task that waits. `create_new_task` calls both functions, with any code of its own
behind each of them.
-/

namespace FelineOS.I386

open Library

/-- The instructions of the listings; those that the task switch has as well are its own. -/
inductive StackInstr where
  /-- An instruction that the task switch has as well. -/
  | plain (instr : Instr)
  /-- `push $immediate`. -/
  | pushImm (immediate : BitVec 32)
  /-- `push disp(%base)`. -/
  | pushAt (disp : Nat) (base : Reg)
  deriving DecidableEq, Repr

/-- One instruction. -/
def StackInstr.exec : StackInstr → Cpu → Cpu
  | .plain instr, s => instr.exec s
  | .pushImm immediate, s => s.pushWord immediate
  | .pushAt disp base, s => s.pushWord (s.memory.load (s.regs base + BitVec.ofNat 32 disp))

/-- Some instructions, one after the other. -/
def runStack : List StackInstr → Cpu → Cpu
  | [], s => s
  | instr :: rest, s => runStack rest (instr.exec s)

/-- `init_frame`. -/
def initFrame : List StackInstr :=
  [.plain (.push .ebp), .plain (.mov .esp .ebp),
    .plain (.load 8 .ebp .esp),
    .pushAt 16 .ebp, .pushImm 0, .pushAt 12 .ebp, .pushImm 0,
    .plain (.mov .esp .eax),
    .plain (.mov .ebp .esp), .plain (.pop .ebp), .plain .ret]

/-- `get_eflags`. -/
def getEflags : List StackInstr :=
  [.plain (.push .ebp), .plain (.mov .esp .ebp),
    .plain .pushf, .plain (.pop .eax),
    .plain (.mov .ebp .esp), .plain (.pop .ebp), .plain .ret]

/-- `call init_frame`; the return address is that of the next instruction. -/
def Cpu.callInitFrame (s : Cpu) (returnAddress : BitVec 32) : Cpu :=
  runStack initFrame (s.pushWord returnAddress)

/-- `call get_eflags`. -/
def Cpu.callGetEflags (s : Cpu) (returnAddress : BitVec 32) : Cpu :=
  runStack getEflags (s.pushWord returnAddress)

/-- `struct x86Registers` of a new task, word by word: `Task{}` with two fields set. -/
def newRegisters (ebp eflags : BitVec 32) : List (BitVec 32) := [0, 0, 0, 0, 0, 0, ebp, 0, eflags]

/-- What a task gets back with a switch: the registers but for `ebx` and those that a call may
change, the flags, where it goes on, and its stack. -/
structure Kept where
  /-- `esi`. -/
  esi : BitVec 32
  /-- `edi`. -/
  edi : BitVec 32
  /-- `ebp`. -/
  ebp : BitVec 32
  /-- `esp`. -/
  esp : BitVec 32
  /-- The flags. -/
  eflags : BitVec 32
  /-- Where the task goes on. -/
  eip : BitVec 32
  /-- The words of its stack, from `esp` on. -/
  stack : List (BitVec 32)
  deriving DecidableEq, Repr

/-- What the CPU has of the running task, with `n` words of its stack. -/
def Cpu.kept (s : Cpu) (n : Nat) : Kept where
  esi := s.regs .esi
  edi := s.regs .edi
  ebp := s.regs .ebp
  esp := s.regs .esp
  eflags := s.eflags
  eip := s.eip
  stack := s.memory.loadWords (s.regs .esp) n

/-- What a new task starts with: it enters `exit_scheduler_stub`, whose address is `stub`, as if
it was called from the address 0 with the function of the task as its argument. -/
def newKept (stub top startExecuting eflags : BitVec 32) : Kept where
  esi := 0
  edi := 0
  ebp := 0
  esp := top - 8#32
  eflags := eflags
  eip := stub
  stack := [0, startExecuting]

/-- The context of the scheduler that this is. -/
def Kept.context (stub : BitVec 32) (kept : Kept) : Scheduler.Context Kept where
  registers := kept
  resume :=
    if kept.eip = stub then .exitSchedulerStub (UInt32.ofBitVec (kept.stack.getD 1 0)) else .sched

/-- What the caller of `init_frame` has on the stack at the call. -/
structure InitArguments (s : Cpu) (top stub startExecuting : BitVec 32) : Prop where
  /-- `esp_top`. -/
  espTop : s.memory.load (s.regs .esp) = top
  /-- `exit_scheduler_stub`. -/
  exitSchedulerStub : s.memory.load (s.regs .esp + 4#32) = stub
  /-- `start_executing`. -/
  startExecuting : s.memory.load (s.regs .esp + 8#32) = startExecuting

/-- The CPU after `create_new_task` has called `init_frame` and `get_eflags`, with any code behind
the first call and behind the second one. -/
def Cpu.newTask (s : Cpu) (between fill : Cpu → Cpu) (first second : BitVec 32) : Cpu :=
  fill ((between (s.callInitFrame first)).callGetEflags second)

/-- What the memory has of a task that waits: its registers in the area, the saved `ebp` and the
return address on the stack, and behind them the words that the task gets back. -/
structure Held (m : Memory) (area : BitVec 32) (kept : Kept) : Prop where
  /-- `esi`. -/
  esi : m.load (area + 16#32) = kept.esi
  /-- `edi`. -/
  edi : m.load (area + 20#32) = kept.edi
  /-- The frame instead of `ebp`. -/
  frame : m.load (area + 24#32) = kept.esp - 8#32
  /-- The flags. -/
  eflags : m.load (area + 32#32) = kept.eflags
  /-- `ebp` is in the frame. -/
  ebp : m.load (kept.esp - 8#32) = kept.ebp
  /-- Behind it is the return address. -/
  eip : m.load (kept.esp - 4#32) = kept.eip
  /-- Behind that is the stack. -/
  stack : m.loadWords kept.esp kept.stack.length = kept.stack

/-- `create_new_task`, from the call of `init_frame` on. -/
inductive Creates (stub : BitVec 32) (s : Cpu) :
    List Tasks.Area → Cpu → Cpu → BitVec 32 → Kept → Prop where
  /-- The new stack is apart from that of the caller. -/
  | newTask {top startExecuting area first second : BitVec 32} (between fill : Cpu → Cpu)
    (arguments : InitArguments s top stub startExecuting)
    (own : Memory.AreasApart (top - 16#32) 16 (s.regs .esp - 8#32) 20)
    (filled : ∀ i < 9,
      (s.newTask between fill first second).memory.load (area + BitVec.ofNat 32 (4 * i)) =
        (newRegisters ((s.callInitFrame first).regs .eax)
          (((between (s.callInitFrame first)).callGetEflags second).regs .eax)).getD i 0)
    (frame : (s.newTask between fill first second).memory.Same (s.callInitFrame first).memory
      (top - 16#32) 16) :
    Creates stub s [⟨top - 16#32, 16⟩, ⟨s.regs .esp - 8#32, 8⟩] (s.callInitFrame first)
      (s.newTask between fill first second) area
      (newKept stub top startExecuting (between (s.callInitFrame first)).eflags)

/-- `call swap_task_registers`, with some words on the stack of the task. -/
inductive Switches (s : Cpu) : List Tasks.Area → Cpu → BitVec 32 → Kept → BitVec 32 → Prop where
  /-- The save area is apart from the stack. -/
  | callSwap (n : Nat) (returnAddress : BitVec 32) (fits : 12 + 4 * n ≤ 2 ^ 32)
    (own : Memory.AreasApart s.saveArgument 36 (s.regs .esp - 12#32) (12 + 4 * n)) :
    Switches s [⟨s.saveArgument, 36⟩, ⟨s.regs .esp - 12#32, 12⟩] (s.callSwap returnAddress)
      s.saveArgument ({ s with eip := returnAddress }.kept n) s.loadArgument

/-- The i386. -/
def target (stub : BitVec 32) : Tasks.Target Cpu Kept where
  memory := Cpu.memory
  sizeofRegisters := 36
  stack kept := ⟨kept.esp - 8#32, 8 + 4 * kept.stack.length⟩
  Held := Held
  reads s kept := s.kept kept.stack.length
  context := Kept.context stub
  Creates := Creates stub
  Switches := Switches

end FelineOS.I386
