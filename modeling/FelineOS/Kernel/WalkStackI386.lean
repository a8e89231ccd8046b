import FelineOS.Kernel.TaskSwitchI386

/-!
# Walking the stack of the i386

`walk_stack` and `walk_stack_from` of `arch/i386/stack/walk_stack.S`, instruction by instruction.
The flags that the arithmetic leaves are not modelled: a caller may not rely on them, and within the
listing only the branch right behind an instruction does.
-/

namespace FelineOS.I386

open Library

/-- The instructions of the listing; those that the task switch has as well are its own. -/
inductive WalkInstr where
  /-- An instruction that the task switch has as well. -/
  | plain (instr : Instr)
  /-- `xor %r, %r`. -/
  | clear (r : Reg)
  /-- `add $immediate, %r`. -/
  | addImm (immediate : BitVec 32) (r : Reg)
  /-- `sub $immediate, %r`. -/
  | subImm (immediate : BitVec 32) (r : Reg)
  /-- `inc %r`. -/
  | inc (r : Reg)
  deriving DecidableEq, Repr

/-- One instruction. -/
def WalkInstr.exec : WalkInstr → Cpu → Cpu
  | .plain instr, s => instr.exec s
  | .clear r, s => s.set r 0#32
  | .addImm immediate r, s => s.set r (s.regs r + immediate)
  | .subImm immediate r, s => s.set r (s.regs r - immediate)
  | .inc r, s => s.set r (s.regs r + 1#32)

/-- Some instructions, one after the other. -/
def runWalk : List WalkInstr → Cpu → Cpu
  | [], s => s
  | instr :: rest, s => runWalk rest (instr.exec s)

/-- Where a walk starts. -/
inductive WalkEntry where
  /-- `walk_stack`. -/
  | walkStack
  /-- `walk_stack_from`. -/
  | walkStackFrom
  deriving DecidableEq, Repr

/-- The stack frame of the function, and the registers of the caller that it uses. -/
def walkFrame : List WalkInstr :=
  [.plain (.push .ebp), .plain (.mov .esp .ebp), .plain (.push .edi), .plain (.push .ebx)]

/-- The local registers are set up. -/
def WalkEntry.setup : WalkEntry → List WalkInstr
  | .walkStack =>
    [.clear .eax, .plain (.load 0 .ebp .ebx), .plain (.load 8 .ebp .edi),
      .plain (.load 12 .ebp .ecx)]
  | .walkStackFrom =>
    [.clear .eax, .plain (.load 8 .ebp .edi), .plain (.load 12 .ebp .ecx),
      .plain (.load 16 .ebp .ebx)]

/-- The listing up to `.walk`. -/
def WalkEntry.enter (entry : WalkEntry) : List WalkInstr := walkFrame ++ entry.setup

/-- The body of the loop, between its two branches. -/
def walkBody : List WalkInstr :=
  [.plain (.load 4 .ebx .edx), .plain (.load 0 .ebx .ebx), .subImm 1#32 .edx,
    .plain (.store .edx 0 .edi), .addImm 4#32 .edi, .inc .eax]

/-- `.walk`: `jz` leaves the loop in front of a frame, and `loop` counts down and may leave it
behind one. -/
def walk : Nat → Cpu → Option Cpu
  | 0, _ => none
  | fuel + 1, s =>
    if s.regs .ebx = 0 then some s
    else
      let s := runWalk walkBody s
      let s := s.set .ecx (s.regs .ecx - 1#32)
      if s.regs .ecx = 0 then some s else walk fuel s

/-- `.done`. -/
def walkDone : List WalkInstr :=
  [.plain (.pop .ebx), .plain (.pop .edi), .plain (.mov .ebp .esp), .plain (.pop .ebp), .plain .ret]

/-- A call of one of the functions. -/
def Cpu.callWalk (s : Cpu) (fuel : Nat) (entry : WalkEntry) (returnAddress : BitVec 32) :
    Option Cpu := do
  let s ← walk fuel (runWalk entry.enter (s.pushWord returnAddress))
  return runWalk walkDone s

end FelineOS.I386
