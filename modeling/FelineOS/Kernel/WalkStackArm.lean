import FelineOS.Kernel.InterruptArm

/-!
# Walking the stack of the ARM

`walk_stack` and `walk_stack_from` of `arch/arm/stack/walk_stack.S`, instruction by instruction. Which
address `push` stores for `pc` depends on the processor, and nothing reads it. The flags are left
out: only the branch right behind a comparison depends on them.
-/

namespace FelineOS.Arm

open Library

/-- The instructions of the listing; those that the task switch has as well are its own. -/
inductive WalkInstr where
  /-- An instruction that the task switch has as well. -/
  | plain (instr : Instr)
  /-- `mov target, source`. -/
  | mov (target source : Reg)
  /-- `eor r, r`. -/
  | clear (r : Reg)
  /-- `push {fp, ip, lr, pc}`. -/
  | pushFrame (pc : BitVec 32)
  /-- `ldr target, [base, #-disp]`. -/
  | loadBelow (target base : Reg) (disp : BitVec 32)
  /-- `str source, [base]`. -/
  | store (source base : Reg)
  deriving DecidableEq, Repr

/-- One instruction. -/
def WalkInstr.exec : WalkInstr → Cpu → Cpu
  | .plain instr, s => instr.exec s
  | .mov target source, s => s.set target (s.regs source)
  | .clear r, s => s.set r 0#32
  | .pushFrame pc, s =>
    { s.set .sp (s.regs .sp - 16#32) with
      memory := s.memory.storeWords (s.regs .sp - 16#32)
        [s.regs .r11, s.regs .r12, s.regs .lr, pc] }
  | .loadBelow target base disp, s => s.set target (s.memory.load (s.regs base - disp))
  | .store source base, s => { s with memory := s.memory.store (s.regs base) (s.regs source) }

/-- Some instructions, one after the other. -/
def runWalk : List WalkInstr → Cpu → Cpu
  | [], s => s
  | instr :: rest, s => runWalk rest (instr.exec s)

/-- Where a walk starts. -/
inductive WalkEntry where
  /-- `walk_stack`. -/
  | walkStack
  /-- `walk_stack_from`. -/
  | walkStackFrom
  deriving DecidableEq, Repr

/-- The stack frame of the function, and the registers of the caller that it uses. -/
def walkFrame (pc : BitVec 32) : List WalkInstr :=
  [.mov .r12 .sp, .pushFrame pc, .plain (.sub .r11 .r12 4#32), .plain (.push [.r4, .r5, .r6])]

/-- The local registers are set up. -/
def WalkEntry.setup : WalkEntry → List WalkInstr
  | .walkStack => [.mov .r4 .r0, .clear .r0, .mov .r5 .r11]
  | .walkStackFrom => [.mov .r4 .r0, .clear .r0, .mov .r5 .r2]

/-- The listing up to `.walk`. -/
def WalkEntry.enter (entry : WalkEntry) (pc : BitVec 32) : List WalkInstr :=
  walkFrame pc ++ entry.setup

/-- The body of the loop, behind its two branches. -/
def walkBody : List WalkInstr :=
  [.loadBelow .r6 .r5 4#32, .plain (.sub .r6 .r6 4#32), .store .r6 .r4,
    .plain (.add .r0 .r0 1#32), .plain (.add .r4 .r4 4#32), .loadBelow .r5 .r5 12#32]

/-- `.walk`. -/
def walk : Nat → Cpu → Option Cpu
  | 0, _ => none
  | fuel + 1, s =>
    if s.regs .r1 = s.regs .r0 then some s
    else if s.regs .r5 = 0 then some s
    else walk fuel (runWalk walkBody s)

/-- `.done`. -/
def walkDone : List WalkInstr :=
  [.plain (.pop [.r4, .r5, .r6]), .plain (.sub .sp .r11 12#32), .plain (.ldm .sp [.r11, .sp, .lr]),
    .plain (.bx .lr)]

/-- A call of one of the functions. -/
def Cpu.callWalk (s : Cpu) (fuel : Nat) (entry : WalkEntry) (pc returnAddress : BitVec 32) :
    Option Cpu := do
  let s ← walk fuel (runWalk (entry.enter pc) (s.set .lr returnAddress))
  return runWalk walkDone s

end FelineOS.Arm
