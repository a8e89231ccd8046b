import FelineOS.Kernel.InterruptArm
import Mathlib.Data.List.Nodup

/-!
# What an interrupt leaves on the ARM

`swap_task_registers` keeps every register of the task, so for the handler a switch is a call like
any other. The handler keeps what the calling convention asks for, and `irq_handler` itself puts
`ip`, `lr` and the status register back. Nobody is responsible for `r0` to `r3`.
-/

namespace FelineOS.Arm

open Library Memory

/-! ## Lists of registers -/

/-- A register that is not in the list stays. -/
theorem loadRegs_other (m : Memory) (list : List Reg) (base : BitVec 32) (regs : Reg → BitVec 32)
    {r : Reg} (other : r ∉ list) : Cpu.loadRegs m base list regs r = regs r := by
  induction list generalizing base regs with
  | nil => rfl
  | cons first rest ih =>
    rw [List.mem_cons, not_or] at other
    rw [Cpu.loadRegs, ih _ _ other.2, Function.update_of_ne other.1]

/-- A register in the list gets its word. -/
theorem loadRegs_listed (m : Memory) (list : List Reg) (base : BitVec 32) (regs : Reg → BitVec 32)
    (distinct : list.Nodup) {i : Nat} (inside : i < list.length) :
    Cpu.loadRegs m base list regs list[i] = m.load (base + BitVec.ofNat 32 (4 * i)) := by
  induction list generalizing base regs i with
  | nil => exact absurd inside (Nat.not_lt_zero _)
  | cons first rest ih =>
    rw [List.nodup_cons] at distinct
    cases i with
    | zero =>
      rw [Cpu.loadRegs, List.getElem_cons_zero, loadRegs_other _ _ _ _ distinct.1,
        Function.update_self, Nat.mul_zero, BitVec.add_zero]
    | succ i =>
      rw [Cpu.loadRegs, List.getElem_cons_succ, ih _ _ distinct.2 (Nat.lt_of_succ_lt_succ inside),
        Nat.mul_succ, Nat.add_comm, BitVec.ofNat_add, ← BitVec.add_assoc]

/-- Registers that are stored and loaded again are what they were. -/
theorem loadRegs_storeWords {m later : Memory} {base : BitVec 32} {list : List Reg}
    {saved : Reg → BitVec 32} (regs : Reg → BitVec 32) (distinct : list.Nodup)
    (fits : 4 * list.length ≤ 2 ^ 32)
    (same : Same later (m.storeWords base (list.map saved)) base (4 * list.length)) {r : Reg}
    (listed : r ∈ list) : Cpu.loadRegs later base list regs r = saved r := by
  obtain ⟨i, inside, rfl⟩ := List.mem_iff_getElem.mp listed
  have word : i < (list.map saved).length := by rwa [List.length_map]
  have small : 4 * (list.map saved).length ≤ 2 ^ 32 := by rwa [List.length_map]
  rw [loadRegs_listed _ _ _ _ distinct inside, same.load (by omega),
    load_storeWords _ _ _ small word, List.getElem_map]

/-- The task switch is about all registers. -/
theorem mem_taskRegisters (r : Reg) : r ∈ taskRegisters := by cases r <;> decide

/-! ## The task switch -/

/-- A call saves all registers in its area and loads all from the other one. -/
theorem swapTaskRegisters_run (s : Cpu) :
    (run swapTaskRegisters s).memory =
        s.memory.storeWords (s.regs .r0) (taskRegisters.map s.regs) ∧
      (run swapTaskRegisters s).regs =
        Cpu.loadRegs (run swapTaskRegisters s).memory (s.regs .r1) taskRegisters s.regs ∧
      (run swapTaskRegisters s).pc = (run swapTaskRegisters s).regs .lr :=
  ⟨rfl, rfl, rfl⟩

/-- The registers that a function keeps by the calling convention. -/
def preserved : List Reg := [.r4, .r5, .r6, .r7, .r8, .r9, .r10, .r11, .sp]

/-- A function was called with the CPU in the state `s` and has returned: it has kept the registers
of the calling convention and the 20 bytes at `frame` on the stack of its caller. -/
structure Keeps (frame : BitVec 32) (s x : Cpu) : Prop where
  /-- The registers. -/
  registers : ∀ r ∈ preserved, x.regs r = s.regs r
  /-- The stack. -/
  stack : Same x.memory s.memory frame 20
  /-- The return. -/
  returned : x.pc = s.regs .lr

/-- A task that is switched away from and back to has all of its registers. -/
theorem SwitchedBack.regs {frame : BitVec 32} {s : Cpu} {chain : List (Cpu → Cpu)}
    {last : Cpu → Cpu} (back : SwitchedBack frame s chain last) (r : Reg) :
    (run swapTaskRegisters (last (turns chain (run swapTaskRegisters s)))).regs r = s.regs r := by
  have area := back.area
  rw [(swapTaskRegisters_run s).1] at area
  rw [(swapTaskRegisters_run (last (turns chain (run swapTaskRegisters s)))).2.1, back.argument]
  exact loadRegs_storeWords _ (by decide) (by decide) area (mem_taskRegisters r)

/-- To the code of the task the switch is a call that keeps the calling convention. -/
theorem SwitchedBack.keeps {frame : BitVec 32} {s : Cpu} {chain : List (Cpu → Cpu)}
    {last : Cpu → Cpu} (back : SwitchedBack frame s chain last) :
    Keeps frame s (run swapTaskRegisters (last (turns chain (run swapTaskRegisters s)))) where
  registers r _ := back.regs r
  stack := back.stack
  returned := by
    rw [(swapTaskRegisters_run (last (turns chain (run swapTaskRegisters s)))).2.2, back.regs]

/-! ## The handler -/

/-- A handler that was entered with the CPU in the state `entry` obeys the calling convention,
provided that the functions it calls do. -/
def Obeys (entry : Cpu) : Handler → Prop
  | .returns s => Keeps (entry.regs .sp) entry s
  | .swaps s resume => ∀ x, Keeps (entry.regs .sp) s x → Obeys entry (resume x)

/-- Through all of its switches the handler keeps the calling convention. -/
theorem Runs.keeps {entry final : Cpu} {handler : Handler}
    (runs : Runs (entry.regs .sp) handler final) (obeys : Obeys entry handler) :
    Keeps (entry.regs .sp) entry final := by
  induction runs with
  | returns s => exact obeys
  | swaps chain last back rest ih => exact ih (obeys _ back.keeps)

/-! ## The entry and the end of `irq_handler` -/

/-- A register after a write. -/
theorem set_regs (s : Cpu) (r q : Reg) (word : BitVec 32) :
    (s.set r word).regs q = if q = r then word else s.regs q := Function.update_apply ..

/-- The registers at the entry of the handler. -/
theorem handlerEntry_regs (s : Cpu) (returnAddress : BitVec 32) :
    (s.handlerEntry returnAddress).regs .sp = s.regs .sp - 20#32 ∧
      (s.handlerEntry returnAddress).regs .r11 = s.regs .sp - 20#32 + 12#32 ∧
      (s.handlerEntry returnAddress).regs .lr = returnAddress ∧
      ∀ r, r ∉ [Reg.r11, .sp, .lr] → (s.handlerEntry returnAddress).regs r = s.regs r := by
  have place : s.regs .sp - 8#32 - 12#32 = s.regs .sp - 20#32 := by bv_omega
  have upper : s.regs .sp - 8#32 = s.regs .sp - 20#32 + 12#32 := by bv_omega
  refine ⟨?_, ?_, ?_, ?_⟩
  · simpa [Cpu.handlerEntry, Cpu.callHandler, irqEnter, run, Instr.exec, set_regs, bytesOf,
      Cpu.takeInterrupt] using place
  · simpa [Cpu.handlerEntry, Cpu.callHandler, irqEnter, run, Instr.exec, set_regs, bytesOf,
      Cpu.takeInterrupt] using upper
  · simp [Cpu.handlerEntry, Cpu.callHandler, set_regs]
  · intro r other
    simp only [List.mem_cons, List.not_mem_nil, or_false, not_or] at other
    simp [Cpu.handlerEntry, Cpu.callHandler, irqEnter, run, Instr.exec, set_regs, Cpu.takeInterrupt,
      other]

/-- The frame of `irq_handler`: what it pushed itself, and behind it the two words of the
interrupt. -/
theorem handlerEntry_frame (s : Cpu) (returnAddress : BitVec 32) :
    (s.handlerEntry returnAddress).memory =
      (s.memory.storeWords (s.regs .sp - 20#32 + 12#32) [s.pc + 4#32, s.cpsr]).storeWords
        (s.regs .sp - 20#32) [s.regs .r11, s.regs .r12, s.regs .lr] := by
  have place : s.regs .sp - 8#32 - 12#32 = s.regs .sp - 20#32 := by bv_omega
  have upper : s.regs .sp - 20#32 + 12#32 = s.regs .sp - 8#32 := by bv_omega
  rw [upper, ← place]
  simp [Cpu.handlerEntry, Cpu.callHandler, Cpu.set, irqEnter, run, Instr.exec, bytesOf,
    Cpu.takeInterrupt]

/-- The words of the frame. -/
theorem handlerEntry_words (s : Cpu) (returnAddress : BitVec 32) :
    (s.handlerEntry returnAddress).memory.load (s.regs .sp - 20#32) = s.regs .r11 ∧
      (s.handlerEntry returnAddress).memory.load (s.regs .sp - 20#32 + 4#32) = s.regs .r12 ∧
      (s.handlerEntry returnAddress).memory.load (s.regs .sp - 20#32 + 8#32) = s.regs .lr ∧
      (s.handlerEntry returnAddress).memory.load (s.regs .sp - 20#32 + 12#32) = s.pc + 4#32 ∧
      (s.handlerEntry returnAddress).memory.load (s.regs .sp - 20#32 + 16#32) = s.cpsr := by
  rw [handlerEntry_frame]
  generalize s.regs .sp - 20#32 = frame
  let upper := s.memory.storeWords (frame + 12#32) [s.pc + 4#32, s.cpsr]
  let pushed := [s.regs .r11, s.regs .r12, s.regs .lr]
  have lowerWord (i : Nat) (inside : i < 3) :
      (upper.storeWords frame pushed).load (frame + BitVec.ofNat 32 (4 * i)) = pushed[i] :=
    load_storeWords pushed upper frame (show 4 * 3 ≤ 2 ^ 32 by decide) inside
  have upperWord (i : Nat) (inside : i < 2) : (upper.storeWords frame pushed).load
      (frame + 12#32 + BitVec.ofNat 32 (4 * i)) = [s.pc + 4#32, s.cpsr][i] := by
    rw [load_storeWords_apart, load_storeWords [s.pc + 4#32, s.cpsr] _ _
      (show 4 * 2 ≤ 2 ^ 32 by decide) inside]
    intro j below
    have bound : j < 3 := below
    unfold Apart
    bv_omega
  have first := lowerWord 0 (by decide)
  have fourth := upperWord 0 (by decide)
  have fifth := upperWord 1 (by decide)
  rw [Nat.mul_zero, BitVec.add_zero] at first fourth
  rw [BitVec.add_assoc] at fifth
  exact ⟨first, lowerWord 1 (by decide), lowerWord 2 (by decide), fourth, fifth⟩

/-- What the end of `irq_handler` loads. -/
theorem irqLeave_run (h : Cpu) (frame : BitVec 32) (place : h.regs .r11 = frame + 12#32) :
    (run irqLeave h).regs .r11 = h.memory.load frame ∧
      (run irqLeave h).regs .r12 = h.memory.load (frame + 4#32) ∧
      (run irqLeave h).regs .lr = h.memory.load (frame + 8#32) ∧
      (run irqLeave h).regs .sp = frame + 20#32 ∧
      (run irqLeave h).pc = h.memory.load (frame + 12#32) ∧
      (run irqLeave h).cpsr = h.memory.load (frame + 16#32) ∧
      ∀ r, r ∉ [Reg.r11, .r12, .sp, .lr] → (run irqLeave h).regs r = h.regs r := by
  have stack : h.regs .r11 - 12#32 = frame := by rw [place, BitVec.add_sub_cancel]
  refine ⟨?_, ?_, ?_, ?_, ?_, ?_, ?_⟩
  case refine_7 =>
    intro r other
    simp only [List.mem_cons, List.not_mem_nil, or_false, not_or] at other
    simp [irqLeave, run, Instr.exec, Cpu.loadRegs, Cpu.set, other]
  all_goals
    simp [irqLeave, run, Instr.exec, Cpu.loadRegs, Cpu.set, bytesOf, stack, BitVec.add_assoc]

/-! ## The whole interrupt -/

/-- `irq_handler` around a handler that ended with the CPU in the state `h`: everything but `r0` to
`r3` is as it was at the interrupt, and those are what the handler left. -/
theorem irqLeave_keeps {s h : Cpu} {returnAddress : BitVec 32}
    (keeps : Keeps (s.regs .sp - 20#32) (s.handlerEntry returnAddress) h) :
    (∀ r, r ∉ [Reg.r0, .r1, .r2, .r3] → (run irqLeave h).regs r = s.regs r) ∧
      (∀ r ∈ [Reg.r0, .r1, .r2, .r3], (run irqLeave h).regs r = h.regs r) ∧
      (run irqLeave h).cpsr = s.cpsr ∧ (run irqLeave h).pc = s.pc + 4#32 := by
  obtain ⟨-, r11, -, others⟩ := handlerEntry_regs s returnAddress
  obtain ⟨fp, ip, lr, resumed, status⟩ := handlerEntry_words s returnAddress
  have place := (keeps.registers .r11 (by decide)).trans r11
  obtain ⟨finalFp, finalIp, finalLr, finalSp, finalPc, finalCpsr, rest⟩ := irqLeave_run h _ place
  have first := keeps.stack.load (i := 0) (by decide)
  rw [BitVec.add_zero] at first
  have second := keeps.stack.load (i := 4) (by decide)
  have third := keeps.stack.load (i := 8) (by decide)
  have fourth := keeps.stack.load (i := 12) (by decide)
  have fifth := keeps.stack.load (i := 16) (by decide)
  have untouched (r : Reg) (kept : r ∈ preserved) (other : r ∉ [Reg.r11, .r12, .sp, .lr]) :
      (run irqLeave h).regs r = s.regs r := by
    rw [rest r other, keeps.registers r kept, others r]
    revert kept other
    cases r <;> decide
  refine ⟨?_, ?_, ?_, ?_⟩
  · intro r saved
    cases r with
    | r0 | r1 | r2 | r3 => exact absurd (by decide) saved
    | r4 | r5 | r6 | r7 | r8 | r9 | r10 => exact untouched _ (by decide) (by decide)
    | r11 => rw [finalFp, first, fp]
    | r12 => rw [finalIp, second, ip]
    | sp => rw [finalSp, BitVec.sub_add_cancel]
    | lr => rw [finalLr, third, lr]
  · intro r scratch
    apply rest
    revert scratch
    cases r <;> decide
  · rw [finalCpsr, fifth, status]
  · rw [finalPc, fourth, resumed]

/-- An interrupt at any instruction, with any handler that obeys the calling convention and any
switches to other tasks and back: when `irq_handler` is done, the registers and the status register
are what they were if and only if the handler happened to return with `r0` to `r3` as they were.
The CPU goes on at `lr` of the interrupt mode. -/
theorem irqHandler_transparent_iff (s : Cpu) (returnAddress : BitVec 32) {handler : Handler}
    (obeys : Obeys (s.handlerEntry returnAddress) handler) {h : Cpu}
    (runs : Runs (s.regs .sp - 20#32) handler h) :
    ((∀ r, (run irqLeave h).regs r = s.regs r) ∧ (run irqLeave h).cpsr = s.cpsr ↔
      ∀ r ∈ [Reg.r0, .r1, .r2, .r3], h.regs r = s.regs r) ∧
    (∀ r, r ∉ [Reg.r0, .r1, .r2, .r3] → (run irqLeave h).regs r = s.regs r) ∧
    (run irqLeave h).cpsr = s.cpsr ∧ (run irqLeave h).pc = s.pc + 4#32 := by
  have frame := (handlerEntry_regs s returnAddress).1
  rw [← frame] at runs
  have keeps := runs.keeps obeys
  rw [frame] at keeps
  obtain ⟨saved, scratch, status, resumed⟩ := irqLeave_keeps keeps
  refine ⟨⟨?_, ?_⟩, saved, status, resumed⟩
  · intro transparent r listed
    exact (scratch r listed).symm.trans (transparent.1 r)
  · intro kept
    refine ⟨fun r => ?_, status⟩
    by_cases listed : r ∈ [Reg.r0, .r1, .r2, .r3]
    · exact (scratch r listed).trans (kept r listed)
    · exact saved r listed

/-! ## Two handlers -/

/-- The interrupted code. -/
def sampleCode : Cpu where
  regs r := if r = .sp then 0x8000 else 7
  cpsr := sysMode
  pc := 0x4000
  lrIrq := 0
  spsrIrq := 0
  memory _ := 0

/-- The entry of the handler. -/
def sampleEntry : Cpu := sampleCode.handlerEntry 0x100

/-- A handler that returns with another value in `r0`. -/
def scratchHandler : Handler := .returns { sampleEntry.set .r0 1 with pc := 0x100 }

/-- The call of a handler that switches to another task. -/
def sampleCall : Cpu := ((sampleEntry.set .r0 0x1000).set .r1 0x2000).set .lr 0x104

/-- The end of this handler, with `r0` and `r1` put back. -/
def sampleEnd (x : Cpu) : Cpu := { (x.set .r0 7).set .r1 7 with pc := 0x100 }

/-- The other task switches back. -/
def sampleBack (s : Cpu) : Cpu := (s.set .r0 0x2000).set .r1 0x1000

/-- The handler keeps the calling convention, and the interrupted code finds its `r0` changed. -/
theorem irqHandler_loses_r0 :
    Obeys sampleEntry scratchHandler ∧
      Runs (sampleCode.regs .sp - 20#32) scratchHandler { sampleEntry.set .r0 1 with pc := 0x100 } ∧
      (run irqLeave { sampleEntry.set .r0 1 with pc := 0x100 }).regs .r0 ≠ sampleCode.regs .r0 := by
  refine ⟨⟨?_, Same.refl _ _ _, by decide +kernel⟩, .returns _, by decide +kernel⟩
  intro r kept
  rw [preserved] at kept
  revert kept
  cases r <;> decide +kernel

/-- A handler that switches away and back, and then puts `r0` and `r1` back. -/
theorem irqHandler_switching : ∃ h,
    Runs (sampleCode.regs .sp - 20#32) (.swaps sampleCall fun x => .returns (sampleEnd x)) h ∧
      (∀ r, (run irqLeave h).regs r = sampleCode.regs r) ∧
      (run irqLeave h).cpsr = sampleCode.cpsr := by
  have obeys : Obeys (sampleCode.handlerEntry 0x100)
      (.swaps sampleCall fun x => .returns (sampleEnd x)) := by
    intro x keeps
    refine ⟨?_, keeps.stack, (handlerEntry_regs sampleCode 0x100).2.2.1.symm⟩
    intro r kept
    have same := keeps.registers r kept
    revert kept same
    cases r <;> simp [preserved, sampleEnd, sampleCall, set_regs, sampleEntry]
  have runs : Runs (sampleCode.regs .sp - 20#32)
      (.swaps sampleCall fun x => .returns (sampleEnd x))
      (sampleEnd (run swapTaskRegisters (sampleBack (run swapTaskRegisters sampleCall)))) := by
    refine .swaps [] sampleBack ⟨?_, ?_, ?_⟩ (.returns _)
    all_goals decide +kernel
  refine ⟨_, runs, (irqHandler_transparent_iff sampleCode 0x100 obeys runs).1.mpr ?_⟩
  decide +kernel

end FelineOS.Arm
