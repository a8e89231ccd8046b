import FelineOS.Kernel.NewTaskArm
import FelineOS.Verif.InterruptArm
import FelineOS.Verif.TaskWorld

/-!
# No task of the ARM loses its context

`swap_task_registers` saves every register and loads every one, so it does what a target has to do
as soon as the save area is apart from the stack.
-/

namespace FelineOS.Arm

open Library Memory

/-- A task is held where its registers are, as long as its stack stays. -/
theorem Held.copied {m later : Memory} {area other : BitVec 32} {kept : Kept}
    (held : Held m area kept) (registers : m.Copied area later other 60)
    (same : Same later m (kept.regs .sp) (4 * kept.stack.length)) : Held later other kept where
  regs := by
    unfold HasRegisters
    rw [registers.loadWords (by decide)]
    exact held.regs
  pc := held.pc
  stack := (same.copied.loadWords (Nat.le_refl _)).trans held.stack

/-- A switch changes its save area only. -/
theorem swap_same (s : Cpu) {base : BitVec 32} {length : Nat}
    (area : AreasApart base length (s.regs .r0) 60) :
    Same (run swapTaskRegisters s).memory s.memory base length := by
  rw [(swapTaskRegisters_run s).1]
  exact (Same.refl s.memory base length).storeWords _ area

/-- Registers that the memory has are loaded. -/
theorem loadRegs_has {m : Memory} {area : BitVec 32} {regs : Reg → BitVec 32}
    (has : HasRegisters m area regs) (old : Reg → BitVec 32) :
    Cpu.loadRegs m area taskRegisters old = regs := by
  funext r
  obtain ⟨i, inside, same⟩ := List.mem_iff_getElem.mp (mem_taskRegisters r)
  have word := congrArg (fun words => words[i]?) has
  have small : i < 15 := inside
  simp only [loadWords, List.getElem?_map, List.getElem?_range small,
    List.getElem?_eq_getElem inside, Option.map_some, Option.some.injEq, same] at word
  rw [← same, loadRegs_listed m taskRegisters area old (by decide) inside, word, same]

/-- A switch gives the task that it loads all that was held of it. -/
theorem swap_gets (s : Cpu) {area : BitVec 32} {kept : Kept} (loads : s.regs .r1 = area)
    (held : Held s.memory area kept) (areas : AreasApart area 60 (s.regs .r0) 60)
    (stack : AreasApart (kept.regs .sp) (4 * kept.stack.length) (s.regs .r0) 60) :
    (run swapTaskRegisters s).kept kept.stack.length = kept := by
  have after := held.copied (swap_same s areas).copied (swap_same s stack)
  obtain ⟨-, regs, pc⟩ := swapTaskRegisters_run s
  rw [loads, loadRegs_has after.regs] at regs
  rw [regs, after.pc] at pc
  unfold Cpu.kept
  rw [regs, pc, after.stack]

/-- A switch leaves in the area and on the stack what the running task gets back. -/
theorem swap_holds (s : Cpu) {n : Nat} (own : AreasApart (s.regs .sp) (4 * n) (s.regs .r0) 60) :
    Held (run swapTaskRegisters s).memory (s.regs .r0) ({ s with pc := s.regs .lr }.kept n) where
  regs := by
    have fits : 4 * (taskRegisters.map s.regs).length ≤ 2 ^ 32 := by
      rw [List.length_map]
      decide
    rw [(swapTaskRegisters_run s).1]
    exact loadWords_storeWords (taskRegisters.map s.regs) s.memory (s.regs .r0) fits
  pc := rfl
  stack := by
    simp only [Cpu.kept, length_loadWords]
    exact (swap_same s own).copied.loadWords (Nat.le_refl _)

/-- The listing does what a target has to do. -/
theorem target_correct (stub : BitVec 32) : (target stub).Correct where
  copied registers stack held := held.copied registers stack
  creates := by
    rintro s laidOut filled written area initial ⟨fill, filled⟩
    exact ⟨fun base length _ => Same.refl s.memory base length, filled, rfl, rfl⟩
  saves := by
    rintro s later written area next saved ⟨n, fits, own⟩
    exact ⟨fun base length outside => swap_same s (outside _ List.mem_cons_self),
      swap_holds s own⟩
  loads := by
    intro s later written area saved next switches apart held
    obtain ⟨loads, same⟩ : ∃ loads, loads = next.area := ⟨_, rfl⟩
    rw [← same] at switches
    obtain ⟨n, fits, own⟩ := switches
    obtain ⟨registers, stack⟩ := apart
    exact swap_gets s same held (registers _ List.mem_cons_self) (stack _ List.mem_cons_self)

/-- In every run of new tasks, switches and code that keeps to its own memory, every switch gives
the next task the context it was switched away from with or created with, and the memory has the
contexts of all tasks that wait. -/
theorem task_contexts_restored {stub : BitVec 32} {start : Cpu} {w : Tasks.World Cpu Kept}
    (reachable : Tasks.World.Reachable (target stub) start w) :
    Scheduler.ContextsKept w.history ∧ w.Holds (target stub) :=
  reachable.kept (target_correct stub)

/-! ## A first task -/

/-- The CPU of the running task, which is about to switch. -/
def sampleStart : Cpu where
  regs
    | .sp => 0x8000
    | .r0 => 0x6000
    | .r1 => 0x5000
    | .lr => 0x300
    | _ => 0
  cpsr := 0x1f
  pc := 0
  lrIrq := 0
  spsrIrq := 0
  memory _ := 0

/-- The code that fills the registers of the new task. -/
def sampleFill (s : Cpu) : Cpu :=
  { s with memory :=
      s.memory.storeWords 0x5000 (taskRegisters.map (newRegisters 0x1000 0x4000 0x2000)) }

/-- A new task is switched to and enters `exit_scheduler_stub`, which is at the address 0x1000
here. -/
theorem task_contexts_restored_first : ∃ w, Tasks.World.Reachable (target 0x1000) sampleStart w ∧
    w.running = 1 ∧ w.machine.pc = 0x1000 ∧ Scheduler.ContextsKept w.history := by
  have creates : Creates 0x1000 sampleStart _ _ _ 0x5000 _ :=
    @Creates.newTask 0x1000 sampleStart 0x4000 0x2000 0x5000 sampleFill (by decide +kernel)
  have created : Tasks.World.Reachable (target 0x1000) sampleStart _ :=
    .step .start (@Tasks.World.Step.create _ _ (target 0x1000) _ 1 _ _ _ _ _ _ (by decide) creates
      (fun _ member => absurd member List.not_mem_nil) .nil)
  have switches := @Switches.swap (sampleFill sampleStart) 0 (by decide) (by decide +kernel)
  have switched := Tasks.World.Reachable.step created (@Tasks.World.Step.switch _ _ (target 0x1000)
    _ [] [] _ _ _ _ _ rfl switches (by
      intro t member
      rw [List.mem_singleton] at member
      subst member
      exact ⟨by decide +kernel, by decide +kernel⟩))
  exact ⟨_, switched, rfl, by decide +kernel, (task_contexts_restored switched).1⟩

end FelineOS.Arm
