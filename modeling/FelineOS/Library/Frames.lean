import FelineOS.Library.WordMemory

/-!
# Stack frames in memory

The frames of a stack are a list that is linked through a word of each frame; another word of a
frame is the address that the function returns to. A null pointer ends the list.
-/

namespace Library

open Memory

variable {m later : Memory} {link ret fp : BitVec 32} {frames : List (BitVec 32 × BitVec 32)}

/-- The frames from a frame pointer on, each with its return address; `link` and `ret` are the
offsets of the two words. -/
inductive Frames (m : Memory) (link ret : BitVec 32) :
    BitVec 32 → List (BitVec 32 × BitVec 32) → Prop where
  /-- The null pointer is the top of the stack. -/
  | top : Frames m link ret 0 []
  /-- A frame has the pointer to the next one. -/
  | frame {fp : BitVec 32} {frames : List (BitVec 32 × BitVec 32)} (present : fp ≠ 0)
      (next : Frames m link ret (m.load (fp + link)) frames) :
      Frames m link ret fp ((fp, m.load (fp + ret)) :: frames)

namespace Frames

/-- A memory with the same words in the frames has the same frames. -/
theorem congr (chain : Frames m link ret fp frames)
    (same : ∀ frame ∈ frames, later.load (frame.1 + link) = m.load (frame.1 + link) ∧
      later.load (frame.1 + ret) = m.load (frame.1 + ret)) : Frames later link ret fp frames := by
  induction chain with
  | top => exact .top
  | frame present next ih =>
    have here := same _ (List.mem_cons_self ..)
    have rest := ih fun frame member => same frame (List.mem_cons_of_mem _ member)
    rw [← here.1] at rest
    rw [← here.2]
    exact .frame present rest

/-- Without frames the frame pointer is null. -/
theorem eq_null (chain : Frames m link ret fp []) : fp = 0 := by
  cases chain
  rfl

/-- The first frame and those behind it. -/
theorem uncons {frame : BitVec 32 × BitVec 32} (chain : Frames m link ret fp (frame :: frames)) :
    fp ≠ 0 ∧ frame = (fp, m.load (fp + ret)) ∧
      Frames m link ret (m.load (fp + link)) frames := by
  cases chain with
  | frame present next => exact ⟨present, rfl, next⟩

end Frames

/-- The addresses of the calls, a word of code in front of those that they return to. -/
def callSites (back : BitVec 32) (frames : List (BitVec 32 × BitVec 32)) : List (BitVec 32) :=
  frames.map fun frame => frame.2 - back

/-- The number of calls that are taken. -/
theorem length_take_callSites (back : BitVec 32) {n : Nat} (few : n ≤ frames.length) :
    ((callSites back frames).take n).length = n := by
  rw [List.length_take, callSites, List.length_map]
  exact Nat.min_eq_left few

end Library
