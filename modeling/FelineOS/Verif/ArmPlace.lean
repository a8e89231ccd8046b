import FelineOS.Library.Skipping
import FelineOS.Verif.BootstrapArm
import Mathlib.Data.Nat.Find

/-!
# The place of the array on ARM

`find_space_in_area` of the ARM bootstrap is a search past the entries of the reserve map, the
kernel and the device tree (`Obstacles`). Its tests look at the location before it is rounded, the
device tree ends for them at its last whole header, and the end of the available range is looked at
only behind an obstacle. So the location it rests at stays clear of what was tested, but the location
it returns need not: rounding can carry it into the next obstacle or past the end.
-/

namespace FelineOS.BootstrapArm

open DeviceTree
open Bootstrap (add64 doubleLimit)
open Library (Obstacles)
open Library.FlatTree (Memory)

variable {info : BootInfo} {header a e size align invalid fuel p x location : Nat}
  {reserved entries : List ReserveEntry}

/-! ## Rounding -/

/-- The first multiple of the alignment at or above an address. -/
def nextMultiple (x align : Nat) : Nat :=
  if x % align = 0 then x else x + align - x % align

/-- It is a multiple, and not below the address. -/
theorem nextMultiple_spec (positive : 0 < align) (x : Nat) :
    align ∣ nextMultiple x align ∧ x ≤ nextMultiple x align := by
  unfold nextMultiple
  have rest := Nat.mod_lt x positive
  split
  · rename_i aligned
    exact ⟨Nat.dvd_of_mod_eq_zero aligned, Nat.le_refl _⟩
  · refine ⟨?_, by omega⟩
    have parts := Nat.div_add_mod x align
    have whole : x + align - x % align = align * (x / align + 1) := by
      rw [Nat.mul_add, Nat.mul_one]
      omega
    rw [whole]
    exact Nat.dvd_mul_right _ _

/-- How far it is from an address to the next multiple of the alignment. -/
def toMultiple (x align : Nat) : Nat := (align - x % align) % align

/-- The first multiple is that far away. -/
theorem nextMultiple_eq (positive : 0 < align) (x : Nat) :
    nextMultiple x align = x + toMultiple x align := by
  unfold nextMultiple toMultiple
  have rest := Nat.mod_lt x positive
  split
  · rename_i aligned
    rw [aligned, Nat.sub_zero, Nat.mod_self]
    rfl
  · have less : align - x % align < align := by omega
    rw [Nat.mod_eq_of_lt less]
    omega

/-- `round_up_to_alignment` rounds to it, where it is a word. -/
theorem roundUpToAlignment_eq_nextMultiple (word : nextMultiple x align < wordLimit) :
    roundUpToAlignment x align = nextMultiple x align := by
  unfold roundUpToAlignment
  unfold nextMultiple at *
  split
  · rfl
  · rename_i rest
    rw [if_neg rest] at word
    exact wrap_of_lt word

/-! ## The search -/

/-- What is in the way: the entries of the reserve map that are read, the kernel, and the device tree
up to its last whole header. -/
def obstaclesOf (info : BootInfo) (header : Nat) (reserved : List ReserveEntry) : List Obstacle :=
  reserved.map ReserveEntry.obstacle ++ [info.kernelObstacle, info.devicetreeObstacle header]

/-- The obstacles for `size` bytes before the end `e`. -/
def armObstacles (info : BootInfo) (header e size : Nat) (reserved : List ReserveEntry) :
    Obstacles Obstacle where
  all := obstaclesOf info header reserved
  blocks p o := decide (o.startReserved ≤ p + size ∧ p ≤ o.endReserved)
  final o := decide (e < o.endReserved + size)
  behind o := o.behind

/-- No sum that the search forms leaves the words. -/
structure SumsFit (info : BootInfo) (header a e size align : Nat) (reserved : List ReserveEntry) :
    Prop where
  /-- The end of the available range. -/
  stop : e < wordLimit
  /-- The first location. -/
  first : nextMultiple a align + size < wordLimit
  /-- The entries of the reserve map. -/
  entry : ∀ r ∈ reserved, nextMultiple (r.address + r.size + 1) align + size < wordLimit
  /-- The kernel. -/
  kernel : nextMultiple (info.physKernelEnd + 1) align + size < wordLimit
  /-- The device tree. -/
  devicetree : nextMultiple (info.physDevicetreeHeader +
    totalsize info.mem header / sizeofFdtHeader * sizeofFdtHeader + sizeofFdtHeader) align + size <
      wordLimit

/-- An obstacle ends before the place behind it, and that place can be rounded. -/
structure Obstacle.Fits (o : Obstacle) (size align : Nat) : Prop where
  /-- The end comes first. -/
  ordered : o.endReserved < o.behind
  /-- The place behind it with the bytes is a word. -/
  room : nextMultiple o.behind align + size < wordLimit

/-- What is tested for an entry of the reserve map is the entry. -/
theorem ReserveEntry.obstacle_eq {r : ReserveEntry} (word : r.address + r.size + 1 < wordLimit) :
    r.obstacle = ⟨r.address, r.address + r.size, r.address + r.size + 1⟩ := by
  have small : wordLimit ≤ doubleLimit := by decide
  unfold ReserveEntry.obstacle add64
  rw [Nat.mod_eq_of_lt (by omega), Nat.mod_eq_of_lt (by omega), wrap_of_lt (by omega),
    wrap_of_lt (by omega), wrap_of_lt word]

section Sums

variable (sums : SumsFit info header a e size align reserved) (positive : 0 < align)

include sums positive

/-- The entries that are read do not wrap. -/
theorem SumsFit.entry_word {r : ReserveEntry} (listed : r ∈ reserved) :
    r.address + r.size + 1 < wordLimit := by
  have room := sums.entry r listed
  have above := (nextMultiple_spec positive (r.address + r.size + 1)).2
  omega

/-- What is tested for the device tree. -/
theorem SumsFit.devicetree_eq : info.devicetreeObstacle header =
    ⟨info.physDevicetreeHeader,
      info.physDevicetreeHeader + totalsize info.mem header / sizeofFdtHeader * sizeofFdtHeader,
      info.physDevicetreeHeader + totalsize info.mem header / sizeofFdtHeader * sizeofFdtHeader +
        sizeofFdtHeader⟩ := by
  have room := sums.devicetree
  have above := (nextMultiple_spec positive (info.physDevicetreeHeader +
    totalsize info.mem header / sizeofFdtHeader * sizeofFdtHeader + sizeofFdtHeader)).2
  unfold BootInfo.devicetreeObstacle addHeaders
  rw [wrap_of_lt (by omega), wrap_of_lt (by omega)]

/-- Every obstacle can be passed without a wrap. -/
theorem SumsFit.fits {o : Obstacle} (listed : o ∈ obstaclesOf info header reserved) :
    o.Fits size align := by
  unfold obstaclesOf at listed
  rcases List.mem_append.mp listed with entry | other
  · obtain ⟨r, read, rfl⟩ := List.mem_map.mp entry
    rw [ReserveEntry.obstacle_eq (sums.entry_word positive read)]
    exact ⟨Nat.lt_succ_self _, sums.entry r read⟩
  · rcases List.mem_cons.mp other with rfl | last
    · have room := sums.kernel
      have above := (nextMultiple_spec positive (info.physKernelEnd + 1)).2
      unfold BootInfo.kernelObstacle
      rw [wrap_of_lt (by omega)]
      exact ⟨Nat.lt_succ_self _, room⟩
    · rw [List.mem_singleton.mp last, sums.devicetree_eq positive]
      exact ⟨Nat.lt_add_of_pos_right (by decide), sums.devicetree⟩

end Sums

/-- The checks stop at the obstacle that is met. -/
theorem findSpaceLoopAligned_eq (recursiveSelf : Nat → Except Fault Nat) {obstacles : List Obstacle}
    (here : p + size < wordLimit) (fits : ∀ o ∈ obstacles, o.endReserved + size < wordLimit) :
    findSpaceLoopAligned recursiveSelf p e size align invalid obstacles =
      match obstacles.find? fun o => decide (o.startReserved ≤ p + size ∧ p ≤ o.endReserved) with
      | none => .ok (roundUpToAlignment p align)
      | some o => if e < o.endReserved + size then .ok invalid else recursiveSelf o.behind := by
  induction obstacles with
  | nil => rfl
  | cons o rest ih =>
    have overlaps : Boot.overlap ⟨p, wrap (p + size)⟩ ⟨o.startReserved, o.endReserved⟩ =
        decide (o.startReserved ≤ p + size ∧ p ≤ o.endReserved) := by
      rw [wrap_of_lt here]
      unfold Boot.overlap
      simp only [Bool.decide_and]
      congr 2 <;> simp
    unfold findSpaceLoopAligned isOverlap
    rw [overlaps, wrap_of_lt (fits o List.mem_cons_self)]
    by_cases blocked : o.startReserved ≤ p + size ∧ p ≤ o.endReserved
    · rw [List.find?_cons_of_pos (by simpa using blocked), if_pos (by simpa using blocked)]
      by_cases final : e < o.endReserved + size
      · simp only [if_pos final]
      · simp only [if_neg final]
    · rw [List.find?_cons_of_neg (by simpa using blocked), if_neg (by simpa using blocked)]
      exact ih fun b listed => fits b (List.mem_cons_of_mem _ listed)

/-- A loop over the reserve map that ends passes the same entries with more fuel. -/
theorem reserveEntriesFrom_succ {mem : Memory} {addr : Nat}
    (returned : reserveEntriesFrom mem fuel addr = .ok reserved) :
    reserveEntriesFrom mem (fuel + 1) addr = .ok reserved := by
  induction fuel generalizing addr reserved with
  | zero => cases returned
  | succ fuel ih =>
    unfold reserveEntriesFrom at returned ⊢
    by_cases entry : (reserveEntry mem addr).address ≠ 0 ∨ (reserveEntry mem addr).size ≠ 0
    · simp only [if_pos entry] at returned ⊢
      obtain ⟨rest, read, last⟩ := of_bind_ok returned
      rw [ih read]
      exact last
    · simp only [if_neg entry] at returned ⊢
      exact returned

/-- What a search that returns has come to. -/
theorem aligned_returned (sums : SumsFit info header a e size align reserved) (positive : 0 < align)
    (same : ∀ found, reservedMem info.mem header fuel = .ok found → found = reserved)
    (here : nextMultiple x align + size < wordLimit)
    (returned : findSpaceInAreaAligned info header e size align invalid fuel x = .ok location) :
    (∃ p, (armObstacles info header e size reserved).Rests x p ∧ location = nextMultiple p align) ∨
      location = invalid ∧ ∃ o, (armObstacles info header e size reserved).GivesUp x o := by
  induction fuel generalizing x with
  | zero => cases returned
  | succ fuel ih =>
    unfold findSpaceInAreaAligned at returned
    rw [if_neg (Nat.ne_of_gt positive)] at returned
    obtain ⟨found, read, body⟩ := of_bind_ok returned
    obtain rfl := same found read
    have above := (nextMultiple_spec positive x).2
    rw [show found.map ReserveEntry.obstacle ++ [info.kernelObstacle, info.devicetreeObstacle header] =
      obstaclesOf info header found from rfl, findSpaceLoopAligned_eq _ (by omega) ?_] at body
    · cases met : (armObstacles info header e size found).meets x with
      | none =>
        unfold Obstacles.meets armObstacles at met
        simp only at met
        rw [met, roundUpToAlignment_eq_nextMultiple (by omega)] at body
        exact .inl ⟨x, ⟨.refl, met⟩, (Except.ok.inj body).symm⟩
      | some o =>
        have listed := (Obstacles.of_meets met).1
        have fits := sums.fits positive listed
        have stays := met
        unfold Obstacles.meets armObstacles at stays
        simp only at stays
        rw [stays] at body
        by_cases final : e < o.endReserved + size
        · simp only [if_pos final] at body
          exact .inr ⟨(Except.ok.inj body).symm, o, x, .refl, met, by simpa [armObstacles] using final⟩
        · simp only [if_neg final] at body
          have skip : (armObstacles info header e size found).Skips x o.behind :=
            ⟨o, met, by simpa [armObstacles] using final, rfl⟩
          have later := ih (fun seen reads => same seen (reserveEntriesFrom_succ reads)) fits.room body
          rcases later with ⟨p, rests, placed⟩ | ⟨failed, b, q, tried, stops⟩
          · exact .inl ⟨p, ⟨rests.1.head skip, rests.2⟩, placed⟩
          · exact .inr ⟨failed, b, q, tried.head skip, stops⟩
    · intro o listed
      have fits := sums.fits positive listed
      have behind := (nextMultiple_spec positive o.behind).2
      have ordered := fits.ordered
      have room := fits.room
      omega

/-! ## Where the search comes to rest -/

/-- The bytes at the place stay clear of the entries of the reserve map that are read and of the
kernel, with a byte between, as the code tests it. -/
structure ClearAt (info : BootInfo) (reserved : List ReserveEntry) (size p : Nat) : Prop where
  /-- They end before each entry or begin behind it. -/
  entry : ∀ r ∈ reserved, p + size < r.address ∨ r.address + r.size < p
  /-- They end before the kernel or begin behind it. -/
  kernel : p + size < info.physKernelStart ∨ info.physKernelEnd < p

/-- The lowest clear place from an address on. -/
structure LowestClear (info : BootInfo) (reserved : List ReserveEntry) (a size p : Nat) : Prop where
  /-- It is not below the address. -/
  above : a ≤ p
  /-- It is clear. -/
  clear : ClearAt info reserved size p
  /-- No place before it is. -/
  lowest : ∀ q, a ≤ q → ClearAt info reserved size q → p ≤ q

/-- Where the last whole header of the device tree ends. -/
def BootInfo.wholeHeaders (info : BootInfo) (header : Nat) : Nat :=
  info.physDevicetreeHeader + totalsize info.mem header / sizeofFdtHeader * sizeofFdtHeader

/-- The bytes at the place end before the device tree or begin behind its last whole header. -/
def BootInfo.PassesTree (info : BootInfo) (header size p : Nat) : Prop :=
  p + size < info.physDevicetreeHeader ∨ info.wholeHeaders header < p

/-- The lowest clear place from `a` on; where the device tree is in the way there, the lowest clear
place from one header behind its last whole header on. -/
def LowestPlace (info : BootInfo) (header : Nat) (reserved : List ReserveEntry) (a size p : Nat) :
    Prop :=
  ∃ t, LowestClear info reserved a size t ∧
    (info.PassesTree header size t ∧ p = t ∨
      ¬ info.PassesTree header size t ∧
        LowestClear info reserved (info.wholeHeaders header + sizeofFdtHeader) size p)

/-- The available range is left on the way to the lowest place. The lowest clear place lies behind
something, and from one byte before it on the bytes do not end in the range; or the device tree is in
the way there, and the bytes do not end in the range from its last whole header on, or the lowest
clear place one header behind lies behind something in the same way. -/
def RunsOut (info : BootInfo) (header : Nat) (reserved : List ReserveEntry) (a e size : Nat) : Prop :=
  ∃ t, LowestClear info reserved a size t ∧
    (a < t ∧ e + 1 < t + size ∨
      ¬ info.PassesTree header size t ∧
        (e < info.wholeHeaders header + size ∨
          ∃ p, LowestClear info reserved (info.wholeHeaders header + sizeofFdtHeader) size p ∧
            info.wholeHeaders header + sizeofFdtHeader < p ∧ e + 1 < p + size))

/-- The lowest clear place is determined. -/
theorem LowestClear.unique {q : Nat} (one : LowestClear info reserved a size p)
    (two : LowestClear info reserved a size q) : p = q :=
  Nat.le_antisymm (one.lowest q two.above two.clear) (two.lowest p one.above one.clear)

/-- So is the place with the device tree. -/
theorem LowestPlace.unique {q : Nat} (one : LowestPlace info header reserved a size p)
    (two : LowestPlace info header reserved a size q) : p = q := by
  obtain ⟨t, lowest, here⟩ := one
  obtain ⟨t', lowest', here'⟩ := two
  obtain rfl := lowest.unique lowest'
  rcases here with ⟨passes, rfl⟩ | ⟨blocked, behind⟩ <;>
    rcases here' with ⟨passes', rfl⟩ | ⟨blocked', behind'⟩
  · rfl
  · exact absurd passes blocked'
  · exact absurd passes' blocked
  · exact behind.unique behind'

/-- Behind one header more than the device tree has, its whole headers are passed. -/
theorem passesTree_behind {q : Nat} (above : info.wholeHeaders header + sizeofFdtHeader ≤ q) :
    info.PassesTree header size q := by
  have whole : 0 < sizeofFdtHeader := by decide
  exact .inr (by omega)

/-- A place that no search from `a` has to go beyond: no clear place comes before it. -/
def NotBeyond (info : BootInfo) (reserved : List ReserveEntry) (a size p : Nat) : Prop :=
  a ≤ p ∧ ∀ q, a ≤ q → ClearAt info reserved size q → p ≤ q

/-- How the search comes to a place: it has passed no clear place, except for one where the device
tree is in the way, and what it has gone behind leaves room for the bytes in the available range. -/
inductive Comes (info : BootInfo) (header : Nat) (reserved : List ReserveEntry) (a e size q : Nat) :
    Prop where
  /-- The device tree was not in the way. -/
  | before (low : NotBeyond info reserved a size q) (early : q = a ∨ q + size ≤ e + 1)
  /-- The device tree was in the way at the lowest clear place. -/
  | behind {t : Nat} (lowest : LowestClear info reserved a size t)
      (tree : ¬ info.PassesTree header size t) (first : t = a ∨ t + size ≤ e + 1)
      (room : info.wholeHeaders header + size ≤ e)
      (low : NotBeyond info reserved (info.wholeHeaders header + sizeofFdtHeader) size q)
      (early : q = info.wholeHeaders header + sizeofFdtHeader ∨ q + size ≤ e + 1)

section Places

variable (sums : SumsFit info header a e size align reserved) (positive : 0 < align)

include sums positive

/-- None of the first tests finds anything in the way at a place exactly when it is clear. -/
theorem clearAt_iff :
    ((reserved.map ReserveEntry.obstacle ++ [info.kernelObstacle]).find? fun o =>
        decide (o.startReserved ≤ p + size ∧ p ≤ o.endReserved)) = none ↔
      ClearAt info reserved size p := by
  rw [List.find?_eq_none]
  simp only [List.forall_mem_append, List.forall_mem_singleton, List.forall_mem_map,
    decide_eq_true_eq]
  constructor
  · rintro ⟨entries, kernel⟩
    refine ⟨fun r listed => ?_, ?_⟩
    · have free := entries r listed
      rw [ReserveEntry.obstacle_eq (sums.entry_word positive listed)] at free
      simp only at free
      omega
    · unfold BootInfo.kernelObstacle at kernel
      simp only at kernel
      omega
  · intro clear
    refine ⟨fun r listed => ?_, ?_⟩
    · have free := clear.entry r listed
      rw [ReserveEntry.obstacle_eq (sums.entry_word positive listed)]
      simp only
      omega
    · have free := clear.kernel
      unfold BootInfo.kernelObstacle
      simp only
      omega

/-- Far enough up there is a clear place, and so a lowest one. -/
theorem exists_lowestClear (b : Nat) : ∃ t, LowestClear info reserved b size t := by
  classical
  have far : ∃ q, b ≤ q ∧ ClearAt info reserved size q := by
    refine ⟨b + wordLimit, Nat.le_add_right _ _, fun r listed => .inr ?_, .inr ?_⟩
    · have word := sums.entry_word positive listed
      omega
    · have room := sums.kernel
      have next := (nextMultiple_spec positive (info.physKernelEnd + 1)).2
      omega
  obtain ⟨above, clear⟩ := Nat.find_spec far
  exact ⟨Nat.find far, above, clear, fun q later free => Nat.find_min' far ⟨later, free⟩⟩

/-- The place behind an entry or the kernel is the next byte. -/
theorem behind_eq {o : Obstacle}
    (listed : o ∈ reserved.map ReserveEntry.obstacle ++ [info.kernelObstacle]) :
    o.behind = o.endReserved + 1 := by
  rcases List.mem_append.mp listed with entry | last
  · obtain ⟨r, read, rfl⟩ := List.mem_map.mp entry
    rw [ReserveEntry.obstacle_eq (sums.entry_word positive read)]
  · obtain rfl := List.mem_singleton.mp last
    have room := sums.kernel
    have next := (nextMultiple_spec positive (info.physKernelEnd + 1)).2
    unfold BootInfo.kernelObstacle
    exact wrap_of_lt (by omega)

/-- A clear place ends before an entry or the kernel or begins behind it. -/
theorem ClearAt.beside {q : Nat} {o : Obstacle} (clear : ClearAt info reserved size q)
    (listed : o ∈ reserved.map ReserveEntry.obstacle ++ [info.kernelObstacle]) :
    q + size < o.startReserved ∨ o.endReserved < q := by
  rcases List.mem_append.mp listed with entry | last
  · obtain ⟨r, read, rfl⟩ := List.mem_map.mp entry
    rw [ReserveEntry.obstacle_eq (sums.entry_word positive read)]
    exact clear.entry r read
  · obtain rfl := List.mem_singleton.mp last
    exact clear.kernel

/-- Behind an entry or the kernel the search is not beyond the clear places either. -/
theorem NotBeyond.behind {b : Nat} {o : Obstacle} (low : NotBeyond info reserved b size p)
    (listed : o ∈ reserved.map ReserveEntry.obstacle ++ [info.kernelObstacle])
    (blocked : o.startReserved ≤ p + size ∧ p ≤ o.endReserved) :
    NotBeyond info reserved b size o.behind := by
  rw [behind_eq sums positive listed]
  refine ⟨Nat.le_trans low.1 (by omega), fun q above clear => ?_⟩
  have before := low.2 q above clear
  have apart := clear.beside sums positive listed
  omega

/-- What the search meets at a place: something that the place is not clear of, or the device tree
at a clear place. -/
theorem meets_cases {o : Obstacle} (met : (armObstacles info header e size reserved).meets p = some o) :
    (o ∈ reserved.map ReserveEntry.obstacle ++ [info.kernelObstacle] ∧
        o.startReserved ≤ p + size ∧ p ≤ o.endReserved) ∨
      ClearAt info reserved size p ∧ ¬ info.PassesTree header size p ∧
        o.behind = info.wholeHeaders header + sizeofFdtHeader ∧
        o.endReserved = info.wholeHeaders header := by
  have blocked := (Obstacles.of_meets met).2
  simp only [armObstacles, decide_eq_true_eq] at blocked
  have order : obstaclesOf info header reserved =
      (reserved.map ReserveEntry.obstacle ++ [info.kernelObstacle]) ++
        [info.devicetreeObstacle header] := by simp [obstaclesOf]
  unfold Obstacles.meets armObstacles at met
  simp only [order] at met
  rw [List.find?_append] at met
  cases first : (reserved.map ReserveEntry.obstacle ++ [info.kernelObstacle]).find? fun o =>
      decide (o.startReserved ≤ p + size ∧ p ≤ o.endReserved) with
  | some b =>
    rw [first] at met
    obtain rfl := Option.some.inj met
    exact .inl ⟨List.mem_of_find?_eq_some first, blocked⟩
  | none =>
    rw [first, Option.none_or] at met
    obtain rfl := List.mem_singleton.mp (List.mem_of_find?_eq_some met)
    rw [sums.devicetree_eq positive] at blocked ⊢
    refine .inr ⟨(clearAt_iff sums positive).mp first, ?_, rfl, rfl⟩
    unfold BootInfo.PassesTree BootInfo.wholeHeaders
    simp only at blocked
    omega

/-- The search tries a place only after it has come to it. -/
theorem comes_of_tried {q : Nat}
    (tried : (armObstacles info header e size reserved).Tried a q) :
    Comes info header reserved a e size q := by
  induction tried with
  | refl => exact .before ⟨Nat.le_refl _, fun q above _ => above⟩ (.inl rfl)
  | tail _ skip ih =>
    obtain ⟨o, met, goesOn, rfl⟩ := skip
    have room : o.endReserved + size ≤ e := by simpa [armObstacles] using goesOn
    rw [show (armObstacles info header e size reserved).behind o = o.behind from rfl]
    rcases meets_cases sums positive met with ⟨listed, blocked⟩ | ⟨clear, tree, behind, stop⟩
    · have early : o.behind + size ≤ e + 1 := by
        rw [behind_eq sums positive listed]
        omega
      cases ih with
      | before low _ => exact .before (low.behind sums positive listed blocked) (.inr early)
      | behind lowest tree first whole low _ =>
        exact .behind lowest tree first whole (low.behind sums positive listed blocked) (.inr early)
    · rw [behind]
      rw [stop] at room
      cases ih with
      | before low first =>
        exact .behind ⟨low.1, clear, low.2⟩ tree first room ⟨Nat.le_refl _, fun q above _ => above⟩
          (.inl rfl)
      | behind _ _ _ _ low _ => exact absurd (passesTree_behind low.1) tree

/-- Where the search comes to rest, nothing is in the way. -/
theorem clear_of_rests (rests : (armObstacles info header e size reserved).Rests a p) :
    ClearAt info reserved size p ∧ info.PassesTree header size p := by
  have free := rests.2
  have order : obstaclesOf info header reserved =
      (reserved.map ReserveEntry.obstacle ++ [info.kernelObstacle]) ++
        [info.devicetreeObstacle header] := by simp [obstaclesOf]
  unfold Obstacles.meets armObstacles at free
  simp only [order] at free
  rw [List.find?_append, Option.or_eq_none_iff] at free
  refine ⟨(clearAt_iff sums positive).mp free.1, ?_⟩
  have last := free.2
  rw [sums.devicetree_eq positive, List.find?_eq_none] at last
  have beside := last _ List.mem_cons_self
  simp only [decide_eq_true_eq] at beside
  unfold BootInfo.PassesTree BootInfo.wholeHeaders
  omega

/-- The search comes to rest at the lowest place, and has not left the available range. -/
theorem lowestPlace_of_rests (rests : (armObstacles info header e size reserved).Rests a p) :
    LowestPlace info header reserved a size p ∧ ¬ RunsOut info header reserved a e size := by
  obtain ⟨clear, passes⟩ := clear_of_rests sums positive rests
  cases comes_of_tried sums positive rests.1 with
  | before low early =>
    have lowest : LowestClear info reserved a size p := ⟨low.1, clear, low.2⟩
    refine ⟨⟨p, lowest, .inl ⟨passes, rfl⟩⟩, ?_⟩
    rintro ⟨t, other, ⟨above, late⟩ | ⟨tree, -⟩⟩
    · obtain rfl := lowest.unique other
      omega
    · obtain rfl := lowest.unique other
      exact tree passes
  | behind first tree early room low last =>
    have lowest : LowestClear info reserved (info.wholeHeaders header + sizeofFdtHeader) size p :=
      ⟨low.1, clear, low.2⟩
    refine ⟨⟨_, first, .inr ⟨tree, lowest⟩⟩, ?_⟩
    rintro ⟨t, other, ⟨above, late⟩ | ⟨-, late | ⟨q, again, above, late⟩⟩⟩
    · obtain rfl := first.unique other
      omega
    · omega
    · obtain rfl := lowest.unique again
      omega

/-- A search that gives up has left the available range. -/
theorem runsOut_of_givesUp {o : Obstacle}
    (quits : (armObstacles info header e size reserved).GivesUp a o) :
    RunsOut info header reserved a e size := by
  obtain ⟨q, tried, met, final⟩ := quits
  have late : e < o.endReserved + size := by simpa [armObstacles] using final
  cases comes_of_tried sums positive tried with
  | before low first =>
    rcases meets_cases sums positive met with ⟨listed, blocked⟩ | ⟨clear, tree, -, stop⟩
    · obtain ⟨t, lowest⟩ := exists_lowestClear sums positive a
      have far := (low.behind sums positive listed blocked).2 t lowest.above lowest.clear
      have next := behind_eq sums positive listed
      have above := low.1
      exact ⟨t, lowest, .inl ⟨by omega, by omega⟩⟩
    · rw [stop] at late
      exact ⟨q, ⟨low.1, clear, low.2⟩, .inr ⟨tree, .inl late⟩⟩
  | behind first tree early room low last =>
    rcases meets_cases sums positive met with ⟨listed, blocked⟩ | ⟨-, blocked, -, -⟩
    · obtain ⟨p, lowest⟩ := exists_lowestClear sums positive
        (info.wholeHeaders header + sizeofFdtHeader)
      have far := (low.behind sums positive listed blocked).2 p lowest.above lowest.clear
      have next := behind_eq sums positive listed
      have above := low.1
      exact ⟨_, first, .inr ⟨tree, .inr ⟨p, lowest, by omega, by omega⟩⟩⟩
    · exact absurd (passesTree_behind low.1) blocked

end Places

/-! ## The location that is returned -/

/-- No byte from the location on is in the range `[start, stop)`. -/
def ApartFrom (location size start stop : Nat) : Prop :=
  ∀ x, location ≤ x → x < location + size → ¬ (start ≤ x ∧ x < stop)

/-- A multiple of the alignment in the available range `[a, e)` with room for the bytes, of which
none is in an entry of the reserve map, in the kernel or in the device tree. -/
structure PlacedWell (info : BootInfo) (header : Nat) (entries : List ReserveEntry)
    (a e size align location : Nat) : Prop where
  /-- It is a multiple of the alignment. -/
  aligned : align ∣ location
  /-- It is not before the available range. -/
  above : a ≤ location
  /-- The bytes end in the available range. -/
  within : location + size ≤ e
  /-- No byte is in an entry of the reserve map. -/
  entry : ∀ r ∈ entries, ApartFrom location size r.address (r.address + r.size)
  /-- No byte is in the kernel. -/
  kernel : ApartFrom location size info.physKernelStart info.physKernelEnd
  /-- No byte is in the device tree. -/
  devicetree : ApartFrom location size info.physDevicetreeHeader
    (info.physDevicetreeHeader + totalsize info.mem header)

/-- As many bytes from the location on end before the range `[start, stop)` or begin behind it,
unless one of the two is empty. -/
def Beside (location size start stop : Nat) : Prop :=
  0 < size → start < stop → location + size ≤ start ∨ stop ≤ location

/-- Then no byte is in the range, and only then. -/
theorem apartFrom_iff {start stop : Nat} :
    ApartFrom location size start stop ↔ Beside location size start stop := by
  constructor
  · intro apart some filled
    -- The first byte that both could have.
    have first := apart (max location start)
    omega
  · intro beside x above below inside
    have sides := beside (by omega) (by omega)
    omega

/-- What is open at a place `p` that is clear as to the tests, since it is rounded up to a multiple
of the alignment only behind them: the bytes and those that the rounding skips end in time, the
rounding brings them into nothing that lies ahead, and they begin behind the last bytes of the device
tree; and an entry of the reserve map that is not read is not in the way. -/
structure RoundsWell (info : BootInfo) (header : Nat) (reserved entries : List ReserveEntry)
    (e size align p : Nat) : Prop where
  /-- There is room in the available range for what is skipped as well. -/
  room : p + size + toMultiple p align ≤ e
  /-- An entry that is not read, or that lies ahead, is not in the way. -/
  entry : ∀ r ∈ entries, r ∉ reserved ∨ p + size < r.address →
    Beside (p + toMultiple p align) size r.address (r.address + r.size)
  /-- A kernel that lies ahead is not in the way. -/
  kernel : p + size < info.physKernelStart →
    Beside (p + toMultiple p align) size info.physKernelStart info.physKernelEnd
  /-- A device tree that lies ahead is not in the way. -/
  devicetree : p + size < info.physDevicetreeHeader →
    Beside (p + toMultiple p align) size info.physDevicetreeHeader
      (info.physDevicetreeHeader + totalsize info.mem header)
  /-- Nor are the bytes behind its last whole header. -/
  tail : Beside (p + toMultiple p align) size (info.wholeHeaders header)
    (info.physDevicetreeHeader + totalsize info.mem header)

/-- Bytes behind a range are apart from it. -/
theorem apartFrom_of_le {start stop : Nat} (behind : stop ≤ location) :
    ApartFrom location size start stop := by
  intro x above _ inside
  omega

/-- The lowest place is clear, and not before the start. -/
theorem LowestPlace.clear (lowest : LowestPlace info header reserved a size p) :
    a ≤ p ∧ ClearAt info reserved size p ∧ info.PassesTree header size p := by
  obtain ⟨t, low, ⟨passes, rfl⟩ | ⟨blocked, behind⟩⟩ := lowest
  · exact ⟨low.above, low.clear, passes⟩
  · have before := low.above
    have above := behind.above
    have whole : 0 < sizeofFdtHeader := by decide
    unfold BootInfo.PassesTree at blocked
    exact ⟨by omega, behind.clear, .inr (by omega)⟩

/-- The rounded place is placed well exactly when it is as to what the tests leave open. -/
theorem placedWell_iff_roundsWell (positive : 0 < align)
    (lowest : LowestPlace info header reserved a size p) :
    PlacedWell info header entries a e size align (nextMultiple p align) ↔
      RoundsWell info header reserved entries e size align p := by
  obtain ⟨multiple, above⟩ := nextMultiple_spec positive p
  rw [nextMultiple_eq positive] at multiple above ⊢
  obtain ⟨start, clear, passes⟩ := lowest.clear
  have whole := Nat.div_mul_le_self (totalsize info.mem header) sizeofFdtHeader
  have last : info.wholeHeaders header ≤ info.physDevicetreeHeader + totalsize info.mem header := by
    unfold BootInfo.wholeHeaders
    omega
  have first : info.physDevicetreeHeader ≤ info.wholeHeaders header := Nat.le_add_right _ _
  constructor
  · intro placed
    have within := placed.within
    refine ⟨by omega, fun r listed _ => apartFrom_iff.mp (placed.entry r listed),
      fun _ => apartFrom_iff.mp placed.kernel, fun _ => apartFrom_iff.mp placed.devicetree,
      apartFrom_iff.mp fun x low top inside => ?_⟩
    exact placed.devicetree x low top ⟨Nat.le_trans first inside.1, inside.2⟩
  · intro rounds
    have room := rounds.room
    refine ⟨multiple, Nat.le_trans start above, by omega, fun r listed => ?_, ?_, ?_⟩
    · by_cases read : r ∈ reserved
      · rcases clear.entry r read with before | behind
        · exact apartFrom_iff.mpr (rounds.entry r listed (.inr before))
        · exact apartFrom_of_le (Nat.le_trans (Nat.le_of_lt behind) above)
      · exact apartFrom_iff.mpr (rounds.entry r listed (.inl read))
    · rcases clear.kernel with before | behind
      · exact apartFrom_iff.mpr (rounds.kernel before)
      · exact apartFrom_of_le (Nat.le_trans (Nat.le_of_lt behind) above)
    · rcases passes with before | behind
      · exact apartFrom_iff.mpr (rounds.devicetree before)
      · intro x low top inside
        exact apartFrom_iff.mpr rounds.tail x low top ⟨by omega, inside.2⟩

/-- A location other than `invalid_location` is placed well exactly when the available range is left
on the way to the lowest place that is clear for the tests, or when this place is rounded to
`invalid_location` or rounds well. -/
theorem findSpaceInAreaAligned_placed_iff
    (read : reservedMem info.mem header fuel = .ok reserved)
    (sums : SumsFit info header a e size align reserved)
    (returned : findSpaceInAreaAligned info header e size align invalid fuel a = .ok location) :
    (location ≠ invalid → PlacedWell info header entries a e size align location) ↔
      RunsOut info header reserved a e size ∨
        ∃ p, LowestPlace info header reserved a size p ∧
          (p + toMultiple p align = invalid ∨
            RoundsWell info header reserved entries e size align p) := by
  have positive : 0 < align := by
    by_contra zero
    cases fuel with
    | zero => cases returned
    | succ fuel =>
      unfold findSpaceInAreaAligned at returned
      rw [if_pos (by omega)] at returned
      cases returned
  have same : ∀ found, reservedMem info.mem header fuel = .ok found → found = reserved := by
    intro found again
    exact Except.ok.inj (again.symm.trans read)
  rcases aligned_returned sums positive same sums.first returned with
    ⟨p, rests, rfl⟩ | ⟨rfl, o, quits⟩
  · obtain ⟨lowest, stays⟩ := lowestPlace_of_rests sums positive rests
    rw [placedWell_iff_roundsWell positive lowest, nextMultiple_eq positive]
    constructor
    · intro placed
      by_cases invalidated : p + toMultiple p align = invalid
      · exact .inr ⟨p, lowest, .inl invalidated⟩
      · exact .inr ⟨p, lowest, .inr (placed invalidated)⟩
    · rintro (runsOut | ⟨q, other, either⟩) valid
      · exact absurd runsOut stays
      · obtain rfl := lowest.unique other
        exact either.resolve_left valid
  · exact ⟨fun _ => .inl (runsOut_of_givesUp sums positive quits), fun _ failed => absurd rfl failed⟩

/-- On the board the search from the kernel on rests behind it, and the next word is free. -/
theorem findSpaceInAreaAligned_placed_board :
    findSpaceInAreaAligned (infoOf 0 firmware boardTree) boardHeader 0x8000000 32 4 0x10000 16
        0x10000 = .ok 0x90004 ∧
      PlacedWell (infoOf 0 firmware boardTree) boardHeader firmware 0x10000 0x8000000 32 4
        0x90004 := by
  have returned : findSpaceInAreaAligned (infoOf 0 firmware boardTree) boardHeader 0x8000000 32 4
      0x10000 16 0x10000 = .ok 0x90004 := by decide +kernel
  have read : reservedMem (infoOf 0 firmware boardTree).mem boardHeader 16 = .ok firmware := by
    decide +kernel
  have sums : SumsFit (infoOf 0 firmware boardTree) boardHeader 0x10000 0x8000000 32 4 firmware :=
    ⟨by decide, by decide, by decide, by decide, by decide +kernel⟩
  have clear : ClearAt (infoOf 0 firmware boardTree) firmware 32 0x90001 := by
    refine ⟨fun r listed => ?_, .inr (by decide)⟩
    obtain rfl := List.mem_singleton.mp listed
    exact .inl (by decide)
  have lowest : LowestPlace (infoOf 0 firmware boardTree) boardHeader firmware 0x10000 32
      0x90001 := by
    refine ⟨0x90001, ⟨by decide, clear, fun q above other => ?_⟩, .inl ⟨.inl (by decide), rfl⟩⟩
    have kernel : q + 32 < 0x10000 ∨ 0x90000 < q := other.kernel
    omega
  refine ⟨returned, (findSpaceInAreaAligned_placed_iff read sums returned).mpr
    (.inr ⟨0x90001, lowest, .inr ?_⟩) (by decide)⟩
  refine ⟨by decide, fun r listed _ => ?_, fun before => ?_, fun _ _ _ => ?_, fun _ _ => ?_⟩
  · obtain rfl := List.mem_singleton.mp listed
    exact fun _ _ => .inl (by decide)
  · exact absurd before (by decide)
  · exact .inl (by decide)
  · exact .inl (by decide +kernel)

/-- With an available range of 16 bytes the search returns its start for 32 bytes. -/
theorem findSpaceInAreaAligned_outside :
    findSpaceInAreaAligned (infoOf 0 firmware boardTree) boardHeader 0x1010 32 4 0x10000 16 0x1000 =
        .ok 0x1000 ∧
      ¬ PlacedWell (infoOf 0 firmware boardTree) boardHeader firmware 0x1000 0x1010 32 4 0x1000 :=
  ⟨by decide +kernel, fun placed => absurd placed.within (by decide)⟩

end FelineOS.BootstrapArm
