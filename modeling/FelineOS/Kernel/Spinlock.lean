import Mathlib.Tactic.Common

/-!
# The spinlock

`libFeline/src/locking/spinlock.cpp`, one atomic step at a time. A client is a CPU that calls
the member functions; its program counter names the next step of the call it is in, with the
value of the local variable `flags`. `test_and_set` sets the flag and returns its previous
value, as the C++ standard says, and each access to `lock` and `stored_flags` is one step.
-/

namespace FelineOS.Spinlock

/-- The two members of `class Spinlock`. -/
structure Lock where
  /-- The `std::atomic_flag`. -/
  flag : Bool
  /-- `stored_flags`. -/
  storedFlags : UInt32
  deriving DecidableEq, Repr

/-- `std::atomic_flag::test_and_set`. -/
def Lock.testAndSet (lock : Lock) : Bool × Lock := (lock.flag, { lock with flag := true })

/-- `disable_interrupts` and `restore_interrupts` of one architecture, on the processor's
status word. -/
structure Interrupts where
  /-- What `disable_interrupts` returns, and the status word it leaves. -/
  disable : UInt32 → UInt32 × UInt32
  /-- The status word that `restore_interrupts` leaves, from its argument and the old one. -/
  restore : UInt32 → UInt32 → UInt32

/-- `pushf; cli; pop` and `push; popf`. -/
def Interrupts.i386 : Interrupts where
  disable status := (status, status &&& ~~~0x200)
  restore flags _ := flags

/-- `mrs; cpsid if; and` and `msr`. -/
def Interrupts.arm : Interrupts where
  disable status := (status &&& 0xC0, status ||| 0xC0)
  restore flags _ := flags

/-- Where a client is. -/
inductive Pc where
  /-- In no call, without the lock. -/
  | outside
  /-- `acquire_lock`, before `disable_interrupts`. -/
  | acquire
  /-- Before the `test_and_set` of the loop. -/
  | spin (flags : UInt32)
  /-- The loop is left, `stored_flags` is not assigned yet. -/
  | save (flags : UInt32)
  /-- `try_acquire_lock`, before `disable_interrupts`. -/
  | tryAcquire
  /-- Before its `test_and_set`. -/
  | tryTest (flags : UInt32)
  /-- The result is true, `stored_flags` is not assigned yet. -/
  | trySave (flags : UInt32)
  /-- The result is false, the interrupts are not restored yet. -/
  | tryRestore (flags : UInt32)
  /-- After `acquire_lock`, or after `try_acquire_lock` with the result true. -/
  | inside
  /-- `release_lock`, before `stored_flags` is read. -/
  | release
  /-- Before the flag is cleared. -/
  | clear (flags : UInt32)
  /-- Before `restore_interrupts`. -/
  | restore (flags : UInt32)
  deriving DecidableEq, Repr

/-- The next step of the call a client is in: where it is then, the lock and its status
word. -/
def Pc.advance (arch : Interrupts) (lock : Lock) (status : UInt32) : Pc → Pc × Lock × UInt32
  | .outside => (.outside, lock, status)
  | .acquire =>
    let (flags, status) := arch.disable status
    (.spin flags, lock, status)
  | .spin flags =>
    let (result, lock) := lock.testAndSet
    (if !result then .spin flags else .save flags, lock, status)
  | .save flags => (.inside, { lock with storedFlags := flags }, status)
  | .tryAcquire =>
    let (flags, status) := arch.disable status
    (.tryTest flags, lock, status)
  | .tryTest flags =>
    let (result, lock) := lock.testAndSet
    (if result then .trySave flags else .tryRestore flags, lock, status)
  | .trySave flags => (.inside, { lock with storedFlags := flags }, status)
  | .tryRestore flags => (.outside, lock, arch.restore flags status)
  | .inside => (.inside, lock, status)
  | .release => (.clear lock.storedFlags, lock, status)
  | .clear flags => (.restore flags, { lock with flag := false }, status)
  | .restore flags => (.outside, lock, arch.restore flags status)

/-- One lock and the clients that share it. -/
structure World (ι : Type) where
  /-- The lock. -/
  lock : Lock
  /-- Where each client is. -/
  pc : ι → Pc
  /-- The status word of each client. -/
  status : ι → UInt32

/-- What can happen next. -/
inductive Event (ι : Type) where
  /-- A client calls `acquire_lock`. -/
  | acquireLock (c : ι)
  /-- A client calls `try_acquire_lock`. -/
  | tryAcquireLock (c : ι)
  /-- A client that got the lock calls `release_lock`. -/
  | releaseLock (c : ι)
  /-- A client does the next step of its call. -/
  | advance (c : ι)
  deriving DecidableEq, Repr

variable {ι : Type} [DecidableEq ι]

/-- Move one client to another place. -/
def World.goto (w : World ι) (c : ι) (pc : Pc) : World ι :=
  { w with pc := Function.update w.pc c pc }

/-- The world after an event, where the event is possible. -/
def World.fire (arch : Interrupts) (w : World ι) : Event ι → Option (World ι)
  | .acquireLock c => if w.pc c = .outside then some (w.goto c .acquire) else none
  | .tryAcquireLock c => if w.pc c = .outside then some (w.goto c .tryAcquire) else none
  | .releaseLock c => if w.pc c = .inside then some (w.goto c .release) else none
  | .advance c =>
    let (pc, lock, status) := (w.pc c).advance arch w.lock (w.status c)
    some { lock, pc := Function.update w.pc c pc, status := Function.update w.status c status }

/-- The world after some events, up to the first that is not possible. -/
def World.fireAll (arch : Interrupts) (w : World ι) : List (Event ι) → Option (World ι)
  | [] => some w
  | e :: es => (w.fire arch e).bind fun w => w.fireAll arch es

end FelineOS.Spinlock
