import FelineOS.Kernel.Word
import FelineOS.Library.WordMemory

/-!
# System calls

`syscall_handler` of `kernel/syscall.cpp` with the functions it selects, and `open`, `read`, `write`
and `close` of the libc around `raw_syscall`. Arguments and results lie in structures in the memory
that both sides share. What is logged about a refused call is left out.
-/

namespace FelineOS.Syscall

open Library

/-- A call of one of the functions of the libc. -/
inductive FileCall where
  /-- `open`. -/
  | open (pathname flags : BitVec 32)
  /-- `read`. -/
  | read (fd buf len : BitVec 32)
  /-- `write`. -/
  | write (fd buf len : BitVec 32)
  /-- `close`. -/
  | close (fd : BitVec 32)
  deriving DecidableEq, Repr

namespace FileCall

/-- The `syscall_number`. -/
def number : FileCall → BitVec 32
  | .open .. => 1
  | .read .. => 2
  | .write .. => 3
  | .close _ => 4

/-- The words of the structure with the arguments. -/
def arguments : FileCall → List (BitVec 32)
  | .open pathname flags => [pathname, flags]
  | .read fd buf len => [fd, buf, len]
  | .write fd buf len => [fd, buf, len]
  | .close fd => [fd]

/-- The number of bytes of the structure with the result. -/
def resultSize : FileCall → Nat
  | .open .. | .read .. | .write .. => 8
  | .close _ => 4

end FileCall

/-- `sc_open`. -/
def scOpen (m : Memory) (result : BitVec 32) : Memory :=
  (m.store result 1).store (result + 4#32) (-1)

/-- `sc_read`. -/
def scRead (m : Memory) (result : BitVec 32) : Memory :=
  (m.store result 1).store (result + 4#32) 0

/-- `sc_write`. -/
def scWrite (m : Memory) (result : BitVec 32) : Memory :=
  (m.store result 1).store (result + 4#32) 0

/-- `sc_close`. -/
def scClose (m : Memory) (result : BitVec 32) : Memory := m.store result 1

/-- The function for a `syscall_number`. -/
def realFunc (which : BitVec 32) : Option (Memory → BitVec 32 → Memory) :=
  if which = 1 then some scOpen
  else if which = 2 then some scRead
  else if which = 3 then some scWrite
  else if which = 4 then some scClose
  else none

/-- `syscall_handler`, with the pointers to the arguments and to the result. -/
def syscallHandler (m : Memory) (which args result : BitVec 32) : Except Fault (Bool × Memory) :=
  match realFunc which with
  | none => .ok (false, m)
  | some func =>
    if args = 0 ∧ result = 0 then .ok (true, m)
    else if args = 0 ∨ result = 0 then .error .abort
    else .ok (true, func m result)

/-- `ENOSYS`. -/
def enosys : BitVec 32 := 38

/-- `ENOTSUP`. -/
def enotsup : BitVec 32 := 95

/-- The returned value when the error of the call is `none` or `any`, and `errno` if it is set. -/
def onError (error value : BitVec 32) : BitVec 32 × Option (BitVec 32) :=
  if error = 0 then (value, none) else if error = 1 then (-1, some enotsup) else (-1, none)

/-- What a function of the libc returns behind `raw_syscall`, and `errno` if it is set. -/
def FileCall.finish (call : FileCall) (valid : Bool) (m : Memory) (result : BitVec 32) :
    BitVec 32 × Option (BitVec 32) :=
  let error := m.load result
  let value := m.load (result + 4#32)
  if !valid then (-1, some enosys)
  else
    match call with
    | .open .. => onError error value
    | .read .. => onError error value
    | .write .. => if 0 < value.toNat then (value, none) else onError error value
    | .close _ => onError error 0

end FelineOS.Syscall
