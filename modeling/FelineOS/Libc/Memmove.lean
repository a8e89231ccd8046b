import FelineOS.Kernel.Word
import FelineOS.Library.Transfer

/-!
# Moving bytes

`memmove` of `libc/string/memmove.cpp` on the bytes of a 32-bit address space.
-/

namespace FelineOS.Memmove

open Library

/-- The bytes of the address space. -/
abbrev Bytes : Type := Nat → UInt8

/-- The assignments `dst[i] = src[i]` for the indices of a loop. -/
def assign (dst src : Nat) (order : List Nat) (memory : Bytes) : Bytes :=
  transfer (fun i => wrap (dst + i)) (fun i => wrap (src + i)) order memory

/-- `memmove`: the memory after it and the returned pointer. -/
def memmove (memory : Bytes) (dst src size : Nat) : Bytes × Nat :=
  if dst < src then (assign dst src (List.range size) memory, dst)
  -- `for (size_t i = size; i != 0; i--)` uses the indices `i - 1`
  else (assign dst src (List.range size).reverse memory, dst)

end FelineOS.Memmove
