/-
  Camio.Lib.Heap

  `size_t` subtraction, and `realloc` as a parameter.

  Where a block goes when it grows, and what the new part of it holds, is up to
  the C library.  An `Allocator` is any choice that keeps the old content and
  refuses blocks beyond `PTRDIFF_MAX`, so a result about every `Allocator` holds
  whichever way the library behaves.
-/

import Camio.Lib.ByteMem

namespace Camio.Lib

/-- `a - b` in `size_t`. -/
-- the modulus stands in front: a sum that ends in it would unfold to 2^64 successors
def sizeSub (a b : Nat) : Nat := (2 ^ 64 + a - b % 2 ^ 64) % 2 ^ 64

theorem sizeSub_of_le {a b : Nat} (h : b ≤ a) (ha : a - b < 2 ^ 64) : sizeSub a b = a - b := by
  rw [sizeSub]
  omega

/-- A `realloc`: the new address and the memory, or `NULL`. -/
structure Allocator where
  realloc : Mem → (ptr size newSize : Nat) → Option (Nat × Mem)
  /-- the old content moves to the new block -/
  realloc_read : ∀ {m m' ptr size newSize p}, size ≤ newSize →
    realloc m ptr size newSize = some (p, m') → m'.read p size = m.read ptr size
  /-- no block is larger than `PTRDIFF_MAX` -/
  realloc_lt : ∀ {m m' ptr size newSize p},
    realloc m ptr size newSize = some (p, m') → newSize < 2 ^ 63

/-- The allocator that can always extend a block where it stands. -/
def Allocator.inPlace : Allocator where
  realloc m ptr _ newSize := if newSize < 2 ^ 63 then some (ptr, m) else none
  realloc_read := by
    intro m m' ptr size newSize p _ h
    split at h
    next => cases h; rfl
    next => cases h
  realloc_lt := by
    intro m m' ptr size newSize p h
    split at h
    next hlt => exact hlt
    next => cases h

end Camio.Lib
