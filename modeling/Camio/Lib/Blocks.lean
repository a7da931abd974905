/-
  Camio.Lib.Blocks

  The heap as the blocks that are allocated, each an array of objects of one type.

  A block has its size in bytes, and an object of `width` bytes stands at index `i` where
  `(i + 1) * width` bytes fit.  Where a new block lies, and whether `realloc` moves one, is
  up to the C library: a `BlockAllocator` is any choice that hands out addresses that are
  not in use.
-/

import Mathlib.Logic.Function.Basic

namespace Camio.Lib

/-- An allocated block, and what has been stored in it. -/
structure Block (α : Type _) where
  bytes : Nat
  objects : Nat → Option α

/-- The live blocks by their addresses. -/
abbrev Heap (α : Type _) := Nat → Option (Block α)

/-- The addresses that `malloc` and `realloc` return; `none` is `NULL`. -/
structure BlockAllocator (α : Type _) where
  malloc : Heap α → (bytes : Nat) → Option Nat
  malloc_fresh : ∀ {h bytes p}, malloc h bytes = some p → h p = none
  realloc : Heap α → (ptr bytes : Nat) → Option Nat
  /-- the block stays where it is, or moves to an address that is not in use -/
  realloc_fresh : ∀ {h ptr bytes p}, realloc h ptr bytes = some p → p = ptr ∨ h p = none

/-- An allocator for one block, which it never moves. -/
def BlockAllocator.inPlace (α : Type _) : BlockAllocator α where
  malloc h _ := if (h 1).isNone then some 1 else none
  malloc_fresh := by
    intro h bytes p hp
    split at hp
    next hnone =>
      cases hp
      exact Option.isNone_iff_eq_none.mp hnone
    next => cases hp
  realloc _ ptr _ := some ptr
  realloc_fresh := by
    intro h ptr bytes p hp
    exact Or.inl (Option.some.inj hp).symm

namespace Heap

variable {α : Type _} {h h' : Heap α} {width ptr i j : Nat} {v : α}

/-- `malloc` has returned `ptr`. -/
def alloc (h : Heap α) (ptr bytes : Nat) : Heap α :=
  Function.update h ptr (some { bytes := bytes, objects := fun _ => none })

/-- `realloc` of `ptr` has returned `p`: what fits is kept, and `ptr` is no longer in use
    if the block has moved. -/
def resize (h : Heap α) (width ptr p bytes : Nat) : Heap α :=
  Function.update (Function.update h ptr none) p ((h ptr).map fun b =>
    { bytes := bytes
      objects := fun i => if (i + 1) * width ≤ bytes then b.objects i else none })

/-- Store an object in a block; `none` if it is not live or too small. -/
def store (h : Heap α) (width ptr i : Nat) (v : α) : Option (Heap α) :=
  match h ptr with
  | none => none
  | some b =>
      if (i + 1) * width ≤ b.bytes then
        some (Function.update h ptr (some { b with
          objects := Function.update b.objects i (some v) }))
      else none

/-- The object at an index of a block. -/
def load (h : Heap α) (ptr i : Nat) : Option α := (h ptr).bind fun b => b.objects i

theorem alloc_self (h : Heap α) (ptr bytes : Nat) :
    h.alloc ptr bytes ptr = some { bytes := bytes, objects := fun _ => none } :=
  Function.update_self ..

/-- A store goes to a live block of sufficient size. -/
theorem store_eq_some {b : Block α} (hb : h ptr = some b) (hfits : (i + 1) * width ≤ b.bytes) :
    h.store width ptr i v = some (Function.update h ptr (some { b with
      objects := Function.update b.objects i (some v) })) := by
  simp only [store, hb, if_pos hfits]

theorem store_eq_none {b : Block α} (hb : h ptr = some b) (hfits : ¬ (i + 1) * width ≤ b.bytes) :
    h.store width ptr i v = none := by
  simp only [store, hb, if_neg hfits]

/-- A block that has moved is not live at its old address. -/
theorem resize_moved {p bytes : Nat} (hp : p ≠ ptr) : h.resize width ptr p bytes ptr = none := by
  rw [resize, Function.update_of_ne (Ne.symm hp), Function.update_self]

theorem resize_self {b : Block α} {bytes : Nat} (hb : h ptr = some b) :
    ∃ b', h.resize width ptr ptr bytes ptr = some b' ∧ b'.bytes = bytes := by
  rw [resize, Function.update_self, hb]
  exact ⟨_, rfl, rfl⟩

end Heap

end Camio.Lib
