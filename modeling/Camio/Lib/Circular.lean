/-
  Camio.Lib.Circular

  Positions in a circular array of `n` slots.  `steps n a b` is how far `b` lies behind
  `a`, and the window from `head` to `tail` holds the slots that lie behind `head` and
  before `tail`.
-/

import Mathlib.Tactic.SplitIfs

namespace Camio.Lib

/-- The slot behind slot `i`. -/
def nextSlot (n i : Nat) : Nat := if i + 1 = n then 0 else i + 1

/-- How many steps lead from slot `a` to slot `b`. -/
def steps (n a b : Nat) : Nat := if a ≤ b then b - a else b + n - a

/-- Slot `x` is in the window from `head` to `tail`. -/
def InWindow (n head tail x : Nat) : Prop := steps n head x < steps n head tail

instance (n head tail x : Nat) : Decidable (InWindow n head tail x) :=
  inferInstanceAs (Decidable (_ < _))

variable {n a b c : Nat}

theorem nextSlot_lt (ha : a < n) : nextSlot n a < n := by
  rw [nextSlot]
  split <;> omega

@[simp] theorem steps_self (n a : Nat) : steps n a a = 0 := by
  rw [steps, if_pos (Nat.le_refl a), Nat.sub_self]

theorem steps_eq_zero_iff (ha : a < n) : steps n a b = 0 ↔ a = b := by
  rw [steps]
  split <;> omega

/-! ## Windows -/

variable {head cur tail tail' x : Nat}

/-- The slot at the head of a window is in it unless the window is empty. -/
theorem inWindow_head (hh : head < n) (hne : head ≠ tail) : InWindow n head tail head := by
  have hpos := mt (steps_eq_zero_iff (b := tail) hh).mp hne
  rw [InWindow, steps_self]
  omega

/-- A window loses the slot that its head moves over, and gains none. -/
theorem inWindow_nextSlot (hh : head < n) (ht : tail < n) (hx : x < n) (hne : head ≠ tail)
    (h : InWindow n (nextSlot n head) tail x) : x ≠ head ∧ InWindow n head tail x := by
  simp only [InWindow, steps, nextSlot] at h ⊢
  split_ifs at h ⊢ <;> omega

/-- A window from a slot on that lies in another, or at its tail, is a part of it. -/
theorem inWindow_of_later (hh : head < n) (hc : cur < n) (ht : tail < n)
    (hle : steps n head cur ≤ steps n head tail) (hx : x < n) (h : InWindow n cur tail x) :
    InWindow n head tail x := by
  simp only [InWindow, steps] at h hle ⊢
  split_ifs at h hle ⊢ <;> omega

/-- What a window gains when its tail moves on lies between the two tails. -/
theorem inWindow_of_grown (hh : head < n) (ht : tail < n) (hx : x < n)
    (h : InWindow n head tail' x) : InWindow n head tail x ∨ InWindow n tail tail' x := by
  simp only [InWindow, steps] at h ⊢
  split_ifs at h ⊢ <;> omega

end Camio.Lib
