/-
  Camio.Lib.Window

  A window of a circular array as a queue: its slots in their order, and what is stored in
  them.  Storing in the slot at the tail and moving the tail on appends to the queue, and
  moving the head on takes its first entry off.
-/

import Mathlib.Logic.Function.Basic
import Camio.Lib.Circular

namespace Camio.Lib

/-- `k` slots, from slot `a` on. -/
def slotsFrom (n a : Nat) : Nat → List Nat
  | 0 => []
  | k + 1 => a :: slotsFrom n (nextSlot n a) k

/-- The slots of the window from `head` to `tail`, in their order. -/
def window (n head tail : Nat) : List Nat := slotsFrom n head (steps n head tail)

section Slots

variable {n head tail x : Nat}

theorem steps_lt (hh : head < n) (ht : tail < n) : steps n head tail < n := by
  rw [steps]
  split <;> omega

/-- One step fewer leads from the next slot. -/
theorem steps_nextSlot (hh : head < n) (ht : tail < n) (hne : head ≠ tail) :
    steps n head tail = steps n (nextSlot n head) tail + 1 := by
  simp only [steps, nextSlot]
  split_ifs <;> omega

/-- One step more leads to the slot behind the tail. -/
theorem steps_push (hh : head < n) (hroom : nextSlot n tail ≠ head) :
    steps n head (nextSlot n tail) = steps n head tail + 1 := by
  simp only [steps, nextSlot] at hroom ⊢
  split_ifs at hroom ⊢ <;> omega

@[simp] theorem window_self (n a : Nat) : window n a a = [] := by simp [window, slotsFrom]

/-- A window begins with its head. -/
theorem window_pop (hh : head < n) (ht : tail < n) (hne : head ≠ tail) :
    window n head tail = head :: window n (nextSlot n head) tail := by
  rw [window, steps_nextSlot hh ht hne, slotsFrom, window]

/-- The slot that many steps away comes next. -/
theorem slotsFrom_succ {k : Nat} (hh : head < n) (ht : tail < n) (hk : steps n head tail = k) :
    slotsFrom n head (k + 1) = slotsFrom n head k ++ [tail] := by
  induction k generalizing head with
  | zero =>
      obtain rfl := (steps_eq_zero_iff hh).mp hk
      simp [slotsFrom]
  | succ k ih =>
      have hne : head ≠ tail := by
        rintro rfl
        simp at hk
      have hnext := steps_nextSlot hh ht hne
      have hrest := ih (nextSlot_lt hh) (by omega)
      rw [slotsFrom, hrest, slotsFrom, List.cons_append]

/-- Moving the tail on appends the slot that was there. -/
theorem window_push (hh : head < n) (ht : tail < n) (hroom : nextSlot n tail ≠ head) :
    window n head (nextSlot n tail) = window n head tail ++ [tail] := by
  rw [window, steps_push hh hroom, slotsFrom_succ hh ht rfl, window]

theorem mem_window_iff (hh : head < n) (ht : tail < n) :
    x ∈ window n head tail ↔ x < n ∧ InWindow n head tail x := by
  generalize hk : steps n head tail = k
  induction k generalizing head with
  | zero =>
      obtain rfl := (steps_eq_zero_iff hh).mp hk
      simp [InWindow]
  | succ k ih =>
      have hne : head ≠ tail := by
        rintro rfl
        simp at hk
      have hnext := steps_nextSlot hh ht hne
      rw [window_pop hh ht hne, List.mem_cons, ih (nextSlot_lt hh) (by omega)]
      constructor
      · rintro (rfl | ⟨hx, hin⟩)
        · exact ⟨hh, inWindow_head hh hne⟩
        · exact ⟨hx, (inWindow_nextSlot hh ht hx hne hin).2⟩
      · rintro ⟨hx, hin⟩
        by_cases hhead : x = head
        · exact Or.inl hhead
        · have hlater := steps_nextSlot hh hx (Ne.symm hhead)
          rw [InWindow] at hin ⊢
          exact Or.inr ⟨hx, by omega⟩

/-- What a window gains when its tail moves on is the slot that was there. -/
theorem inWindow_push (hh : head < n) (ht : tail < n) (hx : x < n)
    (hroom : nextSlot n tail ≠ head) (h : InWindow n head (nextSlot n tail) x) :
    x = tail ∨ InWindow n head tail x := by
  have hmem := (mem_window_iff hh (nextSlot_lt ht)).mpr ⟨hx, h⟩
  rw [window_push hh ht hroom, List.mem_append, List.mem_singleton] at hmem
  rcases hmem with hmem | rfl
  · exact Or.inr ((mem_window_iff hh ht).mp hmem).2
  · exact Or.inl rfl

end Slots

section Contents

variable {α : Type _} {f g : Nat → α} {n head tail : Nat} {x : α}

/-- Only what is stored in its slots matters to a window. -/
theorem window_map_congr (hh : head < n) (ht : tail < n)
    (h : ∀ c < n, InWindow n head tail c → g c = f c) :
    (window n head tail).map g = (window n head tail).map f := by
  refine List.map_congr_left fun c hc => ?_
  obtain ⟨hlt, hin⟩ := (mem_window_iff hh ht).mp hc
  exact h c hlt hin

/-- What is stored at the tail is appended when the tail moves on. -/
theorem window_map_push (hh : head < n) (ht : tail < n) (hroom : nextSlot n tail ≠ head)
    (hx : g tail = x) (h : ∀ c < n, InWindow n head tail c → g c = f c) :
    (window n head (nextSlot n tail)).map g = (window n head tail).map f ++ [x] := by
  rw [window_push hh ht hroom, List.map_append, window_map_congr hh ht h, List.map_singleton, hx]

/-- What is stored at the head comes first. -/
theorem window_map_pop (hh : head < n) (ht : tail < n) (hne : head ≠ tail) :
    (window n head tail).map f = f head :: (window n (nextSlot n head) tail).map f := by
  rw [window_pop hh ht hne, List.map_cons]

end Contents

end Camio.Lib
