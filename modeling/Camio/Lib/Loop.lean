/-
  Camio.Lib.Loop

  A `while` loop as what one turn does: `turn s` is the state behind the turn, and `none`
  where the condition of the loop fails.

  `Turns turn n s t` goes through `n` turns, `EndsAfter turn n s t` to the end of the loop,
  and `loop` computes it for a given number of turns at most.  `ends_within` is the rule for
  a loop whose turns keep an invariant and make a measure smaller.
-/

import Mathlib.Logic.Basic

namespace Camio.Lib

variable {σ : Type _} {turn : σ → Option σ} {s m t : σ} {k n : Nat}

/-- After `n` turns from `s` on, the state is `t`. -/
def Turns (turn : σ → Option σ) : Nat → σ → σ → Prop
  | 0, s, t => s = t
  | n + 1, s, t => ∃ m, turn s = some m ∧ Turns turn n m t

/-- The loop takes `n` turns and ends in `t`. -/
def EndsAfter (turn : σ → Option σ) (n : Nat) (s t : σ) : Prop :=
  Turns turn n s t ∧ turn t = none

/-- The end of the loop, if it takes fewer than `fuel` turns. -/
def loop (turn : σ → Option σ) : (fuel : Nat) → σ → Option σ
  | 0, _ => none
  | fuel + 1, s =>
      match turn s with
      | none => some s
      | some m => loop turn fuel m

theorem EndsAfter.zero (h : turn s = none) : EndsAfter turn 0 s s := ⟨rfl, h⟩

theorem EndsAfter.succ (hturn : turn s = some m) (h : EndsAfter turn n m t) :
    EndsAfter turn (n + 1) s t :=
  ⟨⟨m, hturn, h.1⟩, h.2⟩

/-- A loop ends in one way. -/
theorem EndsAfter.unique {k n : Nat} {u : σ} (h : EndsAfter turn n s t)
    (h' : EndsAfter turn k s u) : n = k ∧ t = u := by
  induction n generalizing k s with
  | zero =>
      obtain ⟨rfl, hend⟩ := h
      cases k with
      | zero => exact ⟨rfl, h'.1⟩
      | succ k =>
          -- one loop is over where the other one takes a turn
          obtain ⟨⟨m, hturn, -⟩, -⟩ := h'
          rw [hend] at hturn
          cases hturn
  | succ n ih =>
      obtain ⟨⟨m, hturn, hrest⟩, hend⟩ := h
      cases k with
      | zero =>
          obtain ⟨rfl, hend'⟩ := h'
          rw [hend'] at hturn
          cases hturn
      | succ k =>
          obtain ⟨⟨m', hturn', hrest'⟩, hend'⟩ := h'
          obtain rfl := Option.some.inj (hturn.symm.trans hturn')
          obtain ⟨rfl, rfl⟩ := ih ⟨hrest, hend⟩ ⟨hrest', hend'⟩
          exact ⟨rfl, rfl⟩

/-- `loop` computes where a loop ends. -/
theorem loop_of_endsAfter {fuel : Nat} (h : EndsAfter turn n s t) (hfuel : n < fuel) :
    loop turn fuel s = some t := by
  induction n generalizing s fuel with
  | zero =>
      obtain ⟨fuel, rfl⟩ := Nat.exists_eq_add_of_le' hfuel
      obtain ⟨rfl, hend⟩ := h
      rw [loop, hend]
  | succ n ih =>
      obtain ⟨fuel, rfl⟩ := Nat.exists_eq_add_of_le' (Nat.lt_of_le_of_lt (Nat.zero_le _) hfuel)
      obtain ⟨⟨m, hturn, hrest⟩, hend⟩ := h
      rw [loop, hturn]
      exact ih ⟨hrest, hend⟩ (Nat.lt_of_succ_lt_succ hfuel)

theorem endsAfter_of_loop {fuel : Nat} (h : loop turn fuel s = some t) :
    ∃ n, n < fuel ∧ EndsAfter turn n s t := by
  induction fuel generalizing s with
  | zero => cases h
  | succ fuel ih =>
      rw [loop] at h
      cases hturn : turn s with
      | none =>
          rw [hturn] at h
          obtain rfl := Option.some.inj h
          exact ⟨0, Nat.succ_pos fuel, .zero hturn⟩
      | some m =>
          rw [hturn] at h
          obtain ⟨n, hn, hend⟩ := ih h
          exact ⟨n + 1, Nat.succ_lt_succ hn, hend.succ hturn⟩

/-! ## Invariants -/

/-- What every turn keeps holds after any number of turns. -/
theorem Turns.invariant (Inv : σ → Prop) (hturn : ∀ s t, Inv s → turn s = some t → Inv t)
    (hs : Inv s) (h : Turns turn n s t) : Inv t := by
  induction n generalizing s with
  | zero => exact h ▸ hs
  | succ n ih =>
      obtain ⟨m, hm, hrest⟩ := h
      exact ih (hturn s m hs hm) hrest

/-- A loop whose turns keep an invariant and make `μ` smaller takes `μ s` turns at most. -/
theorem ends_within (Inv : σ → Prop) (μ : σ → Nat)
    (hturn : ∀ s t, Inv s → turn s = some t → Inv t ∧ μ t < μ s) (hs : Inv s) :
    ∃ n t, n ≤ μ s ∧ EndsAfter turn n s t ∧ Inv t := by
  -- the turns that are left start from a smaller measure
  induction hμ : μ s using Nat.strongRecOn generalizing s with
  | ind k ih =>
      subst hμ
      cases h : turn s with
      | none => exact ⟨0, s, Nat.zero_le _, .zero h, hs⟩
      | some m =>
          obtain ⟨hm, hlt⟩ := hturn s m hs h
          obtain ⟨n, t, hn, hend, ht⟩ := ih (μ m) hlt hm rfl
          exact ⟨n + 1, t, Nat.lt_of_le_of_lt hn hlt, hend.succ h, ht⟩

end Camio.Lib
