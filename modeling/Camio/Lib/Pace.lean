/-
  Camio.Lib.Pace

  A counter of a run that some events raise by one and others set back to zero, and a limit
  that only the latter change.

  Whether the counter stays within its limit is a matter of the events: it does exactly if
  no stretch of the run without a reset has more raising events than the limit
  (`Counts.le_limit_iff_paced`).
-/

import Mathlib.Data.List.Induction
import Camio.Lib.Run

namespace Camio.Lib

variable {σ ε : Type _} {step : σ → ε → Option σ} {Inv : σ → Prop} {counter : σ → Nat}
  {limit : σ → Option Nat} {raises : ε → Bool} {resets : σ → ε → Prop}

/-- No stretch of the run without a reset has more raising events than its limit. -/
def Paced (step : σ → ε → Option σ) (limit : σ → Option Nat) (raises : ε → Bool)
    (resets : σ → ε → Prop) (s : σ) (es : List ε) : Prop :=
  ∀ before stretch after m n, es = before ++ stretch ++ after → run step s before = some m →
    limit m = some n → Along step (fun s e => ¬ resets s e) m stretch →
      stretch.countP raises ≤ n

/-- The steps count: one that resets leaves the counter at zero, any other one raises it by
    one or leaves it, and does not change the limit. -/
structure Counts (step : σ → ε → Option σ) (Inv : σ → Prop) (counter : σ → Nat)
    (limit : σ → Option Nat) (raises : ε → Bool) (resets : σ → ε → Prop) : Prop where
  keeps : ∀ {s e s'}, Inv s → step s e = some s' → Inv s'
  reset : ∀ {s e s'}, Inv s → step s e = some s' → resets s e → counter s' = 0
  other : ∀ {s e s'}, Inv s → step s e = some s' → ¬ resets s e →
    counter s' = counter s + (if raises e then 1 else 0) ∧ limit s' = limit s

/-- A stretch without a reset raises the counter by its raising events. -/
theorem Counts.stretch (h : Counts step Inv counter limit raises resets) {s t : σ}
    {es : List ε} (hs : Inv s) (halong : Along step (fun s e => ¬ resets s e) s es)
    (hrun : run step s es = some t) :
    counter t = counter s + es.countP raises ∧ limit t = limit s := by
  induction es generalizing s with
  | nil =>
      rw [run_nil, Option.some.injEq] at hrun
      simp [hrun]
  | cons e es ih =>
      obtain ⟨m, hm, hrest⟩ := run_cons_eq_some.mp hrun
      obtain ⟨hcounter, hlimit⟩ := h.other hs hm halong.1
      obtain ⟨hcounter', hlimit'⟩ := ih (h.keeps hs hm) (halong.2 m hm) hrest
      refine ⟨?_, hlimit'.trans hlimit⟩
      rw [hcounter', hcounter, List.countP_cons]
      omega

/-- What a run has counted it has counted since its last reset. -/
theorem Counts.exists_stretch (h : Counts step Inv counter limit raises resets) {s t : σ}
    {es : List ε} (hs : Inv s) (hzero : counter s = 0) (hrun : run step s es = some t) :
    ∃ before stretch m, es = before ++ stretch ∧ run step s before = some m ∧ Inv m ∧
      counter m = 0 ∧ Along step (fun s e => ¬ resets s e) m stretch ∧
      run step m stretch = some t := by
  induction es using List.reverseRecOn generalizing t with
  | nil => exact ⟨[], [], s, by simp, run_nil s, hs, hzero, trivial, hrun⟩
  | append_singleton es e ih =>
      rw [run_append] at hrun
      obtain ⟨u, hu, hlast⟩ := Option.bind_eq_some_iff.mp hrun
      obtain ⟨t', hstep, ht⟩ := run_cons_eq_some.mp hlast
      obtain rfl := Option.some.inj ht
      have hinv : Inv u := run_invariant Inv (fun _ _ _ hi => h.keeps hi) hs hu
      by_cases hreset : resets u e
      · -- the last event starts a stretch of its own
        refine ⟨es ++ [e], [], t', by simp, run_trans hu hlast, h.keeps hinv hstep, ?_, trivial,
          run_nil t'⟩
        exact h.reset hinv hstep hreset
      · obtain ⟨before, stretch, m, rfl, hm, hm', hcounter, halong, hrest⟩ := ih hu
        refine ⟨before, stretch ++ [e], m, by simp, hm, hm', hcounter, ?_,
          run_trans hrest hlast⟩
        exact halong.append hrest ⟨hreset, fun _ _ => trivial⟩

/-- The counter stays within its limit all along a run exactly if the run is paced. -/
theorem Counts.le_limit_iff_paced (h : Counts step Inv counter limit raises resets) {s t : σ}
    {es : List ε} (hs : Inv s) (hzero : counter s = 0) (hrun : run step s es = some t) :
    (∀ k m n, run step s (es.take k) = some m → limit m = some n → counter m ≤ n) ↔
      Paced step limit raises resets s es := by
  constructor
  · intro hle before stretch after m n hes hm hn halong
    have hinv : Inv m := run_invariant Inv (fun _ _ _ hi => h.keeps hi) hs hm
    -- the state at the end of the stretch
    have hrest := hrun
    rw [hes, run_append] at hrest
    obtain ⟨u, hu, -⟩ := Option.bind_eq_some_iff.mp hrest
    have hu' := hu
    rw [run_append, hm, Option.bind_some] at hu'
    obtain ⟨hcounter, hlimit⟩ := h.stretch hinv halong hu'
    have hbound := hle (before ++ stretch).length u n (by rw [hes, List.take_left]; exact hu)
      (hlimit.trans hn)
    omega
  · intro hpaced k m n hm hn
    obtain ⟨before, stretch, m₀, htake, hm₀, hinv, hcounter₀, halong, hrest⟩ :=
      h.exists_stretch hs hzero hm
    obtain ⟨hcounter, hlimit⟩ := h.stretch hinv halong hrest
    have hes : es = before ++ stretch ++ es.drop k := by
      rw [← htake, List.take_append_drop]
    have hbound := hpaced before stretch (es.drop k) m₀ n hes hm₀ (hlimit.symm.trans hn) halong
    omega

end Camio.Lib
