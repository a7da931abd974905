/-
  Camio.Lib.View

  What one party sees of a run of a whole system: its own events and those of the parties it
  shares something with, on its part of the state.
-/

import Camio.Lib.Run

namespace Camio.Lib

variable {σ ε τ φ : Type _} {step : σ → ε → Option σ} {step' : τ → φ → Option τ} {view : σ → τ}
  {label : ε → Option φ}

/-- A step under a label is a step of the view; any other leaves the view as it is. -/
structure Sees (step : σ → ε → Option σ) (step' : τ → φ → Option τ) (view : σ → τ)
    (label : ε → Option φ) : Prop where
  visible : ∀ {s e f s'}, label e = some f → step s e = some s' →
    step' (view s) f = some (view s')
  hidden : ∀ {s e s'}, label e = none → step s e = some s' → view s' = view s

/-- A run is a run of the view. -/
theorem Sees.run (h : Sees step step' view label) {s s' : σ} {es : List ε}
    (hrun : run step s es = some s') :
    Lib.run step' (view s) (es.filterMap label) = some (view s') := by
  induction es generalizing s with
  | nil =>
      obtain rfl := Option.some.inj hrun
      rfl
  | cons e es ih =>
      obtain ⟨m, hstep, hrest⟩ := run_cons_eq_some.mp hrun
      cases hlabel : label e with
      | none =>
          rw [List.filterMap_cons_none hlabel, ← h.hidden hlabel hstep]
          exact ih hrest
      | some f =>
          rw [List.filterMap_cons_some hlabel]
          exact run_cons_eq_some.mpr ⟨_, h.visible hlabel hstep, ih hrest⟩

/-- What a run meets at its visible steps, the run of the view meets. -/
theorem Sees.along (h : Sees step step' view label) {P : τ → φ → Prop} {s s' : σ} {es : List ε}
    (hP : Along step (fun s e => ∀ f, label e = some f → P (view s) f) s es)
    (hrun : Lib.run step s es = some s') : Along step' P (view s) (es.filterMap label) := by
  induction es generalizing s with
  | nil => trivial
  | cons e es ih =>
      obtain ⟨m, hstep, hrest⟩ := run_cons_eq_some.mp hrun
      have hmore := ih (hP.2 m hstep) hrest
      cases hlabel : label e with
      | none =>
          rw [List.filterMap_cons_none hlabel, ← h.hidden hlabel hstep]
          exact hmore
      | some f =>
          rw [List.filterMap_cons_some hlabel]
          exact .cons (hP.1 f hlabel) (h.visible hlabel hstep) hmore

end Camio.Lib
