/-
  Camio.Lib.Run

  Finite runs of a partial, labelled step function `step : σ → ε → Option σ`:
  a state takes an event or refuses it.  Every stream and selector of this
  development is such a step function; the interleavings of two parties are
  the event lists of one step function over their joint state.

  `Along P` restricts a run to steps that meet a condition on the state before
  the step, which is how the results "in every run whose steps all meet `P`"
  are stated.
-/

import Mathlib.Data.List.Basic

namespace Camio.Lib

variable {σ ε : Type _} {step : σ → ε → Option σ}

/-- Take the events one after the other; `none` as soon as one is refused. -/
def run (step : σ → ε → Option σ) : σ → List ε → Option σ
  | s, [] => some s
  | s, e :: es => (step s e).bind fun s' => run step s' es

/-- `P` holds of every step of the run, on the state the step is taken in. -/
def Along (step : σ → ε → Option σ) (P : σ → ε → Prop) : σ → List ε → Prop
  | _, [] => True
  | s, e :: es => P s e ∧ ∀ s', step s e = some s' → Along step P s' es

@[simp] theorem run_nil (s : σ) : run step s [] = some s := rfl

theorem run_cons (s : σ) (e : ε) (es : List ε) :
    run step s (e :: es) = (step s e).bind fun s' => run step s' es := rfl

theorem run_cons_eq_some {s t : σ} {e : ε} {es : List ε} :
    run step s (e :: es) = some t ↔
      ∃ m, step s e = some m ∧ run step m es = some t := by
  rw [run_cons, Option.bind_eq_some_iff]

theorem run_append (s : σ) (es fs : List ε) :
    run step s (es ++ fs) = (run step s es).bind fun m => run step m fs := by
  induction es generalizing s with
  | nil => rfl
  | cons e es ih =>
      simp only [List.cons_append, run_cons]
      cases step s e with
      | none => rfl
      | some m => exact ih m

/-- Runs compose. -/
theorem run_trans {s m t : σ} {es fs : List ε}
    (h1 : run step s es = some m) (h2 : run step m fs = some t) :
    run step s (es ++ fs) = some t := by
  rw [run_append, h1]
  exact h2

/-! ## Invariants of runs -/

/-- What every step that meets `P` preserves holds at the end of every run whose
    steps meet `P`. -/
theorem run_invariant_along (Inv : σ → Prop) {P : σ → ε → Prop}
    (hstep : ∀ s e s', Inv s → P s e → step s e = some s' → Inv s')
    {s t : σ} {es : List ε} (hs : Inv s) (hP : Along step P s es)
    (hrun : run step s es = some t) : Inv t := by
  induction es generalizing s with
  | nil =>
      rw [run_nil, Option.some.injEq] at hrun
      exact hrun ▸ hs
  | cons e es ih =>
      obtain ⟨m, hm, hrest⟩ := run_cons_eq_some.mp hrun
      exact ih (hstep s e m hs hP.1 hm) (hP.2 m hm) hrest

/-- A condition that the listed events meet in every state holds along the run. -/
theorem along_of_forall {P : σ → ε → Prop} {s : σ} {es : List ε} (h : ∀ s, ∀ e ∈ es, P s e) :
    Along step P s es := by
  induction es generalizing s with
  | nil => trivial
  | cons e es ih =>
      exact ⟨h s e List.mem_cons_self,
        fun s' _ => ih fun s e he => h s e (List.mem_cons_of_mem _ he)⟩

/-- What every step preserves holds at the end of every run. -/
theorem run_invariant (Inv : σ → Prop)
    (hstep : ∀ s e s', Inv s → step s e = some s' → Inv s')
    {s t : σ} {es : List ε} (hs : Inv s) (hrun : run step s es = some t) : Inv t := by
  have halong : Along step (fun _ _ => True) s es := along_of_forall fun _ _ _ => trivial
  exact run_invariant_along Inv (fun s e s' h _ => hstep s e s' h) hs halong hrun

/-- A condition on steps may be weakened along a run. -/
theorem Along.mono {P Q : σ → ε → Prop} (h : ∀ s e, P s e → Q s e) {s : σ} {es : List ε}
    (hP : Along step P s es) : Along step Q s es := by
  induction es generalizing s with
  | nil => trivial
  | cons e es ih => exact ⟨h s e hP.1, fun s' hs' => ih (hP.2 s' hs')⟩

theorem Along.and {P Q : σ → ε → Prop} {s : σ} {es : List ε} (hP : Along step P s es)
    (hQ : Along step Q s es) : Along step (fun s e => P s e ∧ Q s e) s es := by
  induction es generalizing s with
  | nil => trivial
  | cons e es ih => exact ⟨⟨hP.1, hQ.1⟩, fun s' hs' => ih (hP.2 s' hs') (hQ.2 s' hs')⟩

/-- What the invariant of a run and the condition on its steps say of a step holds along the
    run. -/
theorem Along.of_invariant {P Q : σ → ε → Prop} {s : σ} {es : List ε} (hP : Along step P s es)
    (Inv : σ → Prop) (hstep : ∀ s e s', Inv s → P s e → step s e = some s' → Inv s')
    (h : ∀ s e, Inv s → P s e → Q s e) (hs : Inv s) : Along step Q s es := by
  induction es generalizing s with
  | nil => trivial
  | cons e es ih =>
      exact ⟨h s e hs hP.1, fun s' hs' => ih (hP.2 s' hs') (hstep s e s' hs hP.1 hs')⟩

/-- A run goes through its first step's state. -/
theorem Along.cons {P : σ → ε → Prop} {s s' : σ} {e : ε} {es : List ε} (hP : P s e)
    (hstep : step s e = some s') (h : Along step P s' es) : Along step P s (e :: es) := by
  refine ⟨hP, fun t ht => ?_⟩
  obtain rfl := Option.some.inj (hstep.symm.trans ht)
  exact h

/-- A condition along two runs that compose holds along the whole. -/
theorem Along.append {P : σ → ε → Prop} {s m : σ} {es fs : List ε} (hes : Along step P s es)
    (hrun : run step s es = some m) (hfs : Along step P m fs) :
    Along step P s (es ++ fs) := by
  induction es generalizing s with
  | nil =>
      rw [run_nil, Option.some.injEq] at hrun
      exact hrun ▸ hfs
  | cons e es ih =>
      obtain ⟨m', hm', hrest⟩ := run_cons_eq_some.mp hrun
      refine ⟨hes.1, fun s' hs' => ?_⟩
      obtain rfl := Option.some.inj (hm'.symm.trans hs')
      exact ih (hes.2 m' hm') hrest

/-- Where a step keeps an invariant if it meets `P` and loses `Good` if it does not,
    `Good` holds all along a run exactly if its steps meet `P`. -/
theorem forall_prefix_iff_along (Inv : σ → Prop) {Good : σ → Prop} {P : σ → ε → Prop}
    (hgood : ∀ s, Inv s → Good s)
    (hkeep : ∀ s e s', Inv s → P s e → step s e = some s' → Inv s')
    (hlose : ∀ s e s', Inv s → ¬ P s e → step s e = some s' → ¬ Good s')
    {s t : σ} {es : List ε} (hs : Inv s) (hrun : run step s es = some t) :
    (∀ k m, run step s (es.take k) = some m → Good m) ↔ Along step P s es := by
  induction es generalizing s with
  | nil =>
      refine iff_of_true (fun k m hm => ?_) trivial
      rw [List.take_nil, run_nil, Option.some.injEq] at hm
      exact hm ▸ hgood s hs
  | cons e es ih =>
      obtain ⟨m, hm, hrest⟩ := run_cons_eq_some.mp hrun
      by_cases hP : P s e
      · have hm' := hkeep s e m hs hP hm
        constructor
        · refine fun h => ⟨hP, fun s' hs' => ?_⟩
          obtain rfl := Option.some.inj (hm.symm.trans hs')
          exact (ih hm' hrest).mp fun k n hn => h (k + 1) n (run_cons_eq_some.mpr ⟨m, hm, hn⟩)
        · intro h k n hn
          cases k with
          | zero =>
              rw [List.take_zero, run_nil, Option.some.injEq] at hn
              exact hn ▸ hgood s hs
          | succ k =>
              obtain ⟨m', hm'', hn'⟩ := run_cons_eq_some.mp hn
              obtain rfl := Option.some.inj (hm.symm.trans hm'')
              exact (ih hm' hrest).mpr (h.2 m hm) k n hn'
      · -- the state after this step is the one that is lost
        refine iff_of_false (fun h => hlose s e m hs hP hm (h 1 m ?_)) (fun h => hP h.1)
        rw [List.take_succ_cons, List.take_zero]
        exact run_cons_eq_some.mpr ⟨m, hm, rfl⟩

/-- Where a step that does not meet `P` leaves a mark that no later step removes, a run
    that ends without it has met `P` all along. -/
theorem along_of_unmarked (Inv Marked : σ → Prop) {P : σ → ε → Prop}
    (hkeep : ∀ s e s', Inv s → P s e → step s e = some s' → Inv s')
    (hmark : ∀ s e s', Inv s → ¬ P s e → step s e = some s' → Marked s')
    (hstay : ∀ s e s', Marked s → step s e = some s' → Marked s')
    {s t : σ} {es : List ε} (hs : Inv s) (hrun : run step s es = some t) (ht : ¬ Marked t) :
    Along step P s es := by
  induction es generalizing s with
  | nil => trivial
  | cons e es ih =>
      obtain ⟨m, hm, hrest⟩ := run_cons_eq_some.mp hrun
      by_cases hP : P s e
      · refine ⟨hP, fun s' hs' => ?_⟩
        obtain rfl := Option.some.inj (hm.symm.trans hs')
        exact ih (hkeep s e m hs hP hm) hrest
      · exact absurd (run_invariant Marked hstay (hmark s e m hs hP hm) hrest) ht

/-! ## Two step functions side by side -/

section Lockstep

variable {τ : Type _} {step' : τ → ε → Option τ}

/-- Two step functions that take or refuse the same events, and stay related where the
    first one's step meets `P`, run side by side. -/
theorem run_lockstep {R : σ → τ → Prop} {P : σ → ε → Prop}
    (hstep : ∀ s t e, R s t → P s e → Option.Rel R (step s e) (step' t e))
    {s : σ} {t : τ} {es : List ε} (hR : R s t) (hP : Along step P s es) :
    Option.Rel R (run step s es) (run step' t es) := by
  induction es generalizing s t with
  | nil => exact .some hR
  | cons e es ih =>
      have hrel := hstep s t e hR hP.1
      rw [run_cons, run_cons]
      cases hs : step s e with
      | none =>
          rw [hs] at hrel
          cases ht : step' t e with
          | none => exact .none
          | some t' => rw [ht] at hrel; cases hrel
      | some s' =>
          rw [hs] at hrel
          cases ht : step' t e with
          | none => rw [ht] at hrel; cases hrel
          | some t' =>
              rw [ht] at hrel
              cases hrel with
              | some hR' => exact ih hR' (hP.2 s' hs)

end Lockstep

end Camio.Lib
