/-
  Camio.Lib.Service

  Queues that are served one item at a time: the queue in front gives its first item and is
  put back among the others, where its discipline wants it; a queue that has nothing left is
  dropped.

  `run_served` is the rule for a program that does this: if a step serves the queue in front,
  a run of as many steps as there are items and queues serves all of them.
-/

import Camio.Lib.Run

namespace Camio.Lib

variable {ι α : Type _}

/-- Where a queue goes that was served: somewhere among the others, which stay in their
    order. -/
structure Discipline (ι α : Type _) where
  putBack : ι × List α → List (ι × List α) → List (ι × List α)
  among : ∀ q qs, ∃ pre post, qs = pre ++ post ∧ putBack q qs = pre ++ q :: post

/-- Behind all others. -/
def roundRobin : Discipline ι α where
  putBack q qs := qs ++ [q]
  among q qs := ⟨qs, [], (List.append_nil qs).symm, rfl⟩

/-- In front again, until nothing is left. -/
def inOrder : Discipline ι α where
  putBack q qs := q :: qs
  among _ qs := ⟨[], qs, rfl, rfl⟩

/-- How often a queue is served or dropped. -/
def rounds : List (ι × List α) → Nat
  | [] => 0
  | q :: qs => q.2.length + 1 + rounds qs

theorem rounds_append (qs qs' : List (ι × List α)) :
    rounds (qs ++ qs') = rounds qs + rounds qs' := by
  induction qs with
  | nil => simp [rounds]
  | cons q qs ih =>
      simp only [List.cons_append, rounds, ih]
      omega

theorem rounds_perm {qs qs' : List (ι × List α)} (h : qs.Perm qs') : rounds qs = rounds qs' := by
  induction h with
  | nil => rfl
  | cons q _ ih => simp only [rounds, ih]
  | swap q q' qs =>
      simp only [rounds]
      omega
  | trans _ _ ih₁ ih₂ => exact ih₁.trans ih₂

theorem rounds_putBack (d : Discipline ι α) (q : ι × List α) (qs : List (ι × List α)) :
    rounds (d.putBack q qs) = q.2.length + 1 + rounds qs := by
  obtain ⟨pre, post, hqs, hput⟩ := d.among q qs
  rw [hput, hqs]
  simp only [rounds_append, rounds]
  omega

/-- The items in the order in which they are served, each with its queue. -/
def served (d : Discipline ι α) : List (ι × List α) → List (ι × α)
  | [] => []
  | (_, []) :: qs => served d qs
  | (i, m :: ms) :: qs => (i, m) :: served d (d.putBack (i, ms) qs)
termination_by qs => rounds qs
decreasing_by
  · simp [rounds]
  · simp [rounds, rounds_putBack]

/-- One after the other is all of the first queue, then all of the second, and so on. -/
theorem served_inOrder (qs : List (ι × List α)) :
    served inOrder qs = qs.flatMap fun q => q.2.map fun m => (q.1, m) := by
  induction qs using served.induct inOrder with
  | case1 => simp [served]
  | case2 i qs ih => simp [served, ih]
  | case3 i m ms qs ih =>
      rw [served, ih]
      simp [inOrder]

/-- Queues of one item at most keep their order, wherever a queue is put back. -/
theorem served_single (d : Discipline ι α) {qs : List (ι × List α)}
    (h : ∀ q ∈ qs, q.2.length ≤ 1) : (served d qs).map Prod.snd = qs.flatMap Prod.snd := by
  induction qs using served.induct d with
  | case1 => simp [served]
  | case2 i qs ih =>
      rw [served, ih fun q hq => h q (List.mem_cons_of_mem _ hq), List.flatMap_cons,
        List.nil_append]
  | case3 i m ms qs ih =>
      obtain rfl : ms = [] := by simpa using h (i, m :: ms) List.mem_cons_self
      obtain ⟨pre, post, hqs, hput⟩ := d.among (i, []) qs
      -- an empty queue may stand anywhere
      have hshort : ∀ q ∈ d.putBack (i, []) qs, q.2.length ≤ 1 := by
        intro q hq
        rw [hput, List.perm_middle.mem_iff, List.mem_cons, ← hqs] at hq
        rcases hq with rfl | hq
        · simp
        · exact h q (List.mem_cons_of_mem _ hq)
      have hflat : (d.putBack (i, []) qs).flatMap Prod.snd = qs.flatMap Prod.snd := by
        rw [hput, hqs]
        simp
      rw [served, List.map_cons, ih hshort, hflat, List.flatMap_cons, List.singleton_append]

/-- Where a step drops the queue in front if it is empty, and serves it otherwise, a run of so
    many steps serves all queues. -/
theorem run_served {σ ε : Type _} {step : σ → ε → Option σ} (d : Discipline ι α)
    {R : List (ι × List α) → List (ι × α) → σ → Prop} {P : ε → Prop}
    (hdrop : ∀ {i qs done s e}, R ((i, []) :: qs) done s → P e →
      ∃ s', step s e = some s' ∧ R qs done s')
    (hserve : ∀ {i m ms qs done s e}, R ((i, m :: ms) :: qs) done s → P e →
      ∃ s', step s e = some s' ∧ R (d.putBack (i, ms) qs) (done ++ [(i, m)]) s')
    {qs : List (ι × List α)} {done : List (ι × α)} {s : σ} {es : List ε} (h : R qs done s)
    (hes : ∀ e ∈ es, P e) (hlen : es.length = rounds qs) :
    ∃ s', run step s es = some s' ∧ R [] (done ++ served d qs) s' := by
  induction qs using served.induct d generalizing done s es with
  | case1 =>
      obtain rfl := List.length_eq_zero_iff.mp hlen
      exact ⟨s, rfl, by rwa [served, List.append_nil]⟩
  | case2 i qs ih =>
      rw [rounds] at hlen
      obtain ⟨e, es, rfl⟩ := List.exists_cons_of_length_pos (by omega : 0 < es.length)
      obtain ⟨s₁, hstep, h₁⟩ := hdrop h (hes e List.mem_cons_self)
      obtain ⟨s', hrun, h'⟩ := ih h₁ (fun e he => hes e (List.mem_cons_of_mem _ he))
        (by simp only [List.length_cons, List.length_nil] at hlen; omega)
      exact ⟨s', run_cons_eq_some.mpr ⟨s₁, hstep, hrun⟩, by rwa [served]⟩
  | case3 i m ms qs ih =>
      rw [rounds] at hlen
      obtain ⟨e, es, rfl⟩ := List.exists_cons_of_length_pos (by omega : 0 < es.length)
      obtain ⟨s₁, hstep, h₁⟩ := hserve h (hes e List.mem_cons_self)
      obtain ⟨s', hrun, h'⟩ := ih h₁ (fun e he => hes e (List.mem_cons_of_mem _ he))
        (by rw [rounds_putBack]; simp only [List.length_cons] at hlen ⊢; omega)
      refine ⟨s', run_cons_eq_some.mpr ⟨s₁, hstep, hrun⟩, ?_⟩
      rwa [served, List.append_cons]

end Camio.Lib
