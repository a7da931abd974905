/-
  Camio.Selector.Fairness

  The spin selector starts "from the next stream to avoid starvation".

  While one stream is always ready, every `select` returns an entry on the way from `last`
  to that stream, or the stream itself.  So between two returns of it the selector goes
  round once, whatever is inserted behind or removed from the way.
-/

import Camio.Selector.Agreement

namespace Camio.Selector

open Camio.Lib

variable {S : Type _}

/-- Entry `j` is a live stream that answers ready whenever a `select` asks it. -/
def AlwaysReady (j : Nat) (σ : Session S) : Event S → Prop
  | .select w => ∃ index s, σ.selector.toStreams.slot j = some (index, s) ∧
      ∀ turn, w.ready turn s = true
  | _ => True

/-- The `last` of a spin selector. -/
def CamioSelector.spinLast : CamioSelector S → Option Nat
  | .spin s => some s.last
  | _ => none

/-- The entry that a call has returned, if it was a `select` of a spin selector. -/
def returned (σ : Session S) : Event S → List Nat
  | .select _ => σ.selector.spinLast.toList
  | _ => []

/-- The entries that the `select` calls of a run return, in order. -/
def returns (fd : S → Int) : Session S → List (Event S) → List Nat
  | _, [] => []
  | σ, e :: es =>
      match step fd σ e with
      | some σ' => returned σ' e ++ returns fd σ' es
      | none => []

/-- A `select` returns the index of the first entry in cyclic order behind `last` that is
    live and answers ready, in as many turns as there are entries and one. -/
def ReturnsFirst (σ : Session S) : Event S → Prop
  | .select w => ∃ s, σ.selector = .spin s ∧ ∃ i k index stream,
      FirstReady s.toStreams w.ready s.last i k ∧ k < s.streamCount ∧
      s.toStreams.slot i = some (index, stream) ∧
      ∀ fuel, camioSelectorSpinSelect s w.ready fuel = .returned index { s with last := i } ∨
        (fuel ≤ s.streamCount ∧ camioSelectorSpinSelect s w.ready fuel = .waiting)
  | _ => True

/-- The entries behind `j` come first, then those before it. -/
def wayFrom (j i : Nat) : Nat := if j ≤ i then i else i + maxStreams

/-! ## One `select` -/

section Select

variable {t : Streams S} {ready : Nat → S → Bool} {last i j k index : Nat} {s : S}

/-- How many entries are asked before `j`. -/
def before (t : Streams S) (last j : Nat) : Nat :=
  if last < j then j - last - 1 else j + t.streamCount - last - 1

theorem entryAsked_before (hlast : last < t.streamCount) (hj : j < t.streamCount) :
    before t last j < t.streamCount ∧ entryAsked t last (before t last j) = j := by
  rw [before, entryAsked]
  split
  next hlt =>
    rw [show last + 1 + (j - last - 1) = j by omega]
    exact ⟨by omega, Nat.mod_eq_of_lt hj⟩
  next hge =>
    rw [show last + 1 + (j + t.streamCount - last - 1) = j + t.streamCount by omega,
      Nat.add_mod_right]
    exact ⟨by omega, Nat.mod_eq_of_lt hj⟩

/-- An entry that is asked before `j` is on the way to it. -/
theorem wayFrom_lt (hcount : t.streamCount ≤ maxStreams) (hlast : last < t.streamCount)
    (hj : j < t.streamCount) (hk : k < before t last j) :
    entryAsked t last k ≠ j ∧ wayFrom j last < wayFrom j (entryAsked t last k) := by
  rw [before] at hk
  rw [entryAsked]
  by_cases hround : last + 1 + k < t.streamCount
  · rw [Nat.mod_eq_of_lt hround, wayFrom, wayFrom]
    split_ifs at hk ⊢ <;> omega
  · have hlt : last + 1 + k - t.streamCount < t.streamCount := by
      split_ifs at hk <;> omega
    rw [Nat.mod_eq_sub_mod (by omega), Nat.mod_eq_of_lt hlt, wayFrom, wayFrom]
    split_ifs at hk ⊢ <;> omega

theorem FirstReady.unique {i' k' : Nat} (h : FirstReady t ready last i k)
    (h' : FirstReady t ready last i' k') : i = i' := by
  rcases Nat.lt_trichotomy k k' with hlt | rfl | hlt
  · exact absurd ((h'.first k hlt).symm.trans h.answers) Bool.false_ne_true
  · exact h.entry.trans h'.entry.symm
  · exact absurd ((h.first k' hlt).symm.trans h'.answers) Bool.false_ne_true

/-- The first entry that answers ready is `j`, or on the way to it. -/
theorem FirstReady.onWay (h : FirstReady t ready last i k) (hcount : t.streamCount ≤ maxStreams)
    (hlast : last < t.streamCount) (hj : j < t.streamCount) (hslot : t.slot j = some (index, s))
    (hready : ∀ turn, ready turn s = true) :
    k < t.streamCount ∧ (i ≠ j → wayFrom j last < wayFrom j i) := by
  obtain ⟨hlt, hentry⟩ := entryAsked_before hlast hj
  have hanswers : Selector.answers t ready last (before t last j) = true := by
    rw [Selector.answers, hentry]
    exact readable_iff.mpr ⟨index, s, hslot, hready _⟩
  have hle : k ≤ before t last j := Nat.le_of_not_lt fun hlt =>
    Bool.false_ne_true ((h.first _ hlt).symm.trans hanswers)
  refine ⟨Nat.lt_of_le_of_lt hle hlt, fun hne => ?_⟩
  rcases Nat.eq_or_lt_of_le hle with rfl | hk
  · exact absurd (h.entry.trans hentry) hne
  · rw [h.entry]
    exact (wayFrom_lt hcount hlast hj hk).2

/-- With `j` ready in every turn, `select` returns after so many turns at the latest, and
    the same entry whenever it returns. -/
theorem spinSelect_ready {p : SelectorSpin S} (hcount : p.streamCount ≤ maxStreams)
    (hlast : p.last < p.streamCount) (hj : j < p.streamCount)
    (hslot : p.toStreams.slot j = some (index, s)) (hready : ∀ turn, ready turn s = true) :
    ∃ i k index stream, FirstReady p.toStreams ready p.last i k ∧ k < p.streamCount ∧
      p.toStreams.slot i = some (index, stream) ∧
      (i ≠ j → wayFrom j p.last < wayFrom j i) ∧
      ∀ fuel, camioSelectorSpinSelect p ready fuel = .returned index { p with last := i } ∨
        (fuel ≤ p.streamCount ∧ camioSelectorSpinSelect p ready fuel = .waiting) := by
  have hcases := @spinSelect_cases S ready p (Nat.zero_lt_of_lt hj)
  obtain ⟨-, hno⟩ | ⟨i, k, index', stream, hfirst, hslot', -⟩ := hcases (p.streamCount + 1)
  · obtain ⟨hlt, hentry⟩ := @entryAsked_before S p.toStreams p.last j hlast hj
    have hturn := @turnAsked_le S p.toStreams p.last (before p.toStreams p.last j) hlt
    have hfalse := hno (before p.toStreams p.last j) (by omega)
    rw [answers, hentry, readable_iff.mpr ⟨index, s, hslot, hready _⟩] at hfalse
    cases hfalse
  · obtain ⟨hk, hway⟩ := hfirst.onWay hcount hlast hj hslot hready
    have hturn := @turnAsked_le S p.toStreams p.last k hk
    refine ⟨i, k, index', stream, hfirst, hk, hslot', hway, fun fuel => ?_⟩
    obtain ⟨hwaiting, hno⟩ | ⟨i', k', index'', stream', hfirst', hslot'', -, hreturned⟩ :=
      hcases fuel
    · refine Or.inr ⟨Nat.le_of_not_lt fun hlt => ?_, hwaiting⟩
      exact Bool.false_ne_true ((hno k (by omega)).symm.trans hfirst.answers)
    · obtain rfl := hfirst'.unique hfirst
      obtain rfl : index'' = index' :=
        congrArg Prod.fst (Option.some.inj (hslot''.symm.trans hslot'))
      exact Or.inl hreturned

end Select

/-! ## Steps of a spin selector -/

/-- The invariant of the runs: a spin selector whose `last` is an entry, once there is one. -/
structure Spinning (σ : Session S) (s : SelectorSpin S) : Prop where
  spin : σ.selector = .spin s
  filled : Filled σ
  last : s.last < s.streamCount ∨ s.last = 0

section Steps

variable {fd : S → Int} {σ σ' : Session S} {s : SelectorSpin S} {j : Nat} {w : Surroundings S}

theorem insertStream_count_le {t t' : Streams S} {istream : Option S} {index : Nat} {r : Int}
    (h : insertStream t istream index = .ok (r, t')) : t.streamCount ≤ t'.streamCount := by
  cases istream with
  | none => cases h
  | some stream =>
      simp only [insertStream] at h
      split at h
      next =>
        cases h
        exact Nat.le_refl _
      next =>
        cases h
        exact Nat.le_succ _

theorem spinRemove_kept (s : SelectorSpin S) (index : Nat) :
    (camioSelectorSpinRemove s index).2.last = s.last ∧
      (camioSelectorSpinRemove s index).2.streamCount = s.streamCount := by
  rw [camioSelectorSpinRemove]
  split
  next => exact ⟨rfl, rfl⟩
  next => exact ⟨rfl, rfl⟩

/-- Inserts and removes leave `last` alone. -/
theorem Spinning.edit {e : Event S} (h : Spinning σ s) (he : e.IsEdit)
    (hstep : step fd σ e = some σ') : ∃ s', Spinning σ' s' ∧ s'.last = s.last := by
  have hfilled := h.filled.step hstep
  have hlast := h.last
  cases e with
  | insert istream index =>
      simp only [step, h.spin, CamioSelector.insert, camioSelectorSpinInsert] at hstep
      cases hinsert : insertStream s.toStreams istream index with
      | error e =>
          rw [hinsert] at hstep
          cases hstep
      | ok res =>
          obtain ⟨r, t⟩ := res
          have hcount := insertStream_count_le hinsert
          rw [hinsert] at hstep
          simp only [Except.map] at hstep
          have hlast' : s.last < t.streamCount ∨ s.last = 0 := by omega
          split at hstep
          · obtain rfl := Option.some.inj hstep
            exact ⟨{ s with toStreams := t }, ⟨rfl, hfilled, hlast'⟩, rfl⟩
          · obtain rfl := Option.some.inj hstep
            exact ⟨{ s with toStreams := t }, ⟨rfl, hfilled, hlast'⟩, rfl⟩
  | remove index =>
      obtain ⟨hkept, hcount⟩ := spinRemove_kept s index
      obtain rfl := Option.some.inj hstep
      refine ⟨(camioSelectorSpinRemove s index).2, ⟨?_, hfilled, ?_⟩, hkept⟩
      · dsimp only
        rw [h.spin]
        rfl
      · rw [hkept, hcount]
        exact hlast
  | select w => exact he.elim

/-- An entry that is live is counted. -/
theorem Spinning.lt_count {index : Nat} {stream : S} (h : Spinning σ s)
    (hslot : s.toStreams.slot j = some (index, stream)) : j < s.streamCount := by
  apply Nat.lt_of_not_le
  intro hle
  have hnone := h.filled.unused j (by
    rw [h.spin]
    exact hle)
  rw [h.spin] at hnone
  cases hslot.symm.trans hnone

/-- With `j` always ready, `select` returns an entry on the way to it, or `j` itself. -/
theorem Spinning.select (h : Spinning σ s) (hready : AlwaysReady j σ (.select w)) :
    ReturnsFirst σ (.select w) ∧
      ∀ σ', step fd σ (.select w) = some σ' → ∃ i, Spinning σ' { s with last := i } ∧
        (i ≠ j → wayFrom j s.last < wayFrom j i) := by
  obtain ⟨index, stream, hslot, hready⟩ := hready
  rw [h.spin, CamioSelector.toStreams] at hslot
  have hj := h.lt_count hslot
  have hcount : s.streamCount ≤ maxStreams := by
    have hle := h.filled.count_le
    rwa [h.spin] at hle
  have hlast : s.last < s.streamCount := by
    have hor := h.last
    omega
  obtain ⟨i, k, index', stream', hfirst, hk, hslot', hway, hselect⟩ :=
    spinSelect_ready hcount hlast hj hslot hready
  refine ⟨⟨s, h.spin, i, k, index', stream', hfirst, hk, hslot', hselect⟩, fun σ' hstep => ?_⟩
  have hfilled := h.filled.step hstep
  obtain ⟨index'', sel, hsel, rfl⟩ := step_select hstep
  rw [h.spin, CamioSelector.select] at hsel
  obtain hreturned | ⟨-, hwaiting⟩ := hselect w.fuel
  · rw [hreturned] at hsel
    cases hsel
    exact ⟨i, ⟨rfl, hfilled, Or.inl (hfirst.entry ▸ entryAsked_lt (Nat.zero_lt_of_lt hj))⟩, hway⟩
  · rw [hwaiting] at hsel
    cases hsel

end Steps

/-! ## Runs -/

section Runs

variable {fd : S → Int} {σ σ' : Session S} {s : SelectorSpin S} {j : Nat} {es : List (Event S)}

theorem returns_cons {e : Event S} (hstep : step fd σ e = some σ') :
    returns fd σ (e :: es) = returned σ' e ++ returns fd σ' es := by
  rw [returns, hstep]

theorem returns_refused {e : Event S} (hstep : step fd σ e = none) :
    returns fd σ (e :: es) = [] := by
  rw [returns, hstep]

/-- A call returns nothing and leaves `last` alone, or returns the new `last`: an entry on
    the way to `j`, or `j` itself. -/
theorem Spinning.step {e : Event S} (h : Spinning σ s) (hready : AlwaysReady j σ e)
    (hstep : step fd σ e = some σ') : ∃ s', Spinning σ' s' ∧
      ((returned σ' e = [] ∧ s'.last = s.last) ∨
        (returned σ' e = [s'.last] ∧ (s'.last ≠ j → wayFrom j s.last < wayFrom j s'.last))) := by
  cases e with
  | insert istream index =>
      obtain ⟨s', hs', hlast⟩ := h.edit (e := .insert istream index) trivial hstep
      exact ⟨s', hs', Or.inl ⟨rfl, hlast⟩⟩
  | remove index =>
      obtain ⟨s', hs', hlast⟩ := h.edit (e := .remove index) trivial hstep
      exact ⟨s', hs', Or.inl ⟨rfl, hlast⟩⟩
  | select w =>
      obtain ⟨i, hs', hway⟩ := (h.select hready).2 σ' hstep
      refine ⟨_, hs', Or.inr ⟨?_, hway⟩⟩
      rw [returned, hs'.spin]
      rfl

/-- Until it returns `j`, the selector stays on the way to it. -/
theorem returns_onWay (h : Spinning σ s) (hready : Along (Selector.step fd) (AlwaysReady j) σ es)
    {b : List Nat} (hb : b <+: returns fd σ es) (hj : j ∉ b) :
    (∀ i ∈ b, wayFrom j s.last < wayFrom j i) ∧
      b.Pairwise fun i i' => wayFrom j i < wayFrom j i' := by
  induction es generalizing σ s b with
  | nil =>
      rw [returns, List.prefix_nil] at hb
      subst hb
      exact ⟨List.forall_mem_nil _, List.Pairwise.nil⟩
  | cons e es ih =>
      cases hstep : Selector.step fd σ e with
      | none =>
          rw [returns_refused hstep, List.prefix_nil] at hb
          subst hb
          exact ⟨List.forall_mem_nil _, List.Pairwise.nil⟩
      | some σ' =>
          have hrest := hready.2 σ' hstep
          rw [returns_cons hstep] at hb
          obtain ⟨s', hs', ⟨hnone, hlast⟩ | ⟨hone, hway⟩⟩ := h.step hready.1 hstep
          · rw [hnone, List.nil_append] at hb
            rw [← hlast]
            exact ih hs' hrest hb hj
          · rw [hone, List.singleton_append] at hb
            cases b with
            | nil => exact ⟨List.forall_mem_nil _, List.Pairwise.nil⟩
            | cons i b =>
                obtain ⟨rfl, hb'⟩ := List.cons_prefix_cons.mp hb
                rw [List.mem_cons, not_or] at hj
                obtain ⟨hmore, hsorted⟩ := ih hs' hrest hb' hj.2
                have hfirst := hway (Ne.symm hj.1)
                refine ⟨fun i hi => ?_, hsorted.cons hmore⟩
                rcases List.mem_cons.mp hi with rfl | hi
                · exact hfirst
                · exact Nat.lt_trans hfirst (hmore i hi)

/-- Behind a return of `j`, no entry is returned twice before the next. -/
theorem returns_nodup (h : Spinning σ s) (hready : Along (Selector.step fd) (AlwaysReady j) σ es)
    {b : List Nat} (hb : (j :: b) <:+: returns fd σ es) (hj : j ∉ b) : b.Nodup := by
  induction es generalizing σ s with
  | nil => cases List.eq_nil_of_infix_nil hb
  | cons e es ih =>
      cases hstep : Selector.step fd σ e with
      | none =>
          rw [returns_refused hstep] at hb
          cases List.eq_nil_of_infix_nil hb
      | some σ' =>
          have hrest := hready.2 σ' hstep
          rw [returns_cons hstep] at hb
          obtain ⟨s', hs', ⟨hnone, -⟩ | ⟨hone, -⟩⟩ := h.step hready.1 hstep
          · rw [hnone, List.nil_append] at hb
            exact ih hs' hrest hb
          · rw [hone, List.singleton_append] at hb
            rcases List.infix_cons_iff.mp hb with hb | hb
            · obtain ⟨rfl, hb'⟩ := List.cons_prefix_cons.mp hb
              have hsorted := (returns_onWay hs' hrest hb' hj).2
              exact hsorted.imp fun hlt heq => Nat.ne_of_lt hlt (congrArg _ heq)
            · exact ih hs' hrest hb

theorem along_returnsFirst (h : Spinning σ s)
    (hready : Along (Selector.step fd) (AlwaysReady j) σ es) :
    Along (Selector.step fd) ReturnsFirst σ es := by
  refine hready.of_invariant (fun σ => ∃ s, Spinning σ s) ?_ ?_ ⟨s, h⟩
  · rintro σ e σ' ⟨s, hs⟩ hready hstep
    obtain ⟨s', hs', -⟩ := hs.step hready hstep
    exact ⟨s', hs'⟩
  · rintro σ e ⟨s, hs⟩ hready
    cases e with
    | insert istream index => trivial
    | remove index => trivial
    | select w =>
        obtain ⟨hfirst, -⟩ := @Spinning.select S fd _ _ _ _ hs hready
        exact hfirst

/-- What a `select` returns is the first entry that answers ready, whatever the streams do. -/
theorem spinSelect_returned {ready : Nat → S → Bool} {fuel index : Nat} {s' : SelectorSpin S}
    (h : camioSelectorSpinSelect s ready fuel = .returned index s') :
    ∃ i k stream, FirstReady s.toStreams ready s.last i k ∧ i < s.streamCount ∧
      s.toStreams.slot i = some (index, stream) ∧ s' = { s with last := i } := by
  by_cases hpos : 0 < s.streamCount
  · obtain ⟨hwaiting, -⟩ | ⟨i, k, index', stream, hfirst, hslot, -, hreturned⟩ :=
      spinSelect_cases hpos fuel
    · rw [hwaiting] at h
      cases h
    · rw [hreturned] at h
      cases h
      exact ⟨i, k, stream, hfirst, hfirst.entry ▸ entryAsked_lt hpos, hslot, rfl⟩
  · rw [camioSelectorSpinSelect, if_pos (Nat.eq_zero_of_not_pos hpos)] at h
    cases h

theorem spinning_of_run
    (hrun : run (Selector.step fd) (init (.spin camioSelectorSpinConstruct)) es = some σ) :
    ∃ s, Spinning σ s := by
  refine run_invariant (fun σ => ∃ s, Spinning σ s) ?_
    ⟨_, rfl, filled_init Fresh.spin, Or.inr rfl⟩ hrun
  rintro σ e σ' ⟨s, h⟩ hstep
  cases e with
  | insert istream index =>
      obtain ⟨s', hs', -⟩ := h.edit (e := .insert istream index) trivial hstep
      exact ⟨s', hs'⟩
  | remove index =>
      obtain ⟨s', hs', -⟩ := h.edit (e := .remove index) trivial hstep
      exact ⟨s', hs'⟩
  | select w =>
      have hfilled := h.filled.step hstep
      obtain ⟨index, sel, hsel, rfl⟩ := step_select hstep
      rw [h.spin, CamioSelector.select, Except.ok.injEq] at hsel
      cases hselect : camioSelectorSpinSelect s w.ready w.fuel with
      | returned index' s' =>
          rw [hselect] at hsel
          cases hsel
          obtain ⟨i, k, stream, -, hi, -, rfl⟩ := spinSelect_returned hselect
          exact ⟨_, rfl, hfilled, Or.inl hi⟩
      | waiting =>
          rw [hselect] at hsel
          cases hsel
      | fault =>
          rw [hselect] at hsel
          cases hsel

end Runs

/-- **No starvation.**  While entry `j` is always ready, no entry is returned twice between
    two returns of `j`, and every `select` returns the first entry in cyclic order behind
    `last` that is live and ready.  Any `select` that returns at all does. -/
theorem select_fair {fd : S → Int} {σ : Session S} {es es' : List (Event S)} {j : Nat}
    (hrun : run (step fd) (init (.spin camioSelectorSpinConstruct)) es = some σ)
    (hready : Along (step fd) (AlwaysReady j) σ es') :
    (∀ b, (j :: b) <:+: returns fd σ es' → j ∉ b → b.Nodup) ∧
    Along (step fd) ReturnsFirst σ es' ∧
    ∀ (s s' : SelectorSpin S) (ready : Nat → S → Bool) (fuel index : Nat),
      camioSelectorSpinSelect s ready fuel = .returned index s' →
        ∃ i k stream, FirstReady s.toStreams ready s.last i k ∧ i < s.streamCount ∧
          s.toStreams.slot i = some (index, stream) ∧ s' = { s with last := i } := by
  obtain ⟨s, hs⟩ := spinning_of_run hrun
  exact ⟨fun b hb hj => returns_nodup hs hready hb hj, along_returnsFirst hs hready,
    fun _ _ _ _ _ h => spinSelect_returned h⟩

/-- A `select` of streams that are ready or not for good. -/
def selectOnce : Event Bool := .select ⟨fun _ b => b, 3, none⟩

/-- With two streams that are ready all the time, each is returned in turn. -/
theorem select_fair_two : ∃ σ : Session Bool,
    run (step fun _ => 3) (init (.spin camioSelectorSpinConstruct)) (insertTwo true true)
      = some σ ∧
    returns (fun _ => 3) σ [selectOnce, selectOnce, selectOnce] = [1, 0, 1] ∧
    ∀ b, (1 :: b) <:+: [1, 0, 1] → 1 ∉ b → b.Nodup := by
  have hrun : run (step fun _ : Bool => 3) (init (.spin camioSelectorSpinConstruct))
      (insertTwo true true) = some _ := rfl
  refine ⟨_, hrun, rfl,
    (@select_fair _ _ _ _ [selectOnce, selectOnce, selectOnce] 1 hrun ?_).1⟩
  refine Along.cons ⟨8, true, rfl, fun _ => rfl⟩ rfl ?_
  refine Along.cons ⟨8, true, rfl, fun _ => rfl⟩ rfl ?_
  exact Along.cons ⟨8, true, rfl, fun _ => rfl⟩ rfl trivial

end Camio.Selector
