/-
  Camio.Selector.MapView

  A selector as a map from index to stream.  The entries hold the map of the live
  streams as long as `remove` gets to the right entry.  It looks at all 32 entries,
  those of removed streams and those never used (which carry index 0) among them, and
  clears the first one that carries the index, so it behaves as the map only where
  that one is a live stream, or where no entry carries the index and it is too large
  for an index that `remove` takes for a position.
-/

import Camio.Selector.System

namespace Camio.Selector

open Camio.Lib

variable {S : Type _} {fd : S → Int} {sel : CamioSelector S} {σ σ' τ : Session S} {index : Nat}

/-- Live streams have distinct indices. -/
def InsertsFresh (σ : Session S) : Event S → Prop
  | .insert _ index => σ.live index = none
  | _ => True

/-- The first entry that carries the index is a stream, and the poll selector's `~0` is
    not the index; or no entry carries it, and it is 32 or larger. -/
def Removable (sel : CamioSelector S) (index : Nat) : Prop :=
  match findIndex sel.toStreams index with
  | some i => (sel.toStreams.slot i).isSome = true ∧ ¬ (sel.isPoll = true ∧ index = noIndex)
  | none => maxStreams ≤ index

/-- Every `remove` is one of a removable index. -/
def RemovesRemovable (σ : Session S) : Event S → Prop
  | .remove index => Removable σ.selector index
  | _ => True

/-- `select` cannot return the index. -/
def NeverSelects (sel : CamioSelector S) (index : Nat) : Prop :=
  ∀ w i sel', sel.select w = .ok (.returned i sel') → i ≠ index

/-- `remove` is what it is for a map: a live index is taken out, any other is refused. -/
def RemovesAsMap (σ : Session S) (index : Nat) : Prop :=
  if (σ.live index).isSome then
    (σ.selector.remove index).1 = 0 ∧
      Holds (σ.selector.remove index).2.toStreams.slot (Function.update σ.live index none) ∧
      NeverSelects (σ.selector.remove index).2 index
  else σ.selector.remove index = (-1, σ.selector)

/-- The invariant: the entries hold the live streams. -/
structure Mapped (σ : Session S) : Prop extends Filled σ where
  holds : Holds σ.selector.toStreams.slot σ.live

theorem mapped_init (h : Fresh sel) : Mapped (init sel) := by
  refine { filled_init h with holds := ?_ }
  have hslot : (init sel).selector.toStreams.slot = fun _ => none := by
    rw [show (init sel).selector.toStreams = emptyStreams from h.toStreams_eq]
    funext i
    exact slot_emptyStreams i
  rw [hslot]
  exact holds_empty

/-- The stream that is found is the live one of its index. -/
theorem Mapped.live_of_found (h : Mapped σ) {i : Fin maxStreams}
    (hfind : findIndex σ.selector.toStreams index = some i)
    (hslot : (σ.selector.toStreams.slot i).isSome = true) :
    ∃ s, σ.selector.toStreams.slot i = some (index, s) ∧ σ.live index = some s := by
  obtain ⟨⟨k, s⟩, hks⟩ := Option.isSome_iff_exists.mp hslot
  have hk : k = index := by
    rw [slot_of_lt i.isLt, Option.map_eq_some_iff] at hks
    obtain ⟨s', -, hs'⟩ := hks
    rw [Prod.mk.injEq] at hs'
    exact hs'.1.symm.trans (findIndex_some hfind)
  subst hk
  exact ⟨s, hks, h.holds.map_of_slot hks⟩

/-- A live index is found. -/
theorem Mapped.found_of_live (h : Mapped σ) {s : S} (hlive : σ.live index = some s) :
    ∃ i, findIndex σ.selector.toStreams index = some i := by
  obtain ⟨i, hi⟩ := h.holds.slot_of_map hlive
  exact findIndex_of_slot hi

/-- Removing a removable index takes it out of the map. -/
theorem Mapped.remove (h : Mapped σ) (hrem : Removable σ.selector index) :
    Holds (σ.selector.remove index).2.toStreams.slot (Function.update σ.live index none) := by
  rw [Removable] at hrem
  cases hfind : findIndex σ.selector.toStreams index with
  | none =>
      -- not found, so not live, and nothing changes on either side
      have hlive : σ.live index = none := by
        apply Option.eq_none_iff_forall_ne_some.mpr
        intro s hs
        obtain ⟨i, hi⟩ := h.found_of_live hs
        exact absurd (hfind.symm.trans hi) nofun
      rw [remove_of_not_found hfind, ← hlive, Function.update_eq_self]
      exact h.holds
  | some i =>
      rw [hfind] at hrem
      obtain ⟨s, hslot, -⟩ := h.live_of_found hfind hrem.1
      obtain ⟨-, -, ht⟩ := remove_of_found hfind
      rw [ht, slot_clearEntry]
      exact h.holds.erase hslot

/-- Every step with distinct live indices and removable removes keeps the map. -/
theorem Mapped.step {e : Event S} (h : Mapped σ) (hins : InsertsFresh σ e)
    (hrem : RemovesRemovable σ e) (hstep : step fd σ e = some σ') : Mapped σ' := by
  refine { h.toFilled.step hstep with holds := ?_ }
  cases e with
  | insert istream index =>
      obtain ⟨s, rfl, ⟨sel, hlt, -, ht, rfl⟩ | ⟨-, rfl⟩⟩ := step_insert hstep
      · -- the next entry was never used, and the index is not live
        dsimp only
        rw [ht, slot_fillEntry hlt]
        exact h.holds.insert (h.unused _ (Nat.le_refl _)) hins s
      · exact h.holds
  | remove index =>
      obtain rfl := Option.some.inj hstep
      exact h.remove hrem
  | select w =>
      obtain ⟨index, sel, hselect, rfl⟩ := step_select hstep
      dsimp only
      rw [(select_spec hselect).1]
      exact h.holds

/-! ## The fall-through of the poll selector -/

/-- A report of nothing to read lets the scan run through. -/
theorem pollScan_pollReport_none (s : SelectorPoll S) {n i : Nat} (h : i + n ≤ s.streamCount) :
    pollScan (pollReport s fun _ => false) n i = none := by
  induction n generalizing i with
  | zero => rfl
  | succ n ih =>
      have hnext := ih (i := i + 1) (by omega)
      rw [pollScan]
      split
      next index stream f hslot hf =>
        have hquiet : f.revents = false := by
          simp only [pollReport, Vector.getElem?_mapIdx, Option.map_eq_some_iff] at hf
          obtain ⟨g, -, rfl⟩ := hf
          rw [if_pos (show i < s.streamCount by omega)]
        rw [if_neg (by rw [hquiet]; simp)]
        exact hnext
      next => exact hnext

theorem select_noIndex (hpoll : sel.isPoll = true) (hcount : sel.toStreams.streamCount ≠ 0) :
    ∃ w sel', sel.select w = .ok (.returned noIndex sel') := by
  cases sel with
  | spin s => cases hpoll
  | seq s => cases hpoll
  | poll s =>
      -- nothing is reported to be readable
      have hlt : (s.last + 1) % s.streamCount < s.streamCount :=
        Nat.mod_lt _ (Nat.pos_of_ne_zero hcount)
      have hscan := pollScan_pollReport_none s
        (n := s.streamCount - (s.last + 1) % s.streamCount) (i := (s.last + 1) % s.streamCount)
        (by omega)
      refine ⟨{ ready := fun _ _ => false, fuel := 0, poll := some fun _ => false },
        .poll (pollReport s fun _ => false), ?_⟩
      have hcount' : ¬ (pollReport s fun _ => false).streamCount = 0 := hcount
      simp only [CamioSelector.select, camioSelectorPollSelect, if_neg hcount']
      rw [show (pollReport s fun _ => false).streamCount = s.streamCount from rfl,
        show (pollReport s fun _ => false).last = s.last from rfl, hscan]
      rfl

/-! ## `remove` -/

/-- What `select` returns is live, or the fall-through of the poll selector. -/
theorem Mapped.neverSelects (h : Mapped σ) (hlive : σ.live index = none)
    (hpoll : ¬ (σ.selector.isPoll = true ∧ index = noIndex)) :
    NeverSelects σ.selector index := by
  rintro w i sel' hselect rfl
  obtain ⟨-, -, ⟨j, s, hslot⟩ | hthrough⟩ := select_spec hselect
  · exact absurd (hlive.symm.trans (h.holds.map_of_slot hslot)) nofun
  · exact hpoll hthrough

/-- Where the entries hold the live streams, `remove` behaves as for a map exactly if the
    index is removable. -/
theorem Mapped.removesAsMap_iff (h : Mapped σ) (index : Nat) :
    RemovesAsMap σ index ↔ Removable σ.selector index := by
  rw [RemovesAsMap]
  cases hlive : σ.live index with
  | none =>
      rw [if_neg (by simp)]
      rw [Removable]
      cases hfind : findIndex σ.selector.toStreams index with
      | none =>
          rw [remove_of_not_found hfind, notFound, Prod.mk.injEq]
          dsimp only
          by_cases hindex : index ≥ maxStreams
          · rw [if_pos hindex]
            exact iff_of_true ⟨rfl, rfl⟩ hindex
          · rw [if_neg hindex]
            exact iff_of_false (fun hr => absurd hr.1 (by decide)) hindex
      | some i =>
          -- found, but not live: an entry of a removed stream, or one never used
          refine iff_of_false (fun hr => ?_) (fun hrem => ?_)
          · have hzero := (remove_of_found hfind).1
            rw [hr] at hzero
            exact absurd (show (-1 : Int) = 0 from hzero) (by decide)
          · obtain ⟨s, -, hs⟩ := h.live_of_found hfind hrem.1
            exact absurd (hlive.symm.trans hs) nofun
  | some s =>
      rw [if_pos (by simp)]
      obtain ⟨i, hfind⟩ := h.found_of_live hlive
      obtain ⟨hzero, hkind, ht⟩ := remove_of_found hfind
      constructor
      · rintro ⟨-, hholds, hnever⟩
        rw [Removable, hfind]
        refine ⟨?_, ?_⟩
        · -- had the cleared entry been empty, the index would still be live
          by_contra hslot
          rw [Option.isSome_iff_ne_none, not_not] at hslot
          rw [ht, slot_clearEntry, ← hslot, Function.update_eq_self] at hholds
          have hmap := congrFun (h.holds.ext hholds) index
          rw [Function.update_self, hlive] at hmap
          exact absurd hmap nofun
        · -- were it `~0`, the poll selector would still return it: an entry is used
          rintro ⟨hpoll, rfl⟩
          obtain ⟨j, hj⟩ := h.holds.slot_of_map hlive
          have hcount : (σ.selector.remove noIndex).2.toStreams.streamCount ≠ 0 := by
            rw [ht]
            intro hcount
            have hcount' : σ.selector.toStreams.streamCount = 0 := hcount
            have hnone := h.unused j (by rw [hcount']; exact Nat.zero_le j)
            exact absurd (hnone.symm.trans hj) nofun
          obtain ⟨w, sel', hselect⟩ := select_noIndex (hkind.trans hpoll) hcount
          exact hnever w noIndex sel' hselect rfl
      · -- the state after the removal keeps the invariant, with the index not live
        intro hrem
        have hholds := h.remove hrem
        refine ⟨hzero, hholds, ?_⟩
        have hmapped : Mapped { σ with
            selector := (σ.selector.remove index).2
            live := Function.update σ.live index none } :=
          { h.toFilled.remove index with holds := hholds }
        rw [Removable, hfind] at hrem
        refine hmapped.neverSelects (Function.update_self _ _ _) ?_
        rw [show _ = σ.selector.isPoll from hkind]
        exact hrem.2

/-- A removed index stays out of the map until it is inserted again. -/
theorem not_live_of_run {es : List (Event S)} (h : Mapped σ) (hlive : σ.live index = none)
    (hnew : ∀ istream, Event.insert istream index ∉ es)
    (hins : Along (step fd) InsertsFresh σ es) (hrem : Along (step fd) RemovesRemovable σ es)
    (hrun : run (step fd) σ es = some τ) :
    Mapped τ ∧ τ.live index = none ∧ τ.selector.isPoll = σ.selector.isPoll := by
  have hother : Along (step fd) (fun _ e => ∀ istream, e ≠ Event.insert istream index) σ es :=
    along_of_forall fun _ e he istream heq => hnew istream (heq ▸ he)
  refine run_invariant_along
    (fun ρ => Mapped ρ ∧ ρ.live index = none ∧ ρ.selector.isPoll = σ.selector.isPoll)
    (fun ρ e ρ' hρ hP hstep => ?_) ⟨h, hlive, rfl⟩ ((hins.and hrem).and hother) hrun
  obtain ⟨hmapped, hnone, hkind⟩ := hρ
  obtain ⟨⟨hins, hrem⟩, hother⟩ := hP
  refine ⟨hmapped.step hins hrem hstep, ?_, (step_isPoll hstep).trans hkind⟩
  cases e with
  | insert istream k =>
      have hk : index ≠ k := by
        rintro rfl
        exact hother istream rfl
      obtain ⟨s, -, ⟨sel, -, -, -, rfl⟩ | ⟨-, rfl⟩⟩ := step_insert hstep
      · exact (Function.update_of_ne hk _ _).trans hnone
      · exact hnone
  | remove k =>
      obtain rfl := Option.some.inj hstep
      show Function.update ρ.live k none index = none
      by_cases hk : index = k
      · rw [hk, Function.update_self]
      · rw [Function.update_of_ne hk, hnone]
  | select w =>
      obtain ⟨-, sel, -, rfl⟩ := step_select hstep
      exact hnone

/-- In every run with distinct live indices whose removes are removable, `remove` behaves
    as for a map exactly if its index is removable, and a live index that is removed is not
    selected until it is inserted again. -/
theorem removesAsMap_iff_removable {es : List (Event S)} (hsel : Fresh sel)
    (hrun : run (step fd) (init sel) es = some σ)
    (hins : Along (step fd) InsertsFresh (init sel) es)
    (hrem : Along (step fd) RemovesRemovable (init sel) es) :
    (∀ index, RemovesAsMap σ index ↔ Removable σ.selector index) ∧
    (∀ index fs τ, (σ.live index).isSome = true →
      run (step fd) σ (.remove index :: fs) = some τ →
      Along (step fd) InsertsFresh σ (.remove index :: fs) →
      Along (step fd) RemovesRemovable σ (.remove index :: fs) →
      (∀ istream, .insert istream index ∉ fs) → NeverSelects τ.selector index) := by
  have hmapped : Mapped σ := run_invariant_along Mapped
    (fun _ _ _ h hP hstep => h.step hP.1 hP.2 hstep) (mapped_init hsel) (hins.and hrem) hrun
  refine ⟨hmapped.removesAsMap_iff, fun index fs τ hlive hrun' hins' hrem' hnew => ?_⟩
  -- after the removal the index is not live, and the rest of the run keeps it so
  obtain ⟨ρ, hstep, hrest⟩ := run_cons_eq_some.mp hrun'
  have hnone : ρ.live index = none := by
    obtain rfl := Option.some.inj hstep
    exact Function.update_self _ _ _
  have hρ := hmapped.step hins'.1 hrem'.1 hstep
  obtain ⟨hτ, hlive', hkind⟩ :=
    not_live_of_run hρ hnone hnew (hins'.2 ρ hstep) (hrem'.2 ρ hstep) hrest
  refine hτ.neverSelects hlive' ?_
  -- the index was removable, so it is not the value that the poll selector falls back on
  rw [hkind, step_isPoll hstep]
  obtain ⟨s, hs⟩ := Option.isSome_iff_exists.mp hlive
  obtain ⟨i, hfind⟩ := hmapped.found_of_live hs
  have hremovable : Removable σ.selector index := hrem'.1
  rw [Removable, hfind] at hremovable
  exact hremovable.2

/-- Two streams, one of them removed: the other can be removed, the first cannot again. -/
theorem removesAsMap_iff_removable_two :
    ∃ σ, run (step fun _ : Unit => 3) (init (.spin camioSelectorSpinConstruct))
        [.insert (some ()) 5, .insert (some ()) 0, .remove 5, .remove 40] = some σ ∧
      RemovesAsMap σ 0 ∧ ¬ RemovesAsMap σ 5 := by
  have hins : Along (step fun _ : Unit => 3) InsertsFresh (init (.spin camioSelectorSpinConstruct))
      [.insert (some ()) 5, .insert (some ()) 0, .remove 5, .remove 40] :=
    .cons rfl rfl (.cons rfl rfl (.cons trivial rfl (.cons trivial rfl trivial)))
  have hrem : Along (step fun _ : Unit => 3) RemovesRemovable
      (init (.spin camioSelectorSpinConstruct))
      [.insert (some ()) 5, .insert (some ()) 0, .remove 5, .remove 40] := by
    refine .cons trivial rfl (.cons trivial rfl (.cons ⟨rfl, nofun⟩ rfl (.cons ?_ rfl trivial)))
    show 32 ≤ 40
    decide
  have h := (removesAsMap_iff_removable Fresh.spin rfl hins hrem).1
  refine ⟨_, rfl, (h 0).mpr ⟨rfl, nofun⟩, fun hremoves => ?_⟩
  have hslot := ((h 5).mp hremoves).1
  exact absurd hslot (by decide)

/-- On a fresh selector index 0 is removed although nothing was inserted. -/
theorem removesAsMap_fails_unused :
    ¬ ∀ (sel : CamioSelector Unit) (es : List (Event Unit)) (σ : Session Unit), Fresh sel →
      run (step fun _ => 3) (init sel) es = some σ →
      Along (step fun _ => 3) InsertsFresh (init sel) es → ∀ index, RemovesAsMap σ index := by
  intro hall
  have h := hall _ [] _ Fresh.spin rfl trivial 0
  rw [RemovesAsMap, if_neg (by decide)] at h
  have hzero := congrArg Prod.fst h
  exact absurd (show (0 : Int) = -1 from hzero) (by decide)

end Camio.Selector
