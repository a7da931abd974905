/-
  Camio.Cat.Entries

  The entries of the selector in `camio_cat`.

  Input `i` is inserted with index `i`, one after the other into an empty selector, so it
  gets entry `i` as long as there are entries.  An entry is emptied when its input has been
  read to the end, and stays so.
-/

import Camio.Selector.Accounting
import Camio.Cat.Select

namespace Camio.Cat

open Camio.Lib Camio.Selector

/-- The entries hold the first `k` inputs, less those that are `closed`. -/
structure Holding (k : Nat) (closed : Nat → Prop) (sel : CamioSelector Nat) : Prop where
  count : sel.toStreams.streamCount = k
  index : ∀ j (hj : j < maxStreams), sel.toStreams.streams[j].index = if j < k then j else 0
  live : ∀ j < k, ¬ closed j → sel.toStreams.slot j = some (j, j)
  gone : ∀ j, closed j → sel.toStreams.slot j = none
  counted : ∃ live inserted, Counted { selector := sel, live := live, inserted := inserted }

section Entries

variable {k : Nat} {closed : Nat → Prop} {sel sel' : CamioSelector Nat} {fd : Nat → Int}

theorem Holding.le (h : Holding k closed sel) : k ≤ maxStreams := by
  obtain ⟨live, inserted, hcounted⟩ := h.counted
  rw [← h.count]
  exact hcounted.count_le

/-- What is found in an entry is the input of the entry. -/
theorem Holding.of_slot (h : Holding k closed sel) {j index place : Nat}
    (hslot : sel.toStreams.slot j = some (index, place)) :
    j < k ∧ ¬ closed j ∧ index = j ∧ place = j := by
  have hopen : ¬ closed j := by
    intro hclosed
    rw [h.gone j hclosed] at hslot
    cases hslot
  have hlt : j < k := by
    obtain ⟨live, inserted, hcounted⟩ := h.counted
    by_contra hge
    have hnone := hcounted.unused j (h.count ▸ Nat.le_of_not_lt hge)
    dsimp only at hnone
    rw [hnone] at hslot
    cases hslot
  rw [h.live j hlt hopen, Option.some.injEq, Prod.mk.injEq] at hslot
  exact ⟨hlt, hopen, hslot.1.symm, hslot.2.symm⟩

/-- A selector with the same streams holds the same. -/
theorem Holding.congr (h : Holding k closed sel) (ht : sel'.toStreams = sel.toStreams) :
    Holding k closed sel' where
  count := ht ▸ h.count
  index := by
    rw [ht]
    exact h.index
  live := by
    rw [ht]
    exact h.live
  gone := by
    rw [ht]
    exact h.gone
  counted := by
    obtain ⟨live, inserted, hcounted⟩ := h.counted
    refine ⟨live, inserted, ⟨⟨?_, ?_, ?_⟩, ?_⟩⟩
    · simpa only [ht] using hcounted.count_le
    · simpa only [ht] using hcounted.inserted
    · simpa only [ht] using hcounted.unused
    · simpa only [ht] using hcounted.avail

/-! ## Inserting the inputs -/

theorem holding_fresh (h : Fresh sel) : Holding 0 (fun _ => False) sel where
  count := by
    rw [h.toStreams_eq]
    rfl
  index := by
    intro j hj
    rw [h.toStreams_eq]
    simp only [emptyStreams, Vector.getElem_replicate, if_neg (Nat.not_lt_zero j)]
  live := fun j hj => absurd hj (Nat.not_lt_zero j)
  gone := fun j hj => hj.elim
  counted := ⟨fun _ => none, 0, counted_init h⟩

/-- The next input gets the next entry. -/
theorem Holding.insert (h : Holding k (fun _ => False) sel) (hk : k < maxStreams) :
    ∃ sel', sel.insert fd (some k) k = .ok (0, sel') ∧
      Holding (k + 1) (fun _ => False) sel' := by
  have hroom : sel.toStreams.streamCount < maxStreams := h.count ▸ hk
  obtain ⟨sel', hinsert, -, ht⟩ := @insert_of_room Nat fd sel k hroom k
  refine ⟨sel', hinsert, ⟨?_, ?_, ?_, fun j hj => hj.elim, ?_⟩⟩
  · rw [ht]
    exact congrArg (· + 1) h.count
  · intro j hj
    simp only [ht, fillEntry, h.count, Vector.getElem_setIfInBounds]
    by_cases hjk : k = j
    · rw [if_pos hjk, if_pos (by omega)]
      exact hjk
    · rw [if_neg hjk, h.index j hj]
      split_ifs <;> omega
  · intro j hj _
    rw [ht, slot_fillEntry hroom, h.count]
    by_cases hjk : j = k
    · rw [hjk, Function.update_self]
    · rw [Function.update_of_ne hjk]
      exact h.live j (by omega) id
  · obtain ⟨live, inserted, hcounted⟩ := h.counted
    have hstep : Selector.step fd { selector := sel, live := live, inserted := inserted }
        (.insert (some k) k) = some { selector := sel', live := Function.update live k (some k)
                                      inserted := inserted + 1 } := by
      simp only [Selector.step, hinsert, if_true]
    exact ⟨_, _, @Counted.step Nat fd _ _ (.insert (some k) k) hcounted trivial hstep⟩

/-- All inputs are inserted, as far as there are entries. -/
theorem insertInputs_holding {left i : Nat} (h : Holding (min i maxStreams) (fun _ => False) sel) :
    ∃ sel', insertInputs fd left i sel = .ok sel' ∧
      Holding (min (i + left) maxStreams) (fun _ => False) sel' := by
  induction left generalizing i sel with
  | zero => exact ⟨sel, rfl, h⟩
  | succ left ih =>
      rw [show i + (left + 1) = (i + 1) + left by omega]
      by_cases hfull : maxStreams ≤ i
      · -- no entry is left, and `insert` changes nothing
        rw [Nat.min_eq_right hfull] at h
        have hinsert := @insert_of_full Nat fd sel i (Nat.le_of_eq h.count.symm) i
        rw [insertInputs, hinsert]
        exact ih (by rwa [Nat.min_eq_right (Nat.le_succ_of_le hfull)])
      · have hroom := Nat.lt_of_not_le hfull
        rw [Nat.min_eq_left (Nat.le_of_lt hroom)] at h
        obtain ⟨sel', hinsert, h'⟩ := @Holding.insert i sel fd h hroom
        rw [insertInputs, hinsert]
        exact ih (by rwa [Nat.min_eq_left (Nat.succ_le_of_lt hroom)])

/-! ## Selecting and removing -/

/-- `select` leaves the entries, and returns the index of one of them, or `~0`. -/
theorem Holding.select {σ : Type _} {I : IstreamCalls σ} {w : Wait} {now later : List σ}
    {which : Nat} (h : Holding k closed sel)
    (hselect : select I w sel now = .ok (which, sel', later)) :
    Holding k closed sel' ∧ ((which < k ∧ ¬ closed which) ∨ which = noIndex) := by
  obtain ⟨w', hw⟩ := select_surroundings hselect
  obtain ⟨ht, -, ⟨i, place, hslot⟩ | ⟨-, rfl⟩⟩ := select_spec hw
  · obtain ⟨hlt, hopen, rfl, -⟩ := h.of_slot hslot
    exact ⟨h.congr ht, Or.inl ⟨hlt, hopen⟩⟩
  · exact ⟨h.congr ht, Or.inr rfl⟩

/-- The index of an input is found in its entry. -/
theorem Holding.findIndex (h : Holding k closed sel) {j : Nat} (hj : j < k) :
    findIndex sel.toStreams j = some ⟨j, Nat.lt_of_lt_of_le hj h.le⟩ := by
  have hlt : j < maxStreams := Nat.lt_of_lt_of_le hj h.le
  have hindex := h.index j hlt
  rw [if_pos hj] at hindex
  rw [Selector.findIndex, List.find?_eq_some_iff_getElem]
  refine ⟨decide_eq_true hindex, j, by simpa using hlt, by simp, fun i hi => ?_⟩
  have hi' := h.index i (Nat.lt_trans hi hlt)
  rw [if_pos (Nat.lt_trans hi hj)] at hi'
  simp only [List.getElem_finRange, Bool.not_eq_true', decide_eq_false_iff_not]
  intro heq
  exact Nat.ne_of_lt hi (hi'.symm.trans heq)

/-- `remove` empties the entry of an input. -/
theorem Holding.remove (h : Holding k closed sel) {j : Nat} (hj : j < k) (hopen : ¬ closed j) :
    Holding k (fun i => closed i ∨ i = j) (sel.remove j).2 := by
  have hfind := h.findIndex hj
  obtain ⟨-, -, ht⟩ := remove_of_found hfind
  have hslot := h.live j hj hopen
  refine ⟨?_, ?_, ?_, ?_, ?_⟩
  · rw [ht]
    exact h.count
  · intro i hi
    rw [← h.index i hi, ht]
    simp only [clearEntry, Vector.getElem_set]
    by_cases hij : j = i
    · subst hij
      rw [if_pos rfl]
      rfl
    · rw [if_neg hij]
  · intro i hi hnot
    have hij : i ≠ j := fun heq => hnot (Or.inr heq)
    rw [ht, slot_clearEntry, Function.update_of_ne hij]
    exact h.live i hi fun hclosed => hnot (Or.inl hclosed)
  · intro i hgone
    rw [ht, slot_clearEntry]
    by_cases hij : i = j
    · rw [hij, Function.update_self]
    · rw [Function.update_of_ne hij]
      exact h.gone i (hgone.resolve_right hij)
  · obtain ⟨live, inserted, hcounted⟩ := h.counted
    have hrem : RemovesLive { selector := sel, live := live, inserted := inserted }
        (.remove j) := by
      intro i hi
      obtain rfl := Option.some.inj (hfind.symm.trans hi)
      dsimp only
      rw [hslot]
      rfl
    exact ⟨_, _, @Counted.step Nat (fun _ => 0) _ _ (.remove j) hcounted hrem rfl⟩

/-- Nothing is left exactly if all inputs that were inserted are closed. -/
theorem Holding.count_eq_zero_iff (h : Holding k closed sel) :
    sel.count = 0 ↔ ∀ j < k, closed j := by
  obtain ⟨live, inserted, hcounted⟩ := h.counted
  have havail := hcounted.avail
  dsimp only at havail
  rw [count_eq, havail, nonNull, List.countP_eq_zero, h.count]
  have hlength : (sel.toStreams.streams.toList.take k).length = k := by
    rw [List.length_take, Vector.length_toList]
    exact Nat.min_eq_left h.le
  constructor
  · intro hnull j hj
    by_contra hopen
    have hslot := h.live j hj hopen
    rw [slot_of_lt (Nat.lt_of_lt_of_le hj h.le)] at hslot
    obtain ⟨place, hplace, -⟩ := Option.map_eq_some_iff.mp hslot
    have hin := Nat.lt_of_lt_of_le hj h.le
    have hmem : sel.toStreams.streams[j] ∈ sel.toStreams.streams.toList.take k := by
      refine List.mem_take_iff_getElem.mpr ⟨j, ?_, by rw [Vector.getElem_toList]⟩
      rw [Vector.length_toList]
      exact Nat.lt_min.mpr ⟨hj, hin⟩
    refine hnull _ hmem ?_
    rw [hplace]
    rfl
  · intro hclosed e he
    obtain ⟨j, hj, rfl⟩ := List.mem_iff_getElem.mp he
    rw [hlength] at hj
    have hslot := h.gone j (hclosed j hj)
    rw [slot_of_lt (Nat.lt_of_lt_of_le hj h.le), Option.map_eq_none_iff] at hslot
    rw [List.getElem_take, Vector.getElem_toList, hslot]
    simp

end Entries

end Camio.Cat
