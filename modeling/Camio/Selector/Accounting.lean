/-
  Camio.Selector.Accounting

  What a selector counts.  `stream_avail` follows the streams that are there as long
  as `remove` clears entries that hold one.  `stream_count` only grows: the entry of a
  removed stream is not used again, so a selector takes 32 streams in its life.
-/

import Camio.Selector.System

namespace Camio.Selector

open Camio.Lib

variable {S : Type _} {fd : S → Int} {sel : CamioSelector S} {σ σ' : Session S}
  {t : Streams S} {index : Nat}

/-- The number of entries below `stream_count` whose stream is not `NULL`. -/
def nonNull (t : Streams S) : Nat :=
  (t.streams.toList.take t.streamCount).countP fun e => e.istream.isSome

/-- The entry that `remove` clears holds a stream. -/
def RemovesLive (σ : Session S) : Event S → Prop
  | .remove index => ∀ i, findIndex σ.selector.toStreams index = some i →
      (σ.selector.toStreams.slot i).isSome = true
  | _ => True

theorem nonNull_le (t : Streams S) : nonNull t ≤ 32 := by
  have hcount := List.countP_le_length (p := fun e : Entry S => e.istream.isSome)
    (l := t.streams.toList.take t.streamCount)
  have htake := List.length_take_le' t.streamCount t.streams.toList
  rw [Vector.length_toList] at htake
  exact Nat.le_trans hcount htake

theorem nonNull_fillEntry (h : t.streamCount < maxStreams) (s : S) :
    nonNull (fillEntry t s index) = nonNull t + 1 := by
  have hlt : t.streamCount < t.streams.toList.length := by rwa [Vector.length_toList]
  have htake : (t.streams.toList.set t.streamCount { istream := some s, index := index }).take
      (t.streamCount + 1)
      = t.streams.toList.take t.streamCount ++ [{ istream := some s, index := index }] := by
    rw [List.take_add_one, List.take_set_of_le (Nat.le_refl _), List.getElem?_set_self hlt]
    rfl
  rw [nonNull, fillEntry, Vector.toList_setIfInBounds]
  dsimp only
  rw [htake, List.countP_append]
  rfl

/-- Clearing the entry of a stream takes one off. -/
theorem nonNull_clearEntry {i : Fin maxStreams} (hi : i.val < t.streamCount)
    (hslot : (t.slot i).isSome = true) : nonNull t = nonNull (clearEntry t i) + 1 := by
  -- the entry is among those counted
  have hlt : i.val < t.streams.toList.length := by
    rw [Vector.length_toList]
    exact i.isLt
  have hlt' : i.val < (t.streams.toList.take t.streamCount).length := by
    rw [List.length_take]
    exact Nat.lt_min.mpr ⟨hi, hlt⟩
  have hget : (t.streams.toList.take t.streamCount)[i.val] = t.streams[i] := by
    rw [List.getElem_take, Vector.getElem_toList]
    rfl
  have hsome : (t.streams[i]).istream.isSome = true := by
    rw [slot_of_lt i.isLt, Option.isSome_map] at hslot
    exact hslot
  -- it counts, and the cleared one does not
  have hpos : 0 < nonNull t :=
    List.countP_pos_iff.mpr ⟨_, List.getElem_mem hlt', by rw [hget]; exact hsome⟩
  have hclear : nonNull (clearEntry t i) = nonNull t - 1 + 0 := by
    rw [nonNull, clearEntry, Vector.toList_set]
    dsimp only
    rw [List.take_set, List.countP_set hlt', hget, if_pos hsome, if_neg (by simp)]
    rfl
  omega

/-- The invariant: `stream_avail` counts the streams. -/
structure Counted (σ : Session S) : Prop extends Filled σ where
  avail : σ.selector.toStreams.streamAvail = nonNull σ.selector.toStreams

theorem counted_init (h : Fresh sel) : Counted (init sel) := by
  refine { filled_init h with avail := ?_ }
  rw [show (init sel).selector.toStreams = emptyStreams from h.toStreams_eq]
  rfl

/-- Every step whose removes clear streams keeps the count right. -/
theorem Counted.step {e : Event S} (h : Counted σ) (hrem : RemovesLive σ e)
    (hstep : step fd σ e = some σ') : Counted σ' := by
  refine { h.toFilled.step hstep with avail := ?_ }
  cases e with
  | insert istream index =>
      obtain ⟨s, rfl, ⟨sel, hlt, -, ht, rfl⟩ | ⟨-, rfl⟩⟩ := step_insert hstep
      · -- one more, and far from wrapping
        have hle := nonNull_le σ.selector.toStreams
        dsimp only
        rw [ht, nonNull_fillEntry hlt, fillEntry, h.avail]
        exact Nat.mod_eq_of_lt (by omega)
      · exact h.avail
  | remove index =>
      obtain rfl := Option.some.inj hstep
      dsimp only
      cases hfind : findIndex σ.selector.toStreams index with
      | none =>
          rw [remove_of_not_found hfind]
          exact h.avail
      | some i =>
          have hslot := hrem i hfind
          -- an entry with a stream lies below `stream_count`
          have hi : i.val < σ.selector.toStreams.streamCount := by
            by_contra hge
            rw [h.unused i (Nat.le_of_not_lt hge)] at hslot
            exact absurd hslot (by simp)
          have hle := nonNull_le σ.selector.toStreams
          have hclear := nonNull_clearEntry hi hslot
          rw [(remove_of_found hfind).2.2]
          show sizeSub σ.selector.toStreams.streamAvail 1 = _
          rw [h.avail, sizeSub_of_le (by omega) (by omega), hclear, Nat.add_sub_cancel]
  | select w =>
      obtain ⟨index, sel, hselect, rfl⟩ := step_select hstep
      dsimp only
      rw [(select_spec hselect).1]
      exact h.avail

theorem count_eq (sel : CamioSelector S) : sel.count = sel.toStreams.streamAvail := by
  cases sel <;> rfl

/-- `insert` returns, and it fails exactly if 32 inserts have succeeded. -/
theorem Filled.insert_fails_iff (h : Filled σ) (fd : S → Int) (s : S) (index : Nat) :
    ∃ r sel', σ.selector.insert fd (some s) index = .ok (r, sel') ∧
      (r = -1 ↔ σ.inserted = maxStreams) ∧ (r ≠ -1 → r = 0) := by
  obtain ⟨r, sel', hinsert⟩ := insert_ok fd σ.selector s index
  refine ⟨r, sel', hinsert, ?_⟩
  have hle := h.count_le
  rw [h.inserted]
  obtain ⟨-, -, -, ⟨hlt, rfl, -⟩ | ⟨hge, rfl, -⟩⟩ := insert_cases hinsert
  · exact ⟨iff_of_false (by decide) (Nat.ne_of_lt hlt), fun _ => rfl⟩
  · exact ⟨iff_of_true rfl (Nat.le_antisymm hle hge), fun hne => absurd rfl hne⟩

/-- Where `remove` clears streams only, `count` is the number of streams; and in every run
    `insert` fails exactly if 32 inserts have succeeded. -/
theorem count_and_capacity {es : List (Event S)} (hsel : Fresh sel)
    (hrun : run (step fd) (init sel) es = some σ) :
    (Along (step fd) RemovesLive (init sel) es →
      σ.selector.count = nonNull σ.selector.toStreams) ∧
    (∀ s index, ∃ r sel', σ.selector.insert fd (some s) index = .ok (r, sel') ∧
      (r = -1 ↔ σ.inserted = maxStreams) ∧ (r ≠ -1 → r = 0)) := by
  refine ⟨fun hrem => ?_, (filled_of_run hsel hrun).insert_fails_iff fd⟩
  have hcounted := run_invariant_along Counted (fun _ _ _ h hP hstep => h.step hP hstep)
    (counted_init hsel) hrem hrun
  rw [count_eq]
  exact hcounted.avail

theorem count_and_capacity_one :
    ∃ σ, run (step fun _ : Unit => 3) (init (.seq camioSelectorSeqConstruct))
        [.insert (some ()) 4, .insert (some ()) 4, .remove 4] = some σ ∧
      σ.selector.count = 1 ∧ nonNull σ.selector.toStreams = 1 := by
  have hrem : Along (step fun _ : Unit => 3) RemovesLive (init (.seq camioSelectorSeqConstruct))
      [.insert (some ()) 4, .insert (some ()) 4, .remove 4] := by
    refine .cons trivial rfl (.cons trivial rfl (.cons ?_ rfl trivial))
    intro i hi
    obtain rfl : (0 : Fin maxStreams) = i := Option.some.inj hi
    rfl
  have hcount := (count_and_capacity Fresh.seq rfl).1 hrem
  exact ⟨_, rfl, rfl, hcount.symm.trans rfl⟩

/-- After 32 inserts and a remove there are 31 streams, and no insert succeeds. -/
theorem count_and_capacity_fails_reuse :
    ¬ ∀ (sel : CamioSelector Unit) (es : List (Event Unit)) (σ : Session Unit), Fresh sel →
      run (step fun _ => 3) (init sel) es = some σ →
      σ.selector.count = nonNull σ.selector.toStreams ∧
        ∀ index r sel', σ.selector.insert (fun _ => 3) (some ()) index = .ok (r, sel') →
          r ≠ 0 → nonNull σ.selector.toStreams = 32 := by
  intro hall
  -- indices 1 to 32, so that the remove meets no entry without a stream
  have hused : (run (step fun _ : Unit => 3) (init (.spin camioSelectorSpinConstruct))
      ((List.range 32).map (fun i => .insert (some ()) (i + 1)) ++ [.remove 1])).map
        (fun σ => (σ.inserted, nonNull σ.selector.toStreams)) = some (32, 31) := by
    decide +kernel
  obtain ⟨σ, hrun, hσ⟩ := Option.map_eq_some_iff.mp hused
  rw [Prod.mk.injEq] at hσ
  obtain ⟨r, sel', hinsert, hfails, -⟩ :=
    (filled_of_run Fresh.spin hrun).insert_fails_iff (fun _ => 3) () 1
  have hr : r ≠ 0 := by
    rw [hfails.mpr hσ.1]
    decide
  have hfull := (hall _ _ σ Fresh.spin hrun).2 1 r sel' hinsert hr
  rw [hσ.2] at hfull
  exact absurd hfull (by decide)

end Camio.Selector
