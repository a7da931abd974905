/-
  Camio.Selector.System

  A selector of any of the three kinds and its calls as one step function.

  The state carries, beside the selector, what its interface promises to keep: which
  stream is live under which index, that is, inserted and not removed since, and how
  many inserts have succeeded.
-/

import Camio.Lib.Run
import Camio.Selector.Selectors

namespace Camio.Selector

open Camio.Lib

variable {S : Type _}

/-- `camio_selector_t`, with the functions of the three kinds behind it. -/
inductive CamioSelector (S : Type _) where
  | spin (s : SelectorSpin S)
  | seq (s : SelectorSeq S)
  | poll (s : SelectorPoll S)

namespace CamioSelector

/-- The part that all three kinds have. -/
def toStreams : CamioSelector S → Streams S
  | .spin s => s.toStreams
  | .seq s => s.toStreams
  | .poll s => s.toStreams

def isPoll : CamioSelector S → Bool
  | .poll _ => true
  | _ => false

def insert (fd : S → Int) (sel : CamioSelector S) (istream : Option S) (index : Nat) :
    Exit (Int × CamioSelector S) :=
  match sel with
  | .spin s => (camioSelectorSpinInsert s istream index).map fun (r, s) => (r, .spin s)
  | .seq s => (camioSelectorSeqInsert s istream index).map fun (r, s) => (r, .seq s)
  | .poll s => (camioSelectorPollInsert fd s istream index).map fun (r, s) => (r, .poll s)

def remove (sel : CamioSelector S) (index : Nat) : Int × CamioSelector S :=
  match sel with
  | .spin s => ((camioSelectorSpinRemove s index).1, .spin (camioSelectorSpinRemove s index).2)
  | .seq s => ((camioSelectorSeqRemove s index).1, .seq (camioSelectorSeqRemove s index).2)
  | .poll s => ((camioSelectorPollRemove s index).1, .poll (camioSelectorPollRemove s index).2)

def count : CamioSelector S → Nat
  | .spin s => camioSelectorSpinCount s
  | .seq s => camioSelectorSeqCount s
  | .poll s => camioSelectorPollCount s

end CamioSelector

/-- What the surroundings of a `select` do: what the streams answer, for how many turns,
    and what `poll` reports. -/
structure Surroundings (S : Type _) where
  ready : Nat → S → Bool
  fuel : Nat
  poll : Option (Nat → Bool)

def Selected.map {σ τ : Type _} (f : σ → τ) : Selected σ → Selected τ
  | .returned index s => .returned index (f s)
  | .waiting => .waiting
  | .fault => .fault

def CamioSelector.select (sel : CamioSelector S) (w : Surroundings S) :
    Exit (Selected (CamioSelector S)) :=
  match sel with
  | .spin s => .ok ((camioSelectorSpinSelect s w.ready w.fuel).map .spin)
  | .seq s => .ok ((camioSelectorSeqSelect s w.ready w.fuel).map .seq)
  | .poll s => (camioSelectorPollSelect s w.poll).map (Selected.map .poll)

/-- A selector as its constructor leaves it. -/
inductive Fresh : CamioSelector S → Prop where
  | spin : Fresh (.spin camioSelectorSpinConstruct)
  | seq : Fresh (.seq camioSelectorSeqConstruct)
  | poll (fds : Vector PollFd maxStreams) : Fresh (.poll (camioSelectorPollConstruct fds))

/-! ## What a call does -/

section Calls

variable {fd : S → Int} {sel sel' : CamioSelector S} {istream : Option S} {index : Nat} {r : Int}

theorem Fresh.toStreams_eq (h : Fresh sel) : sel.toStreams = emptyStreams := by
  cases h <;> rfl

/-- With all entries used `insert` fails and changes nothing. -/
theorem insert_of_full (hfull : sel.toStreams.streamCount ≥ maxStreams) (s : S) :
    sel.insert fd (some s) index = .ok (-1, sel) := by
  have hinsert : insertStream sel.toStreams (some s) index = .ok (-1, sel.toStreams) := by
    simp only [insertStream, if_pos hfull]
  cases sel with
  | spin t =>
      simp only [CamioSelector.toStreams] at hinsert
      rw [CamioSelector.insert, camioSelectorSpinInsert, hinsert]
      rfl
  | seq t =>
      simp only [CamioSelector.toStreams] at hinsert
      rw [CamioSelector.insert, camioSelectorSeqInsert, hinsert]
      rfl
  | poll t =>
      simp only [CamioSelector.toStreams] at hinsert
      rw [CamioSelector.insert, camioSelectorPollInsert, hinsert]
      rfl

/-- Else it fills the next one. -/
theorem insert_of_room (hroom : sel.toStreams.streamCount < maxStreams) (s : S) :
    ∃ sel', sel.insert fd (some s) index = .ok (0, sel') ∧ sel'.isPoll = sel.isPoll ∧
      sel'.toStreams = fillEntry sel.toStreams s index := by
  have hinsert : insertStream sel.toStreams (some s) index
      = .ok (0, fillEntry sel.toStreams s index) := by
    simp only [insertStream, if_neg (Nat.not_le_of_lt hroom)]
  cases sel with
  | spin t =>
      simp only [CamioSelector.toStreams] at hinsert
      rw [CamioSelector.insert, camioSelectorSpinInsert, hinsert]
      exact ⟨_, rfl, rfl, rfl⟩
  | seq t =>
      simp only [CamioSelector.toStreams] at hinsert
      rw [CamioSelector.insert, camioSelectorSeqInsert, hinsert]
      exact ⟨_, rfl, rfl, rfl⟩
  | poll t =>
      simp only [CamioSelector.toStreams] at hinsert
      rw [CamioSelector.insert, camioSelectorPollInsert, hinsert]
      exact ⟨_, rfl, rfl, rfl⟩

/-- A `NULL` stream ends the program; otherwise `insert` fills the next entry, or fails
    and changes nothing. -/
theorem insert_cases (h : sel.insert fd istream index = .ok (r, sel')) :
    ∃ s, istream = some s ∧ sel'.isPoll = sel.isPoll ∧
      ((sel.toStreams.streamCount < maxStreams ∧ r = 0 ∧
          sel'.toStreams = fillEntry sel.toStreams s index) ∨
        (sel.toStreams.streamCount ≥ maxStreams ∧ r = -1 ∧ sel' = sel)) := by
  cases istream with
  | none => cases sel <;> cases h
  | some s =>
      refine ⟨s, rfl, ?_⟩
      by_cases hfull : sel.toStreams.streamCount ≥ maxStreams
      · rw [insert_of_full hfull s] at h
        cases h
        exact ⟨rfl, Or.inr ⟨hfull, rfl, rfl⟩⟩
      · have hroom := Nat.lt_of_not_le hfull
        obtain ⟨sel'', hinsert, hkind, ht⟩ := @insert_of_room S fd sel index hroom s
        rw [hinsert] at h
        cases h
        exact ⟨hkind, Or.inl ⟨hroom, rfl, ht⟩⟩

/-- `insert` of a stream returns. -/
theorem insert_ok (fd : S → Int) (sel : CamioSelector S) (s : S) (index : Nat) :
    ∃ r sel', sel.insert fd (some s) index = .ok (r, sel') := by
  by_cases hfull : sel.toStreams.streamCount ≥ maxStreams
  · exact ⟨-1, sel, insert_of_full hfull s⟩
  · obtain ⟨sel', hinsert, -⟩ := insert_of_room (Nat.lt_of_not_le hfull) s
    exact ⟨0, sel', hinsert⟩

/-- `remove` clears the first entry that carries the index. -/
theorem remove_of_found {i : Fin maxStreams} (h : findIndex sel.toStreams index = some i) :
    (sel.remove index).1 = 0 ∧ (sel.remove index).2.isPoll = sel.isPoll ∧
      (sel.remove index).2.toStreams = clearEntry sel.toStreams i := by
  cases sel <;>
    simp only [CamioSelector.toStreams] at h <;>
    simp only [CamioSelector.remove, camioSelectorSpinRemove, camioSelectorSeqRemove,
      camioSelectorPollRemove, h, CamioSelector.toStreams, CamioSelector.isPoll, and_self]

theorem remove_of_not_found (h : findIndex sel.toStreams index = none) :
    sel.remove index = (notFound index, sel) := by
  cases sel <;>
    simp only [CamioSelector.toStreams] at h <;>
    simp only [CamioSelector.remove, camioSelectorSpinRemove, camioSelectorSeqRemove,
      camioSelectorPollRemove, h]

/-- The entry that the loop ends at is a stream that is not `NULL`. -/
theorem selectLoop_slot {t : Streams S} {ready : Nat → S → Bool} {fuel turn i j : Nat}
    (h : selectLoop t ready fuel turn i = some (j, index)) : ∃ s, t.slot j = some (index, s) := by
  induction fuel generalizing turn i with
  | zero => cases h
  | succ fuel ih =>
      rw [selectLoop] at h
      split at h
      · split at h
        next index' s hslot =>
          split at h
          · cases h
            exact ⟨s, hslot⟩
          · exact ih h
        next => exact ih h
      · exact ih h

theorem pollScan_slot {s : SelectorPoll S} {n i j : Nat} (h : pollScan s n i = some (j, index)) :
    ∃ stream, s.slot j = some (index, stream) := by
  induction n generalizing i with
  | zero => cases h
  | succ n ih =>
      rw [pollScan] at h
      split at h
      next index' stream f hslot hf =>
        split at h
        · cases h
          exact ⟨stream, hslot⟩
        · exact ih h
      next => exact ih h

/-- `select` keeps the streams, and returns the index of one of them, or the poll
    selector's `~0`. -/
theorem select_spec {w : Surroundings S} (h : sel.select w = .ok (.returned index sel')) :
    sel'.toStreams = sel.toStreams ∧ sel'.isPoll = sel.isPoll ∧
      ((∃ i s, sel.toStreams.slot i = some (index, s)) ∨
        (sel.isPoll = true ∧ index = noIndex)) := by
  cases sel with
  | spin s =>
      simp only [CamioSelector.select, camioSelectorSpinSelect, Except.ok.injEq] at h
      split at h
      · cases h
      · split at h
        next i index' hloop =>
          cases h
          obtain ⟨stream, hslot⟩ := selectLoop_slot hloop
          exact ⟨rfl, rfl, Or.inl ⟨i, stream, hslot⟩⟩
        next => cases h
  | seq s =>
      simp only [CamioSelector.select, camioSelectorSeqSelect, Except.ok.injEq] at h
      split at h
      next i index' hloop =>
        cases h
        obtain ⟨stream, hslot⟩ := selectLoop_slot hloop
        exact ⟨rfl, rfl, Or.inl ⟨i, stream, hslot⟩⟩
      next => cases h
  | poll s =>
      cases hpoll : w.poll with
      | none =>
          simp only [CamioSelector.select, camioSelectorPollSelect, hpoll] at h
          cases h
      | some revents =>
          simp only [CamioSelector.select, camioSelectorPollSelect, hpoll] at h
          split at h
          · cases h
          · split at h
            next i index' hscan =>
              cases h
              obtain ⟨stream, hslot⟩ := pollScan_slot hscan
              exact ⟨rfl, rfl, Or.inl ⟨i, stream, hslot⟩⟩
            next =>
              cases h
              exact ⟨rfl, rfl, Or.inr ⟨rfl, rfl⟩⟩

end Calls

/-! ## Runs -/

/-- A selector and its history. -/
structure Session (S : Type _) where
  selector : CamioSelector S
  /-- the stream inserted under an index and not removed since -/
  live : Nat → Option S
  /-- how many inserts have returned 0 -/
  inserted : Nat

/-- The calls. -/
inductive Event (S : Type _) where
  | insert (istream : Option S) (index : Nat)
  | remove (index : Nat)
  | select (w : Surroundings S)

def init (sel : CamioSelector S) : Session S :=
  { selector := sel, live := fun _ => none, inserted := 0 }

/-- A call that ends the program or does not return is refused. -/
def step (fd : S → Int) (σ : Session S) : Event S → Option (Session S)
  | .insert istream index =>
      match σ.selector.insert fd istream index with
      | .error _ => none
      | .ok (r, sel) =>
          if r = 0 then some {
            selector := sel
            live := Function.update σ.live index istream
            inserted := σ.inserted + 1 }
          else some { σ with selector := sel }
  | .remove index => some { σ with
      selector := (σ.selector.remove index).2
      live := Function.update σ.live index none }
  | .select w =>
      match σ.selector.select w with
      | .ok (.returned _ sel) => some { σ with selector := sel }
      | _ => none

section Steps

variable {fd : S → Int} {σ σ' : Session S}

/-- `insert` makes a stream live in the next entry, or finds all of them used. -/
theorem step_insert {istream : Option S} {index : Nat}
    (h : step fd σ (.insert istream index) = some σ') :
    ∃ s, istream = some s ∧
      ((∃ sel, σ.selector.toStreams.streamCount < maxStreams ∧
          sel.isPoll = σ.selector.isPoll ∧
          sel.toStreams = fillEntry σ.selector.toStreams s index ∧
          σ' = {
            selector := sel
            live := Function.update σ.live index (some s)
            inserted := σ.inserted + 1 }) ∨
        (σ.selector.toStreams.streamCount ≥ maxStreams ∧ σ' = σ)) := by
  simp only [step] at h
  cases hinsert : σ.selector.insert fd istream index with
  | error e =>
      rw [hinsert] at h
      cases h
  | ok res =>
      obtain ⟨r, sel⟩ := res
      rw [hinsert] at h
      obtain ⟨s, rfl, hkind, ⟨hlt, rfl, ht⟩ | ⟨hge, rfl, rfl⟩⟩ := insert_cases hinsert
      · exact ⟨s, rfl, Or.inl ⟨sel, hlt, hkind, ht, (Option.some.inj h).symm⟩⟩
      · exact ⟨s, rfl, Or.inr ⟨hge, (Option.some.inj h).symm⟩⟩

/-- `select` changes no more than the selector itself. -/
theorem step_select {w : Surroundings S} (h : step fd σ (.select w) = some σ') :
    ∃ index sel, σ.selector.select w = .ok (.returned index sel) ∧
      σ' = { σ with selector := sel } := by
  simp only [step] at h
  split at h
  next index sel hselect => exact ⟨index, sel, hselect, (Option.some.inj h).symm⟩
  next => cases h

/-- A selector stays of its kind. -/
theorem step_isPoll {e : Event S} (h : step fd σ e = some σ') :
    σ'.selector.isPoll = σ.selector.isPoll := by
  cases e with
  | insert istream index =>
      obtain ⟨s, -, ⟨sel, -, hkind, -, rfl⟩ | ⟨-, rfl⟩⟩ := step_insert h
      · exact hkind
      · rfl
  | remove index =>
      obtain rfl := Option.some.inj h
      dsimp only
      cases σ.selector <;> rfl
  | select w =>
      obtain ⟨index, sel, hselect, rfl⟩ := step_select h
      exact (select_spec hselect).2.1

end Steps

/-- The invariant of every run: the entries are filled from the front, one for each
    insert, and never again. -/
structure Filled (σ : Session S) : Prop where
  count_le : σ.selector.toStreams.streamCount ≤ maxStreams
  inserted : σ.inserted = σ.selector.toStreams.streamCount
  unused : ∀ i, σ.selector.toStreams.streamCount ≤ i → σ.selector.toStreams.slot i = none

variable {fd : S → Int} {σ σ' : Session S}

theorem filled_init {sel : CamioSelector S} (h : Fresh sel) : Filled (init sel) := by
  have ht : (init sel).selector.toStreams = emptyStreams := h.toStreams_eq
  refine ⟨?_, ?_, ?_⟩
  · rw [ht]
    exact Nat.zero_le _
  · rw [ht]
    rfl
  · intro i _
    rw [ht]
    exact slot_emptyStreams i

/-- Clearing an entry keeps the others and the count. -/
theorem Filled.remove (h : Filled σ) (index : Nat) :
    Filled { σ with
      selector := (σ.selector.remove index).2
      live := Function.update σ.live index none } := by
  cases hfind : findIndex σ.selector.toStreams index with
  | none =>
      rw [remove_of_not_found hfind]
      exact { h with }
  | some i =>
      obtain ⟨-, -, ht⟩ := remove_of_found hfind
      refine ⟨?_, ?_, ?_⟩
      · rw [ht]
        exact h.count_le
      · rw [ht]
        exact h.inserted
      · intro j hj
        rw [ht] at hj ⊢
        rw [slot_clearEntry]
        by_cases hji : j = i.val
        · rw [hji, Function.update_self]
        · rw [Function.update_of_ne hji]
          exact h.unused j hj

theorem Filled.step {e : Event S} (h : Filled σ) (hstep : step fd σ e = some σ') :
    Filled σ' := by
  cases e with
  | insert istream index =>
      obtain ⟨s, rfl, ⟨sel, hlt, -, ht, rfl⟩ | ⟨-, rfl⟩⟩ := step_insert hstep
      · refine ⟨?_, ?_, ?_⟩
        · rw [ht]
          exact hlt
        · rw [ht]
          exact congrArg (· + 1) h.inserted
        · intro i hi
          rw [ht] at hi ⊢
          have hi' : σ.selector.toStreams.streamCount < i := hi
          rw [slot_fillEntry hlt, Function.update_of_ne (Nat.ne_of_gt hi')]
          exact h.unused i (Nat.le_of_lt hi')
      · exact h
  | remove index =>
      obtain rfl := Option.some.inj hstep
      exact h.remove index
  | select w =>
      obtain ⟨index, sel, hselect, rfl⟩ := step_select hstep
      have ht := (select_spec hselect).1
      exact ⟨by rw [ht]; exact h.count_le, by rw [ht]; exact h.inserted,
        by rw [ht]; exact h.unused⟩

theorem filled_of_run {sel : CamioSelector S} {es : List (Event S)} (hsel : Fresh sel)
    (hrun : run (step fd) (init sel) es = some σ) : Filled σ :=
  run_invariant Filled (fun _ _ _ h hstep => h.step hstep) (filled_init hsel) hrun

end Camio.Selector
