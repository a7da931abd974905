/-
  Camio.Selector.Rotation

  The loop of the spin selector, from the entry behind `last` round and round over all of
  them.

  It asks entry `(last + 1 + k) % stream_count` as the `k`-th, in a turn of its own; one
  more turn goes by whenever it passes the end.  What a stream answers may change from turn
  to turn, and the loop ends at the first that answers ready when it is asked.
-/

import Mathlib.Data.Nat.Find
import Camio.Selector.System

namespace Camio.Selector

open Camio.Lib

variable {S : Type _} {t : Streams S} {ready : Nat → S → Bool} {last i k fuel index : Nat}

/-- Entry `i` is a stream that is readable. -/
def readable (t : Streams S) (ready : S → Bool) (i : Nat) : Bool :=
  (t.slot i).any fun e => ready e.2

/-- The entry that both selectors start from. -/
def firstEntry (t : Streams S) (last : Nat) : Nat := (last + 1) % t.streamCount

/-- The entry that is asked as the `k`-th, counted from 0. -/
def entryAsked (t : Streams S) (last k : Nat) : Nat := (last + 1 + k) % t.streamCount

/-- The turn in which it is. -/
def turnAsked (t : Streams S) (last k : Nat) : Nat :=
  k + (firstEntry t last + k) / t.streamCount

/-- The `k`-th entry is a stream that answers ready. -/
def answers (t : Streams S) (ready : Nat → S → Bool) (last k : Nat) : Bool :=
  readable t (ready (turnAsked t last k)) (entryAsked t last k)

/-- Entry `i` is the first in cyclic order behind `last` that answers ready, asked as the
    `k`-th. -/
structure FirstReady (t : Streams S) (ready : Nat → S → Bool) (last i k : Nat) : Prop where
  entry : i = entryAsked t last k
  answers : answers t ready last k = true
  first : ∀ m < k, Selector.answers t ready last m = false

theorem readable_iff {ready : S → Bool} : readable t ready i = true ↔
    ∃ index s, t.slot i = some (index, s) ∧ ready s = true := by
  rw [readable, Option.any_eq_true]
  constructor
  · rintro ⟨⟨index, s⟩, hslot, hready⟩
    exact ⟨index, s, hslot, hready⟩
  · rintro ⟨index, s, hslot, hready⟩
    exact ⟨(index, s), hslot, hready⟩

/-! ## From one entry to the next -/

section Entries

theorem entryAsked_eq : entryAsked t last k = (firstEntry t last + k) % t.streamCount := by
  rw [entryAsked, firstEntry, Nat.mod_add_mod]

theorem entryAsked_lt (hpos : 0 < t.streamCount) : entryAsked t last k < t.streamCount :=
  Nat.mod_lt _ hpos

theorem turnAsked_zero (hpos : 0 < t.streamCount) : turnAsked t last 0 = 0 := by
  rw [turnAsked, Nat.add_zero, Nat.zero_add]
  exact Nat.div_eq_of_lt (Nat.mod_lt _ hpos)

theorem le_turnAsked : k ≤ turnAsked t last k := Nat.le_add_right _ _

theorem turnAsked_mono {m : Nat} (h : m ≤ k) : turnAsked t last m ≤ turnAsked t last k :=
  Nat.add_le_add h (Nat.div_le_div_right (Nat.add_le_add_left h _))

/-- In the first round no more than one turn is spent on going round. -/
theorem turnAsked_le (hk : k < t.streamCount) : turnAsked t last k ≤ k + 1 := by
  have hfirst : firstEntry t last < t.streamCount := Nat.mod_lt _ (by omega)
  exact Nat.add_le_add_left (Nat.le_of_lt_succ (Nat.div_lt_of_lt_mul (by omega))) k

/-- The next entry, or the first again, a turn later. -/
theorem next_asked (hpos : 0 < t.streamCount) :
    (entryAsked t last k + 1 < t.streamCount ∧
        entryAsked t last (k + 1) = entryAsked t last k + 1 ∧
        turnAsked t last (k + 1) = turnAsked t last k + 1) ∨
      (entryAsked t last k + 1 = t.streamCount ∧ entryAsked t last (k + 1) = 0 ∧
        turnAsked t last (k + 1) = turnAsked t last k + 2) := by
  have hlt := @entryAsked_lt S t last k hpos
  have hsplit := Nat.mod_add_div (firstEntry t last + k) t.streamCount
  rw [← entryAsked_eq] at hsplit
  rw [turnAsked, turnAsked, @entryAsked_eq S t last (k + 1), ← Nat.add_assoc]
  by_cases hend : entryAsked t last k + 1 < t.streamCount
  · obtain ⟨hdiv, hmod⟩ := (Nat.div_mod_unique hpos).mpr
      ⟨by rw [Nat.add_right_comm, hsplit], hend⟩
    rw [hdiv, hmod]
    exact Or.inl ⟨hend, rfl, by omega⟩
  · have hround : 0 + t.streamCount * ((firstEntry t last + k) / t.streamCount + 1)
        = firstEntry t last + k + 1 := by
      rw [Nat.mul_succ]
      omega
    obtain ⟨hdiv, hmod⟩ := (Nat.div_mod_unique hpos).mpr ⟨hround, hpos⟩
    rw [hdiv, hmod]
    exact Or.inr ⟨by omega, rfl, by omega⟩

end Entries

/-! ## The loop -/

section Loop

/-- An entry that does not answer ready is passed. -/
theorem selectLoop_pass (hpos : 0 < t.streamCount) (hno : answers t ready last k = false)
    (fuel : Nat) :
    selectLoop t ready (fuel + (turnAsked t last (k + 1) - turnAsked t last k))
        (turnAsked t last k) (entryAsked t last k)
      = selectLoop t ready fuel (turnAsked t last (k + 1)) (entryAsked t last (k + 1)) := by
  have hstep : ∀ n, selectLoop t ready (n + 1) (turnAsked t last k) (entryAsked t last k)
      = selectLoop t ready n (turnAsked t last k + 1) (entryAsked t last k + 1) := by
    intro n
    rw [selectLoop, if_pos (entryAsked_lt hpos)]
    cases hslot : t.slot (entryAsked t last k) with
    | none => rfl
    | some e =>
        obtain ⟨index, s⟩ := e
        rw [answers, readable, hslot] at hno
        exact if_neg (by simpa using hno)
  obtain ⟨-, hentry, hturn⟩ | ⟨hend, hentry, hturn⟩ := @next_asked S t last k hpos
  · rw [hentry, hturn, Nat.add_sub_cancel_left]
    exact hstep fuel
  · -- behind the last entry the loop goes round
    rw [hentry, hturn, Nat.add_sub_cancel_left, hstep, selectLoop, hend,
      if_neg (Nat.lt_irrefl _)]

/-- Those before the `k`-th are passed in so many turns. -/
theorem selectLoop_skip (hpos : 0 < t.streamCount)
    (hno : ∀ m < k, answers t ready last m = false) (fuel : Nat) :
    selectLoop t ready (fuel + turnAsked t last k) 0 (firstEntry t last)
      = selectLoop t ready fuel (turnAsked t last k) (entryAsked t last k) := by
  induction k generalizing fuel with
  | zero =>
      rw [turnAsked_zero hpos]
      rfl
  | succ k ih =>
      have hle : turnAsked t last k ≤ turnAsked t last (k + 1) := turnAsked_mono (Nat.le_succ k)
      have hsplit : fuel + turnAsked t last (k + 1)
          = fuel + (turnAsked t last (k + 1) - turnAsked t last k) + turnAsked t last k := by omega
      rw [hsplit, ih (fun m hm => hno m (Nat.lt_succ_of_lt hm)),
        selectLoop_pass hpos (hno k (Nat.lt_succ_self k))]

/-- The loop ends at the first entry that answers ready. -/
theorem selectLoop_first {i : Nat} {s : S} (hfirst : FirstReady t ready last i k)
    (hslot : t.slot i = some (index, s)) (hpos : 0 < t.streamCount)
    (hfuel : turnAsked t last k < fuel) :
    selectLoop t ready fuel 0 (firstEntry t last) = some (i, index) := by
  obtain ⟨n, rfl⟩ := Nat.exists_eq_add_of_le' hfuel
  obtain ⟨rfl, hready, hno⟩ := hfirst
  rw [answers, readable, hslot] at hready
  rw [Nat.add_succ, ← Nat.succ_add, selectLoop_skip hpos hno, selectLoop,
    if_pos (entryAsked_lt hpos), hslot]
  exact if_pos hready

theorem selectLoop_mono {turn i : Nat} {r : Nat × Nat}
    (h : selectLoop t ready fuel turn i = some r) (n : Nat) :
    selectLoop t ready (fuel + n) turn i = some r := by
  induction fuel generalizing turn i with
  | zero => cases h
  | succ fuel ih =>
      rw [selectLoop] at h
      rw [Nat.succ_add, selectLoop]
      split at h
      next hlt =>
        rw [if_pos hlt]
        split at h
        next index s hslot =>
          split at h
          next hready =>
            rw [if_pos hready]
            exact h
          next hready =>
            rw [if_neg hready]
            exact ih h
        next hslot => exact ih h
      next hlt =>
        rw [if_neg hlt]
        exact ih h

/-- As long as none has, it goes on. -/
theorem selectLoop_none (hpos : 0 < t.streamCount)
    (hno : ∀ m < k, answers t ready last m = false) (hfuel : fuel ≤ turnAsked t last k) :
    selectLoop t ready fuel 0 (firstEntry t last) = none := by
  cases hloop : selectLoop t ready fuel 0 (firstEntry t last) with
  | none => rfl
  | some r =>
      obtain ⟨n, hn⟩ := Nat.exists_eq_add_of_le hfuel
      have hmore := selectLoop_mono hloop n
      rw [← hn, ← Nat.zero_add (turnAsked t last k), selectLoop_skip hpos hno] at hmore
      cases hmore

end Loop

/-- `select` of the spin selector returns the index of the first entry in cyclic order that
    answers ready, once it has asked it. -/
theorem spinSelect_cases {s : SelectorSpin S} (hpos : 0 < s.streamCount) (fuel : Nat) :
    (camioSelectorSpinSelect s ready fuel = .waiting ∧
        ∀ k, turnAsked s.toStreams s.last k < fuel → answers s.toStreams ready s.last k = false) ∨
      ∃ i k index stream, FirstReady s.toStreams ready s.last i k ∧
        s.toStreams.slot i = some (index, stream) ∧
        turnAsked s.toStreams s.last k < fuel ∧
        camioSelectorSpinSelect s ready fuel = .returned index { s with last := i } := by
  have hselect : camioSelectorSpinSelect s ready fuel = _ := if_neg (Nat.pos_iff_ne_zero.mp hpos)
  have hentry : (s.last + 1) % s.streamCount = firstEntry s.toStreams s.last := rfl
  rw [hentry] at hselect
  by_cases hsome : ∃ k, answers s.toStreams ready s.last k = true
  · have hready := Nat.find_spec hsome
    have hno : ∀ m < Nat.find hsome, answers s.toStreams ready s.last m = false :=
      fun m hm => Bool.eq_false_iff.mpr (Nat.find_min hsome hm)
    by_cases hfuel : turnAsked s.toStreams s.last (Nat.find hsome) < fuel
    · have hfirst : FirstReady s.toStreams ready s.last _ (Nat.find hsome) := ⟨rfl, hready, hno⟩
      obtain ⟨index, stream, hslot, -⟩ := readable_iff.mp hready
      refine Or.inr ⟨_, _, index, stream, hfirst, hslot, hfuel, ?_⟩
      rw [hselect, selectLoop_first hfirst hslot hpos hfuel]
    · refine Or.inl ⟨?_, fun k hk => hno k ?_⟩
      · rw [hselect, selectLoop_none hpos hno (Nat.le_of_not_lt hfuel)]
      · exact Nat.lt_of_not_le fun hle =>
          hfuel (Nat.lt_of_le_of_lt (turnAsked_mono hle) hk)
  · have hno : ∀ k, answers s.toStreams ready s.last k = false :=
      fun k => Bool.eq_false_iff.mpr fun hready => hsome ⟨k, hready⟩
    refine Or.inl ⟨?_, fun k _ => hno k⟩
    rw [hselect, selectLoop_none hpos (fun m (_ : m < fuel) => hno m) le_turnAsked]

end Camio.Selector
