/-
  Camio.Selector.Agreement

  The spin and the poll selector, after the same inserts and removes.  Both look for
  the first readable stream behind the last one, but the loop of the poll selector
  ends at the last entry where that of the spin selector goes on at the first.  So the
  two agree where a stream at or behind the entry they start from is readable, and
  otherwise the poll selector returns the `~0` that it takes for unreachable.
-/

import Camio.Selector.Rotation

namespace Camio.Selector

open Camio.Lib

variable {S : Type _} {fd : S → Int} {σ σ' τ τ' : Session S} {t : Streams S} {ready : S → Bool}
  {index last i : Nat}

/-- Entry `i` is the first readable one in cyclic order behind `last`, `k` entries on. -/
structure FirstReadable (t : Streams S) (ready : S → Bool) (last i k : Nat) : Prop where
  lt : k < t.streamCount
  entry : i = (last + 1 + k) % t.streamCount
  readable : readable t ready i = true
  first : ∀ j < k, Selector.readable t ready ((last + 1 + j) % t.streamCount) = false

/-- A moment at which a stream is readable, those that are have a descriptor, and `poll`
    reports them and no others. -/
structure Snapshot (fd : S → Int) (t : Streams S) (ready : S → Bool) (revents : Nat → Bool) :
    Prop where
  exists_readable : ∃ i < t.streamCount, readable t ready i = true
  valid : ∀ {i index s}, t.slot i = some (index, s) → ready s = true → fd s ≠ -1
  reports : ∀ i < t.streamCount, revents i = readable t ready i

/-- With this value of `last` both selectors return the index of the first readable
    stream, which is not `~0`. -/
def Agree (s : SelectorSpin S) (p : SelectorPoll S) (ready : S → Bool) (revents : Nat → Bool)
    (last : Nat) : Prop :=
  ∃ i k index, FirstReadable s.toStreams ready last i k ∧
    (s.toStreams.slot i).map Prod.fst = some index ∧ index ≠ noIndex ∧
    (∀ fuel, s.streamCount < fuel →
      camioSelectorSpinSelect { s with last := last } (fun _ => ready) fuel
        = .returned index { s with last := i }) ∧
    ∃ p', camioSelectorPollSelect { p with last := last } (some revents)
      = .ok (.returned index p')

/-- A stream at or behind the first entry is readable, and the first such one does not
    carry the index `~0`. -/
def ReadableBehind (t : Streams S) (ready : S → Bool) (last : Nat) : Prop :=
  ∃ i index s, firstEntry t last ≤ i ∧ i < t.streamCount ∧ t.slot i = some (index, s) ∧
    ready s = true ∧ index ≠ noIndex ∧
    ∀ j, firstEntry t last ≤ j → j < i → readable t ready j = false

/-! ## Going round the entries -/

theorem entry_of_lt {k : Nat} (h : firstEntry t last + k < t.streamCount) :
    (last + 1 + k) % t.streamCount = firstEntry t last + k := by
  rw [← Nat.mod_add_mod]
  exact Nat.mod_eq_of_lt h

theorem entry_of_ge {k : Nat} (h : t.streamCount ≤ firstEntry t last + k) (hk : k < t.streamCount) :
    (last + 1 + k) % t.streamCount = firstEntry t last + k - t.streamCount := by
  have hfirst : firstEntry t last < t.streamCount := Nat.mod_lt _ (by omega)
  rw [← Nat.mod_add_mod, ← firstEntry, Nat.mod_eq_sub_mod h]
  exact Nat.mod_eq_of_lt (by omega)

/-- The first readable entry lies behind the first one, with none before it, or before
    it, with none behind it. -/
theorem FirstReadable.cases {k : Nat} (h : FirstReadable t ready last i k) :
    i < t.streamCount ∧
    ((i = firstEntry t last + k ∧
        ∀ j, firstEntry t last ≤ j → j < i → Selector.readable t ready j = false) ∨
      (i < firstEntry t last ∧
        (∀ j, firstEntry t last ≤ j → j < t.streamCount → Selector.readable t ready j = false) ∧
        ∀ j < i, Selector.readable t ready j = false)) := by
  have hk := h.lt
  have hentry := h.entry
  have hfirst : firstEntry t last < t.streamCount := Nat.mod_lt _ (by omega)
  by_cases hlt : firstEntry t last + k < t.streamCount
  · rw [entry_of_lt hlt] at hentry
    refine ⟨by omega, Or.inl ⟨hentry, fun j hj hji => ?_⟩⟩
    have hj' := h.first (j - firstEntry t last) (by omega)
    rwa [entry_of_lt (by omega), Nat.add_sub_cancel' hj] at hj'
  · rw [entry_of_ge (by omega) hk] at hentry
    refine ⟨by omega, Or.inr ⟨by omega, fun j hj hjc => ?_, fun j hji => ?_⟩⟩
    · have hj' := h.first (j - firstEntry t last) (by omega)
      rwa [entry_of_lt (by omega), Nat.add_sub_cancel' hj] at hj'
    · have hj' := h.first (j + t.streamCount - firstEntry t last) (by omega)
      rw [entry_of_ge (by omega) (by omega)] at hj'
      rwa [show firstEntry t last + (j + t.streamCount - firstEntry t last) - t.streamCount = j by
        omega] at hj'

/-! ## The spin selector -/

/-- `select` returns the index of the first readable stream. -/
theorem spinSelect_first {s : SelectorSpin S} {stream : S} {k fuel : Nat}
    (hfirst : FirstReadable s.toStreams ready last i k)
    (hslot : s.toStreams.slot i = some (index, stream)) (hfuel : s.streamCount < fuel) :
    camioSelectorSpinSelect { s with last := last } (fun _ => ready) fuel
      = .returned index { s with last := i } := by
  have hpos : 0 < s.streamCount := Nat.zero_lt_of_lt hfirst.lt
  have hready : answers s.toStreams (fun _ => ready) last k = true := by
    rw [answers, entryAsked, ← hfirst.entry]
    exact hfirst.readable
  have hturn := @turnAsked_le S s.toStreams last k hfirst.lt
  have hk := hfirst.lt
  have hloop := @selectLoop_first S s.toStreams (fun _ => ready) last k fuel index i stream
    ⟨hfirst.entry, hready, hfirst.first⟩ hslot hpos (by omega)
  rw [firstEntry] at hloop
  rw [camioSelectorSpinSelect, if_neg (Nat.pos_iff_ne_zero.mp hpos)]
  dsimp only
  rw [hloop]

/-! ## The poll selector -/

/-- The descriptors are those of the streams. -/
def HoldsFds (fd : S → Int) (p : SelectorPoll S) : Prop :=
  ∀ i index s, p.slot i = some (index, s) → ∃ f, p.fds[i]? = some f ∧ f.fd = fd s

section Poll

variable {p : SelectorPoll S} {revents : Nat → Bool}

/-- What the loop finds in an entry after `poll`. -/
theorem pollReport_getElem? {f : PollFd} (hi : i < p.streamCount) (hf : p.fds[i]? = some f) :
    (pollReport p revents).fds[i]? = some { f with revents := revents i } := by
  rw [pollReport, Vector.getElem?_mapIdx, hf, Option.map_some, if_pos hi]

theorem pollScan_at {s : S} (hfds : HoldsFds fd p)
    (hsnap : Snapshot fd p.toStreams ready revents) (hi : i < p.streamCount)
    (hslot : p.slot i = some (index, s)) (hready : ready s = true) (n : Nat) :
    pollScan (pollReport p revents) (n + 1) i = some (i, index) := by
  obtain ⟨f, hf, hfd⟩ := hfds _ _ _ hslot
  have hrev : revents i = true := by
    rw [hsnap.reports i hi]
    exact readable_iff.mpr ⟨index, s, hslot, hready⟩
  rw [pollScan, pollReport_getElem? hi hf, show (pollReport p revents).slot i = _ from hslot]
  exact if_pos ⟨by rw [hfd]; exact hsnap.valid hslot hready, hrev⟩

/-- The loop passes entries that are not readable. -/
theorem pollScan_skip {n : Nat} (hfds : HoldsFds fd p)
    (hsnap : Snapshot fd p.toStreams ready revents) (hn : i + n ≤ p.streamCount)
    (hnot : ∀ j, i ≤ j → j < i + n → readable p.toStreams ready j = false) (m : Nat) :
    pollScan (pollReport p revents) (n + m) i = pollScan (pollReport p revents) m (i + n) := by
  induction n generalizing i with
  | zero => rw [Nat.zero_add, Nat.add_zero]
  | succ n ih =>
      have hnext := ih (i := i + 1) (by omega) (fun j hj hjn => hnot j (by omega) (by omega))
      have hrev : revents i = false := by
        rw [hsnap.reports i (by omega)]
        exact hnot i (Nat.le_refl _) (by omega)
      rw [Nat.add_right_comm n 1 m, pollScan, Nat.add_comm n 1, ← Nat.add_assoc, ← hnext]
      cases hslot : p.slot i with
      | none => rw [show (pollReport p revents).slot i = _ from hslot]
      | some e =>
          obtain ⟨f, hf, -⟩ := hfds _ _ _ hslot
          rw [show (pollReport p revents).slot i = _ from hslot,
            pollReport_getElem? (by omega) hf]
          exact if_neg (by simp [hrev])

theorem pollSelect_eq (hpos : p.streamCount ≠ 0) :
    camioSelectorPollSelect p (some revents)
      = match pollScan (pollReport p revents)
          (p.streamCount - firstEntry p.toStreams p.last) (firstEntry p.toStreams p.last) with
        | some (i, index) => .ok (.returned index { pollReport p revents with last := i })
        | none => .ok (.returned noIndex (pollReport p revents)) := by
  rw [camioSelectorPollSelect]
  exact if_neg hpos

/-- `select` returns the index of the first readable stream at or behind the first entry. -/
theorem pollSelect_first {s : S} (hfds : HoldsFds fd p)
    (hsnap : Snapshot fd p.toStreams ready revents) (hi : firstEntry p.toStreams p.last ≤ i)
    (hcount : i < p.streamCount) (hslot : p.slot i = some (index, s)) (hready : ready s = true)
    (hnot : ∀ j, firstEntry p.toStreams p.last ≤ j → j < i →
      readable p.toStreams ready j = false) :
    ∃ p', camioSelectorPollSelect p (some revents) = .ok (.returned index p') := by
  have hscan : pollScan (pollReport p revents)
      (p.streamCount - firstEntry p.toStreams p.last) (firstEntry p.toStreams p.last)
      = some (i, index) := by
    obtain ⟨k, rfl⟩ := Nat.exists_eq_add_of_le hi
    obtain ⟨m, hm⟩ := Nat.exists_eq_add_of_lt hcount
    rw [show p.streamCount - firstEntry p.toStreams p.last = k + (m + 1) by omega,
      pollScan_skip hfds hsnap (Nat.le_of_lt hcount) hnot]
    exact pollScan_at hfds hsnap hcount hslot hready m
  rw [pollSelect_eq (by omega), hscan]
  exact ⟨_, rfl⟩

/-- Without such a stream it returns `~0`. -/
theorem pollSelect_none (hfds : HoldsFds fd p)
    (hsnap : Snapshot fd p.toStreams ready revents) (hlast : p.last < p.streamCount)
    (hnot : ∀ j, firstEntry p.toStreams p.last ≤ j → j < p.streamCount →
      readable p.toStreams ready j = false) :
    ∃ p', camioSelectorPollSelect p (some revents) = .ok (.returned noIndex p') := by
  have hfirst : firstEntry p.toStreams p.last < p.streamCount := Nat.mod_lt _ (by omega)
  have hscan : pollScan (pollReport p revents)
      (p.streamCount - firstEntry p.toStreams p.last) (firstEntry p.toStreams p.last)
      = none := by
    rw [← Nat.add_zero (p.streamCount - firstEntry p.toStreams p.last),
      pollScan_skip hfds hsnap (by omega) (fun j hj hjc => hnot j hj (by omega))]
    rfl
  rw [pollSelect_eq (by omega), hscan]
  exact ⟨_, rfl⟩

end Poll

/-! ## Where they agree -/

/-- Selectors with the same streams agree at a moment exactly if one of these is readable
    before the loop of the poll selector ends. -/
theorem agree_iff_of_streams {s : SelectorSpin S} {p : SelectorPoll S} {revents : Nat → Bool}
    (heq : p.toStreams = s.toStreams) (hfds : HoldsFds fd p)
    (hsnap : Snapshot fd s.toStreams ready revents) (hlast : last < s.streamCount) :
    Agree s p ready revents last ↔ ReadableBehind s.toStreams ready last := by
  have hsnap' : Snapshot fd p.toStreams ready revents := by rwa [heq]
  have hcount : p.streamCount = s.streamCount := congrArg Streams.streamCount heq
  have hlast' : last < p.streamCount := by omega
  constructor
  · rintro ⟨i, k, index, hfirst, hindex, hne, -, p', hpoll⟩
    obtain ⟨index', stream, hslot, hready⟩ := readable_iff.mp hfirst.readable
    rw [hslot, Option.map_some, Option.some.injEq] at hindex
    obtain rfl : index' = index := hindex
    obtain ⟨hic, ⟨hik, hnot⟩ | ⟨-, hbehind, -⟩⟩ := hfirst.cases
    · exact ⟨i, index', stream, by omega, hic, hslot, hready, hne, hnot⟩
    · -- the loop ends without an entry
      obtain ⟨p'', hnone⟩ := pollSelect_none (p := { p with last := last }) hfds hsnap'
        hlast' (by rw [← heq] at hbehind; exact hbehind)
      rw [hpoll] at hnone
      cases hnone
      exact absurd rfl hne
  · rintro ⟨i, index, stream, hi, hic, hslot, hready, hne, hnot⟩
    have hread := readable_iff.mpr ⟨index, stream, hslot, hready⟩
    have hentry : i = (last + 1 + (i - firstEntry s.toStreams last)) % s.streamCount := by
      rw [entry_of_lt (by omega)]
      omega
    have hfirst : FirstReadable s.toStreams ready last i (i - firstEntry s.toStreams last) := by
      refine ⟨by omega, hentry, hread, fun j hj => ?_⟩
      rw [entry_of_lt (by omega)]
      exact hnot _ (by omega) (by omega)
    refine ⟨i, _, index, hfirst, by rw [hslot, Option.map_some], hne,
      fun fuel hfuel => spinSelect_first hfirst hslot hfuel, ?_⟩
    rw [← hcount] at hic
    rw [← heq] at hi hslot hnot
    exact pollSelect_first (p := { p with last := last }) hfds hsnap' hi hic hslot hready hnot

/-! ## The same inserts and removes -/

/-- An `insert` or a `remove`. -/
def Event.IsEdit : Event S → Prop
  | .select _ => False
  | _ => True

/-- What a call does to the streams does not depend on the kind of the selector. -/
theorem step_sameStreams {e : Event S} (he : e.IsEdit)
    (heq : σ.selector.toStreams = τ.selector.toStreams) (hσ : step fd σ e = some σ')
    (hτ : step fd τ e = some τ') : σ'.selector.toStreams = τ'.selector.toStreams := by
  cases e with
  | insert istream index =>
      obtain ⟨s, hs, hcase⟩ := step_insert hσ
      obtain ⟨s', hs', hcase'⟩ := step_insert hτ
      obtain rfl := Option.some.inj (hs.symm.trans hs')
      obtain ⟨sel, hlt, -, ht, rfl⟩ | ⟨hge, rfl⟩ := hcase <;>
        obtain ⟨sel', hlt', -, ht', rfl⟩ | ⟨hge', rfl⟩ := hcase'
      · rw [ht, ht', heq]
      · rw [heq] at hlt
        omega
      · rw [heq] at hge
        omega
      · exact heq
  | remove index =>
      obtain rfl := Option.some.inj hσ
      obtain rfl := Option.some.inj hτ
      dsimp only
      cases hfind : findIndex σ.selector.toStreams index with
      | none =>
          rw [remove_of_not_found hfind, remove_of_not_found (heq ▸ hfind)]
          exact heq
      | some i =>
          rw [(remove_of_found hfind).2.2, (remove_of_found (heq ▸ hfind)).2.2, heq]
  | select w => exact he.elim

theorem run_sameStreams {es : List (Event S)} (hes : ∀ e ∈ es, e.IsEdit)
    (heq : σ.selector.toStreams = τ.selector.toStreams) (hσ : run (step fd) σ es = some σ')
    (hτ : run (step fd) τ es = some τ') : σ'.selector.toStreams = τ'.selector.toStreams := by
  induction es generalizing σ τ with
  | nil =>
      obtain rfl := Option.some.inj hσ
      obtain rfl := Option.some.inj hτ
      exact heq
  | cons e es ih =>
      obtain ⟨m, hm, hrest⟩ := run_cons_eq_some.mp hσ
      obtain ⟨m', hm', hrest'⟩ := run_cons_eq_some.mp hτ
      have heq' := step_sameStreams (hes e List.mem_cons_self) heq hm hm'
      exact ih (fun e he => hes e (List.mem_cons_of_mem _ he)) heq' hrest hrest'

/-- The invariant of the poll selector: each stream has its descriptor beside it. -/
def FdsKept (fd : S → Int) (σ : Session S) : Prop :=
  ∀ p, σ.selector = .poll p → HoldsFds fd p

theorem HoldsFds.insert {p : SelectorPoll S} (h : HoldsFds fd p) (istream : Option S)
    {r : Int} {p' : SelectorPoll S}
    (hinsert : camioSelectorPollInsert fd p istream index = .ok (r, p')) : HoldsFds fd p' := by
  cases istream with
  | none => cases hinsert
  | some s =>
      rw [camioSelectorPollInsert, insertStream] at hinsert
      dsimp only at hinsert
      by_cases hfull : p.streamCount ≥ maxStreams
      · rw [if_pos hfull] at hinsert
        cases hinsert
        exact h
      · rw [if_neg hfull] at hinsert
        cases hinsert
        have hlt := Nat.lt_of_not_le hfull
        intro j index' s' hslot
        rw [show Streams.slot _ j = (fillEntry p.toStreams s index).slot j from rfl,
          slot_fillEntry hlt] at hslot
        dsimp only
        rw [Vector.getElem?_mapIdx]
        by_cases hj : j = p.streamCount
        · subst hj
          rw [Function.update_self] at hslot
          cases hslot
          rw [Vector.getElem?_eq_getElem hlt, Option.map_some, if_pos rfl]
          exact ⟨_, rfl, rfl⟩
        · rw [Function.update_of_ne hj] at hslot
          obtain ⟨f, hf, hfd⟩ := h _ _ _ hslot
          rw [hf, Option.map_some, if_neg hj]
          exact ⟨f, rfl, hfd⟩

theorem HoldsFds.remove {p : SelectorPoll S} (h : HoldsFds fd p) (index : Nat) :
    HoldsFds fd (camioSelectorPollRemove p index).2 := by
  rw [camioSelectorPollRemove]
  cases hfind : findIndex p.toStreams index with
  | none => exact h
  | some i =>
      intro j index' s hslot
      rw [show Streams.slot _ j = (clearEntry p.toStreams i).slot j from rfl,
        slot_clearEntry] at hslot
      by_cases hj : j = i.val
      · rw [hj, Function.update_self] at hslot
        cases hslot
      · rw [Function.update_of_ne hj] at hslot
        dsimp only
        rw [Vector.getElem?_set_ne _ (Ne.symm hj)]
        exact h _ _ _ hslot

theorem FdsKept.step {e : Event S} (he : e.IsEdit) (h : FdsKept fd σ)
    (hstep : step fd σ e = some σ') : FdsKept fd σ' := by
  intro p' hp'
  obtain ⟨sel, live, inserted⟩ := σ
  have hkind := step_isPoll hstep
  rw [hp'] at hkind
  cases sel with
  | spin s => cases hkind
  | seq s => cases hkind
  | poll p =>
      have hp := h p rfl
      cases e with
      | insert istream index =>
          simp only [Selector.step, CamioSelector.insert] at hstep
          cases hinsert : camioSelectorPollInsert fd p istream index with
          | error e =>
              rw [hinsert] at hstep
              cases hstep
          | ok res =>
              obtain ⟨r, p''⟩ := res
              have hkept := hp.insert istream hinsert
              simp only [hinsert, Except.map] at hstep
              split at hstep <;>
                obtain rfl := Option.some.inj hstep <;>
                cases hp' <;>
                exact hkept
      | remove index =>
          obtain rfl := Option.some.inj hstep
          cases hp'
          exact hp.remove index
      | select w => exact he.elim

theorem fdsKept_of_run {es : List (Event S)} (hes : ∀ e ∈ es, e.IsEdit) (h : FdsKept fd σ)
    (hrun : run (step fd) σ es = some σ') : FdsKept fd σ' :=
  run_invariant_along (FdsKept fd) (fun _ _ _ h he hstep => h.step he hstep) h
    (along_of_forall fun _ e he => hes e he) hrun

theorem fdsKept_init (fds : Vector PollFd maxStreams) :
    FdsKept fd (init (.poll (camioSelectorPollConstruct fds) : CamioSelector S)) := by
  intro p hp i index s hslot
  cases hp
  exact absurd ((slot_emptyStreams i).symm.trans hslot) nofun

/-- A spin and a poll selector that the same inserts and removes have led to agree at a
    moment exactly if a stream at or behind the first entry is readable. -/
theorem select_agree_iff {fds : Vector PollFd maxStreams} {es : List (Event S)}
    {s : SelectorSpin S} {p : SelectorPoll S} {revents : Nat → Bool}
    (hes : ∀ e ∈ es, e.IsEdit)
    (hspin : run (step fd) (init (.spin camioSelectorSpinConstruct)) es = some σ)
    (hpoll : run (step fd) (init (.poll (camioSelectorPollConstruct fds))) es = some τ)
    (hs : σ.selector = .spin s) (hp : τ.selector = .poll p) (hlast : last < s.streamCount)
    (hsnap : Snapshot fd s.toStreams ready revents) :
    Agree s p ready revents last ↔ ReadableBehind s.toStreams ready last := by
  have heq : τ.selector.toStreams = σ.selector.toStreams :=
    (run_sameStreams hes (by rfl) hspin hpoll).symm
  rw [hs, hp] at heq
  exact agree_iff_of_streams heq (fdsKept_of_run hes (fdsKept_init fds) hpoll p hp) hsnap hlast

/-- The inserts of two streams, readable or not. -/
def insertTwo (first second : Bool) : List (Event Bool) :=
  [.insert (some first) 7, .insert (some second) 8]

theorem insertTwo_isEdit (first second : Bool) : ∀ e ∈ insertTwo first second, e.IsEdit := by
  simp [insertTwo, Event.IsEdit]

theorem select_agree_second : ∃ s p,
    (run (step fun _ : Bool => 3) (init (.spin camioSelectorSpinConstruct))
      (insertTwo false true)).map (·.selector) = some (.spin s) ∧
    (run (step fun _ : Bool => 3)
      (init (.poll (camioSelectorPollConstruct (Vector.replicate _ ⟨0, false, false⟩))))
      (insertTwo false true)).map (·.selector) = some (.poll p) ∧
    Agree s p id (fun i => decide (i = 1)) 0 := by
  have hspin : run (step fun _ : Bool => 3) (init (.spin camioSelectorSpinConstruct))
      (insertTwo false true) = some _ := rfl
  have hpoll : run (step fun _ : Bool => 3)
      (init (.poll (camioSelectorPollConstruct (Vector.replicate _ ⟨0, false, false⟩))))
      (insertTwo false true) = some _ := rfl
  refine ⟨_, _, rfl, rfl, (select_agree_iff (insertTwo_isEdit false true) hspin hpoll rfl rfl
    (by decide) ⟨⟨1, by decide, rfl⟩, fun _ _ => by decide, ?_⟩).mpr
      ⟨1, 8, true, by decide, by decide, rfl, rfl, by decide, ?_⟩⟩
  · intro i (hi : i < 2)
    obtain rfl | rfl : i = 0 ∨ i = 1 := by omega
    · rfl
    · rfl
  · intro j (hj : 1 ≤ j) hj'
    omega

/-- With the first of two streams readable and `last` 0, the poll selector starts from the
    second and returns `~0`. -/
theorem select_agree_fails_wrapped :
    ¬ ∀ (fds : Vector PollFd maxStreams) (es : List (Event Bool)) (σ τ : Session Bool)
      (s : SelectorSpin Bool) (p : SelectorPoll Bool) (ready : Bool → Bool)
      (revents : Nat → Bool) (last : Nat), (∀ e ∈ es, e.IsEdit) →
      run (step fun _ => 3) (init (.spin camioSelectorSpinConstruct)) es = some σ →
      run (step fun _ => 3) (init (.poll (camioSelectorPollConstruct fds))) es = some τ →
      σ.selector = .spin s → τ.selector = .poll p → last < s.streamCount →
      Snapshot (fun _ => 3) s.toStreams ready revents → Agree s p ready revents last := by
  intro hall
  obtain ⟨i, k, index, -, -, hne, -, p', hpoll⟩ :=
    hall (Vector.replicate _ ⟨0, false, false⟩) (insertTwo true false) _ _ _ _ id
      (fun i => decide (i = 0)) 0 (insertTwo_isEdit true false) rfl rfl rfl rfl (by decide)
      ⟨⟨0, by decide, rfl⟩, fun _ _ => by decide, fun i (hi : i < 2) => by
        obtain rfl | rfl : i = 0 ∨ i = 1 := by omega
        · rfl
        · rfl⟩
  cases hpoll
  exact hne rfl

end Camio.Selector
