/-
  Camio.Timeout.Spacing

  When the fast timer fires, over whole runs.

  The aim is always the last firing, or the time of `open`, plus the period, modulo
  `2^64`.  As long as no sum wraps, a firing is a period or more behind the one before
  it; a sum that does wrap lies before the time it was taken from, and the next look at
  the clock fires.
-/

import Mathlib.Data.List.Chain
import Camio.Lib.Run
import Camio.Timeout.Fast

namespace Camio.Timeout

open Camio.Lib Camio.Descr

/-- A timer, its clock, and the times at which it has fired. -/
structure Session where
  stream : FastTimeout
  clock : List Reading
  fired : List Nat

/-- The calls. -/
inductive Event where
  | ready
  | startRead
  | endRead
deriving DecidableEq

/-- The session after a call that has left this stream and this clock. -/
def Session.after (σ : Session) (s : FastTimeout) (clock : List Reading) : Session :=
  { stream := s, clock := clock
    fired := σ.fired ++ if !σ.stream.isReady && s.isReady then [s.result] else [] }

def step (σ : Session) : Event → Option Session
  | .ready => (camioIstreamPeriodicTimeoutFastReady σ.stream σ.clock).map fun (_, s, clock) =>
      σ.after s clock
  | .startRead =>
      (camioIstreamPeriodicTimeoutFastStartRead σ.stream σ.clock).map fun (_, s, clock) =>
        σ.after s clock
  | .endRead => some { σ with stream := (camioIstreamPeriodicTimeoutFastEndRead σ.stream).2 }

/-- A timer that has just been opened. -/
def init (s : FastTimeout) (clock : List Reading) : Session :=
  { stream := s, clock := clock, fired := [] }

/-- The time the aim is taken from. -/
def lastTime (openTime : Nat) (fired : List Nat) : Nat := fired.getLast?.getD openTime

/-- No aim that the clock is compared with has wrapped: whenever there is a reading, the
    last firing, or the time of `open`, leaves room for the period. -/
def AimFits (period : Nat) : Nat → List Nat → Prop
  | _, [] => True
  | last, now :: clock =>
      last + period < 2 ^ 64 ∧ AimFits period (if last + period ≤ now then now else last) clock

/-- `start_read` returns at once, and what it reports is `f`. -/
def Reports (σ : Session) (f : Nat) : Prop :=
  camioIstreamPeriodicTimeoutFastStartRead σ.stream σ.clock = some (some f, σ.stream, σ.clock)

/-- The firings are spaced: none comes before a period has passed since `open`, two that
    follow each other are a period apart, what `start_read` reports is the last one, and
    that one is reported until there is an `end_read`. -/
structure Spaced (openTime period : Nat) (σ : Session) : Prop where
  first : ∀ f ∈ σ.fired, openTime + period ≤ f
  apart : σ.fired.IsChain fun a b => a + period ≤ b
  reported : ∀ v s clock, camioIstreamPeriodicTimeoutFastStartRead σ.stream σ.clock
    = some (v, s, clock) → ∃ f, v = some f ∧ (σ.after s clock).fired.getLast? = some f
  held : σ.stream.isReady = true → ∃ f, σ.fired.getLast? = some f ∧
    ∀ es σ', Event.endRead ∉ es → run step σ es = some σ' → σ'.fired = σ.fired ∧ Reports σ' f

/-- What the calls keep, whether sums wrap or not. -/
structure Tracks (openTime period : Nat) (σ : Session) : Prop where
  isOpen : σ.stream.isClosed = false
  samePeriod : σ.stream.period = period
  aim : σ.stream.nsAim = (lastTime openTime σ.fired + period) % 2 ^ 64
  result : σ.stream.isReady = true → σ.fired.getLast? = some σ.stream.result

section Steps

variable {openTime period : Nat} {σ σ' : Session} {s : FastTimeout} {clock : List Reading}
  {e : Event}

theorem lastTime_append (fired : List Nat) (f : Nat) : lastTime openTime (fired ++ [f]) = f := by
  rw [lastTime, List.getLast?_concat, Option.getD_some]

/-- Nothing fires if the stream is the same. -/
theorem after_same (σ : Session) (clock : List Reading) :
    σ.after σ.stream clock = { σ with clock := clock } := by
  rw [Session.after, Bool.not_and_self, if_neg (by decide), List.append_nil]

/-- A call that takes readings leaves the firings as they are, or adds the reading at
    which it fires. -/
theorem after_of_takes (h : Takes σ.stream σ.clock s clock) :
    (∃ skipped, σ.clock = skipped ++ clock ∧ (∀ t ∈ skipped, t.ns < σ.stream.nsAim) ∧
        σ.after s clock = { σ with clock := clock }) ∨
      ∃ skipped now, σ.clock = skipped ++ now :: clock ∧ σ.stream.isReady = false ∧
        (∀ t ∈ skipped, t.ns < σ.stream.nsAim) ∧ σ.stream.nsAim ≤ now.ns ∧
        σ.after s clock
          = { stream := fire σ.stream now, clock := clock, fired := σ.fired ++ [now.ns] } := by
  generalize hstream : σ.stream = stream at h
  generalize hclock : σ.clock = before at h
  cases h with
  | early skipped clock hskipped =>
      exact Or.inl ⟨skipped, rfl, hskipped, by rw [← hstream, after_same]⟩
  | due skipped now clock hready hskipped hdue =>
      refine Or.inr ⟨skipped, now, rfl, hready, hskipped, hdue, ?_⟩
      rw [Session.after, hstream, hready]
      rfl

/-- What a step does to an open timer. -/
theorem step_cases (hopen : σ.stream.isClosed = false) (h : step σ e = some σ') :
    (∃ skipped, σ.clock = skipped ++ σ'.clock ∧ (∀ t ∈ skipped, t.ns < σ.stream.nsAim) ∧
        σ' = { σ with clock := σ'.clock }) ∨
      (∃ skipped now, σ.clock = skipped ++ now :: σ'.clock ∧ σ.stream.isReady = false ∧
        (∀ t ∈ skipped, t.ns < σ.stream.nsAim) ∧ σ.stream.nsAim ≤ now.ns ∧
        σ' = { stream := fire σ.stream now, clock := σ'.clock, fired := σ.fired ++ [now.ns] }) ∨
      (e = .endRead ∧ σ' = { σ with stream := { σ.stream with isReady := false } }) := by
  cases e with
  | endRead =>
      cases h
      exact Or.inr (Or.inr ⟨rfl, rfl⟩)
  | ready =>
      obtain ⟨⟨r, s, clock⟩, hcall, rfl⟩ := Option.map_eq_some_iff.mp h
      obtain hsame | hfire := after_of_takes (ready_takes hcall)
      · exact Or.inl hsame
      · exact Or.inr (Or.inl hfire)
  | startRead =>
      obtain ⟨⟨v, s, clock⟩, hcall, rfl⟩ := Option.map_eq_some_iff.mp h
      obtain hsame | hfire := after_of_takes (startRead_takes hopen hcall).1
      · exact Or.inl hsame
      · exact Or.inr (Or.inl hfire)

/-- The calls keep track of the last firing. -/
theorem Tracks.step (h : Tracks openTime period σ) (hstep : Timeout.step σ e = some σ') :
    Tracks openTime period σ' := by
  obtain ⟨skipped, -, -, hσ'⟩ | ⟨skipped, now, -, -, -, -, hσ'⟩ | ⟨-, hσ'⟩ :=
    step_cases h.isOpen hstep
  · rw [hσ']
    exact ⟨h.isOpen, h.samePeriod, h.aim, h.result⟩
  · rw [hσ']
    refine ⟨h.isOpen, h.samePeriod, ?_, fun _ => List.getLast?_concat⟩
    rw [lastTime_append, fire, h.samePeriod]
  · rw [hσ']
    exact ⟨h.isOpen, h.samePeriod, h.aim, fun hready => by cases hready⟩

/-- A timer that has fired does not look at the clock. -/
theorem step_of_isReady (hopen : σ.stream.isClosed = false) (hready : σ.stream.isReady = true)
    (he : e ≠ .endRead) (h : step σ e = some σ') : σ' = σ := by
  cases e with
  | endRead => exact absurd rfl he
  | ready =>
      obtain ⟨⟨r, s, clock⟩, hcall, rfl⟩ := Option.map_eq_some_iff.mp h
      rw [camioIstreamPeriodicTimeoutFastReady, if_pos (Or.inl hready)] at hcall
      cases hcall
      exact after_same σ σ.clock
  | startRead =>
      obtain ⟨⟨v, s, clock⟩, hcall, rfl⟩ := Option.map_eq_some_iff.mp h
      rw [camioIstreamPeriodicTimeoutFastStartRead, if_neg (by rw [hopen]; decide),
        if_pos hready] at hcall
      cases hcall
      exact after_same σ σ.clock

/-- It stands until there is an `end_read`. -/
theorem run_of_isReady {es : List Event} (hopen : σ.stream.isClosed = false)
    (hready : σ.stream.isReady = true) (hes : Event.endRead ∉ es)
    (hrun : run step σ es = some σ') : σ' = σ := by
  induction es with
  | nil => exact (Option.some.inj hrun).symm
  | cons e es ih =>
      obtain ⟨m, hm, hrest⟩ := run_cons_eq_some.mp hrun
      rw [List.mem_cons, not_or] at hes
      obtain rfl := step_of_isReady hopen hready (fun he => hes.1 he.symm) hm
      exact ih hes.2 hrest

/-- What is read is the last firing, whether sums wrap or not. -/
theorem Tracks.reported (h : Tracks openTime period σ) {v : Option Nat}
    (hcall : camioIstreamPeriodicTimeoutFastStartRead σ.stream σ.clock = some (v, s, clock)) :
    ∃ f, v = some f ∧ (σ.after s clock).fired.getLast? = some f := by
  have hstep : Timeout.step σ .startRead = some (σ.after s clock) := by
    rw [Timeout.step, hcall, Option.map_some]
  obtain ⟨-, hready, hv⟩ := startRead_takes h.isOpen hcall
  exact ⟨s.result, hv, (h.step hstep).result hready⟩

theorem Tracks.held (h : Tracks openTime period σ) (hready : σ.stream.isReady = true) :
    ∃ f, σ.fired.getLast? = some f ∧ ∀ es σ', Event.endRead ∉ es →
      run Timeout.step σ es = some σ' → σ'.fired = σ.fired ∧ Reports σ' f := by
  refine ⟨σ.stream.result, h.result hready, fun es σ' hes hrun => ?_⟩
  obtain rfl := run_of_isReady h.isOpen hready hes hrun
  refine ⟨rfl, ?_⟩
  rw [Reports, camioIstreamPeriodicTimeoutFastStartRead, if_neg (by rw [h.isOpen]; decide),
    if_pos hready]

/-- A `ready` of a timer that has not fired takes the next reading. -/
theorem step_ready_cons {now : Reading} (hopen : σ.stream.isClosed = false)
    (hready : σ.stream.isReady = false) (hclock : σ.clock = now :: clock) :
    step σ .ready = some (
      if σ.stream.nsAim ≤ now.ns then
        { stream := fire σ.stream now, clock := clock, fired := σ.fired ++ [now.ns] }
      else { σ with clock := clock }) := by
  have hidle : ¬ (σ.stream.isReady = true ∨ σ.stream.isClosed = true) := by
    rw [hready, hopen]
    decide
  rw [step, camioIstreamPeriodicTimeoutFastReady, if_neg hidle, hclock, prepareNext_cons hready]
  by_cases hdue : σ.stream.nsAim ≤ now.ns
  · have hfire : σ.after (fire σ.stream now) clock
        = { stream := fire σ.stream now, clock := clock, fired := σ.fired ++ [now.ns] } := by
      rw [Session.after, hready]
      rfl
    rw [if_pos hdue, if_pos hdue, ← hfire, Option.map_some]
  · rw [if_neg hdue, if_neg hdue, ← after_same, Option.map_some]

end Steps

/-! ## The gaps between firings -/

/-- Each firing is a period or more behind the time its aim was taken from. -/
def Gaps (openTime period : Nat) (fired : List Nat) : Prop :=
  (openTime :: fired).IsChain fun a b => a + period ≤ b

section Gaps

variable {openTime period last f : Nat} {fired skipped clock : List Nat}

theorem gaps_iff :
    Gaps openTime period fired ↔
      (∀ f ∈ fired, openTime + period ≤ f) ∧ fired.IsChain fun a b => a + period ≤ b := by
  constructor
  · intro h
    have htrans : Trans (fun a b => a + period ≤ b) (fun a b => a + period ≤ b)
        fun a b => a + period ≤ b := ⟨fun {a b c} hab hbc => by omega⟩
    exact ⟨fun f hf => h.rel_cons hf, h.tail⟩
  · rintro ⟨hfirst, hapart⟩
    exact hapart.cons fun f hf => hfirst f (List.mem_of_mem_head? hf)

theorem gaps_append_iff :
    Gaps openTime period (fired ++ [f]) ↔
      Gaps openTime period fired ∧ lastTime openTime fired + period ≤ f := by
  have hlast : (openTime :: fired).getLast? = some (lastTime openTime fired) := List.getLast?_cons
  rw [Gaps, ← List.cons_append, List.isChain_append, hlast]
  simp [Gaps]

/-- Readings below the aim change nothing of what is still to come. -/
theorem AimFits.skip (hskipped : ∀ now ∈ skipped, now < last + period)
    (h : AimFits period last (skipped ++ clock)) : AimFits period last clock := by
  induction skipped with
  | nil => exact h
  | cons now skipped ih =>
      obtain ⟨hnow, hskipped'⟩ := List.forall_mem_cons.mp hskipped
      have hrest := h.2
      rw [if_neg (Nat.not_le_of_lt hnow)] at hrest
      exact ih hskipped' hrest

/-- A period of up to `2^63` leaves room behind every reading. -/
theorem aimFits_of_le (hperiod : period ≤ 2 ^ 63) (hlast : last < 2 ^ 63)
    (hclock : ∀ now ∈ clock, now < 2 ^ 63) : AimFits period last clock := by
  induction clock generalizing last with
  | nil => trivial
  | cons now clock ih =>
      obtain ⟨hnow, hclock'⟩ := List.forall_mem_cons.mp hclock
      refine ⟨by omega, ih ?_ hclock'⟩
      split
      next => exact hnow
      next => exact hlast

end Gaps

/-! ## Runs -/

section Runs

variable {openTime period : Nat} {σ σ' : Session} {e : Event}

/-- What the calls keep as long as the aims that are looked at have not wrapped. -/
structure OnTime (openTime period : Nat) (σ : Session) : Prop extends Tracks openTime period σ where
  gaps : Gaps openTime period σ.fired
  fits : AimFits period (lastTime openTime σ.fired) (σ.clock.map Reading.ns)

/-- The aim never lies behind the time it stands for. -/
theorem Tracks.aim_le (h : Tracks openTime period σ) :
    σ.stream.nsAim ≤ lastTime openTime σ.fired + period := by
  rw [h.aim]
  exact Nat.mod_le _ _

theorem OnTime.step (h : OnTime openTime period σ) (hstep : Timeout.step σ e = some σ') :
    OnTime openTime period σ' := by
  have htracks := h.toTracks.step hstep
  have hle := h.toTracks.aim_le
  -- readings that are skipped lie before the aim
  have hskip : ∀ skipped : List Reading, (∀ t ∈ skipped, t.ns < σ.stream.nsAim) →
      ∀ now ∈ skipped.map Reading.ns, now < lastTime openTime σ.fired + period := by
    intro skipped hskipped now hnow
    obtain ⟨t, ht, rfl⟩ := List.mem_map.mp hnow
    exact Nat.lt_of_lt_of_le (hskipped t ht) hle
  obtain ⟨skipped, hclock, hskipped, hσ'⟩ | ⟨skipped, now, hclock, -, hskipped, hdue, hσ'⟩ |
    ⟨-, hσ'⟩ := step_cases h.isOpen hstep
  · have hfits := h.fits
    rw [hclock, List.map_append] at hfits
    have hfits' := hfits.skip (hskip skipped hskipped)
    rw [hσ'] at htracks ⊢
    exact ⟨htracks, h.gaps, hfits'⟩
  · have hfits := h.fits
    rw [hclock, List.map_append, List.map_cons] at hfits
    obtain ⟨hroom, hrest⟩ := hfits.skip (hskip skipped hskipped)
    -- the aim that is reached has not wrapped
    have hgap : lastTime openTime σ.fired + period ≤ now.ns := by
      rwa [h.aim, Nat.mod_eq_of_lt hroom] at hdue
    rw [if_pos hgap] at hrest
    rw [hσ'] at htracks ⊢
    refine ⟨htracks, gaps_append_iff.mpr ⟨h.gaps, hgap⟩, ?_⟩
    rwa [lastTime_append]
  · rw [hσ'] at htracks ⊢
    exact ⟨htracks, h.gaps, h.fits⟩

theorem OnTime.spaced (h : OnTime openTime period σ) : Spaced openTime period σ where
  first := (gaps_iff.mp h.gaps).1
  apart := (gaps_iff.mp h.gaps).2
  reported _ _ _ hcall := h.toTracks.reported hcall
  held hready := h.toTracks.held hready

/-- If an aim has wrapped when the clock is read, then calling `ready` until that reading is
    taken, and `end_read` after each firing, makes the timer fire too early. -/
theorem exists_early {clock : List Reading} (htracks : Tracks openTime period σ)
    (hgaps : Gaps openTime period σ.fired) (hready : σ.stream.isReady = false)
    (hperiod : period < 2 ^ 64) (hclock : σ.clock = clock)
    (hlast : ∀ t ∈ clock, lastTime openTime σ.fired ≤ t.ns)
    (hmono : clock.Pairwise fun t u => t.ns ≤ u.ns)
    (hfits : ¬ AimFits period (lastTime openTime σ.fired) (clock.map Reading.ns)) :
    ∃ es σ', run step σ es = some σ' ∧ ¬ Spaced openTime period σ' := by
  induction clock generalizing σ with
  | nil => exact absurd trivial hfits
  | cons now clock ih =>
      obtain ⟨hnow, hlast'⟩ := List.forall_mem_cons.mp hlast
      obtain ⟨hmono', hmono''⟩ := List.pairwise_cons.mp hmono
      have hcall := step_ready_cons htracks.isOpen hready hclock
      have hcall' := htracks.step hcall
      rw [List.map_cons, AimFits, not_and_or] at hfits
      by_cases hroom : lastTime openTime σ.fired + period < 2 ^ 64
      · have hrest := hfits.resolve_left (not_not_intro hroom)
        have haim : σ.stream.nsAim = lastTime openTime σ.fired + period := by
          rw [htracks.aim, Nat.mod_eq_of_lt hroom]
        by_cases hdue : lastTime openTime σ.fired + period ≤ now.ns
        · -- it fires, and goes on after an `end_read`
          rw [if_pos (haim ▸ hdue)] at hcall hcall'
          rw [if_pos hdue] at hrest
          have hend := hcall'.step (e := .endRead) rfl
          obtain ⟨es, σ', hrun, hearly⟩ := ih hend (gaps_append_iff.mpr ⟨hgaps, hdue⟩) rfl rfl
            (by rwa [lastTime_append]) hmono'' (by rwa [lastTime_append])
          refine ⟨.ready :: .endRead :: es, σ', ?_, hearly⟩
          exact run_cons_eq_some.mpr ⟨_, hcall, run_cons_eq_some.mpr ⟨_, rfl, hrun⟩⟩
        · rw [if_neg (haim ▸ hdue)] at hcall hcall'
          rw [if_neg hdue] at hrest
          obtain ⟨es, σ', hrun, hearly⟩ := ih hcall' hgaps hready rfl hlast' hmono'' hrest
          exact ⟨.ready :: es, σ', run_cons_eq_some.mpr ⟨_, hcall, hrun⟩, hearly⟩
      · -- the aim lies before the time that it was taken from
        have hnow' := now.ns_lt
        have hdue : σ.stream.nsAim ≤ now.ns := by
          rw [htracks.aim]
          omega
        rw [if_pos hdue] at hcall
        refine ⟨[.ready], _, run_cons_eq_some.mpr ⟨_, hcall, rfl⟩, fun hspaced => ?_⟩
        have hgap := (gaps_append_iff.mp (gaps_iff.mpr ⟨hspaced.first, hspaced.apart⟩)).2
        omega

theorem open_spec {clockType : Int} {result : Nat} {descr : CamioDescr} {params : Option Int}
    {now : Reading} {s : FastTimeout} (h : camioIstreamPeriodicTimeoutFastOpen
      (camioIstreamPeriodicTimeoutFastConstruct clockType result) descr params now = .ok s) :
    s.isReady = false ∧ s.period < 2 ^ 64 ∧
      ∀ clock, Tracks now.ns s.period (init s clock) := by
  rw [camioIstreamPeriodicTimeoutFastOpen] at h
  split at h
  next => cases h
  next =>
    cases hquery : descr.query with
    | none =>
        rw [hquery] at h
        cases h
    | some query =>
        rw [hquery] at h
        obtain rfl := Except.ok.inj h
        have hperiod : addDigits 0 query < 2 ^ 64 := addDigits_lt (by decide) query
        exact ⟨rfl, hperiod, fun clock => ⟨rfl, rfl, rfl, fun hready => by cases hready⟩⟩

/-- In every run on a clock that does not go back, firings are spaced exactly if the last
    firing, or the time of `open`, plus the period is below `2^64` whenever the clock is
    read. -/
theorem firings_spaced_iff {clockType : Int} {result : Nat} {descr : CamioDescr}
    {params : Option Int} {now : Reading} {s : FastTimeout} {clock : List Reading}
    (hopen : camioIstreamPeriodicTimeoutFastOpen
      (camioIstreamPeriodicTimeoutFastConstruct clockType result) descr params now = .ok s)
    (hmono : (now :: clock).Pairwise fun t u => t.ns ≤ u.ns) :
    (∀ es σ, run step (init s clock) es = some σ → Spaced now.ns s.period σ) ↔
      AimFits s.period now.ns (clock.map Reading.ns) := by
  obtain ⟨hready, hperiod, htracks⟩ := open_spec hopen
  obtain ⟨hlast, hmono'⟩ := List.pairwise_cons.mp hmono
  constructor
  · intro hspaced
    by_contra hfits
    obtain ⟨es, σ, hrun, hearly⟩ := exists_early (htracks clock) (List.isChain_singleton _) hready
      hperiod rfl hlast hmono' hfits
    exact hearly (hspaced es σ hrun)
  · intro hfits es σ hrun
    have hstart : OnTime now.ns s.period (init s clock) :=
      { htracks clock with gaps := List.isChain_singleton _, fits := hfits }
    exact (run_invariant (OnTime now.ns s.period) (fun _ _ _ h => h.step) hstart hrun).spaced

end Runs

/-- A reading of `n` nanoseconds. -/
def demoReading (n : Nat) (h : n < 10 ^ 9) : Reading where
  ts := ⟨0, n⟩
  sec_nonneg := by simp
  nsec_nonneg := by simp
  nsec_lt := by simpa using h
  total_lt := by simp; omega

/-- A timer that is opened with this specification at `now`. -/
def demoTimer (query : List UInt8) (now : Reading) : FastTimeout :=
  { isClosed := false, isReady := false, nsAim := (now.ns + addDigits 0 query) % 2 ^ 64
    period := addDigits 0 query, clockType := clockMonotonicCoarse, result := 0 }

/-- A clock that is read four times. -/
def demoClock : List Reading :=
  [demoReading 3 (by decide), demoReading 7 (by decide), demoReading 9 (by decide),
    demoReading 13 (by decide)]

/-- A timer of 5 nanoseconds that is opened at 1 fires at 7, and then at 13. -/
theorem firings_spaced_iff_two :
    ∃ σ, run step (init (demoTimer [53] (demoReading 1 (by decide))) demoClock)
        [.ready, .ready, .startRead, .endRead, .ready, .ready] = some σ ∧
      σ.fired = [7, 13] ∧ Spaced 1 5 σ := by
  have hends : (run step (init (demoTimer [53] (demoReading 1 (by decide))) demoClock)
      [.ready, .ready, .startRead, .endRead, .ready, .ready]).map Session.fired = some [7, 13] := by
    decide
  obtain ⟨σ, hrun, hfired⟩ := Option.map_eq_some_iff.mp hends
  have hiff := @firings_spaced_iff 0 0 { camioDescrConstruct with query := some [53] } none
    (demoReading 1 (by decide)) (demoTimer [53] (demoReading 1 (by decide))) demoClock rfl
    (by decide)
  have hopen : (demoReading 1 (by decide)).ns = 1 := by decide
  have hperiod : (demoTimer [53] (demoReading 1 (by decide))).period = 5 := by decide
  have hclock : demoClock.map Reading.ns = [3, 7, 9, 13] := by decide
  rw [hopen, hperiod, hclock] at hiff
  exact ⟨σ, hrun, hfired, hiff.mpr (by simp [AimFits]) _ σ hrun⟩

/-- The specification of `2^64 - 1` nanoseconds. -/
def longestPeriod : List UInt8 :=
  [49, 56, 52, 52, 54, 55, 52, 52, 48, 55, 51, 55, 48, 57, 53, 53, 49, 54, 49, 53]

/-- A timer of `2^64 - 1` nanoseconds that is opened one nanosecond after the clock was
    started fires one nanosecond later. -/
theorem firings_spaced_fails_long_period :
    ¬ ∀ (clockType : Int) (result : Nat) (descr : CamioDescr) (params : Option Int)
      (now : Reading) (s : FastTimeout) (clock : List Reading),
      camioIstreamPeriodicTimeoutFastOpen
        (camioIstreamPeriodicTimeoutFastConstruct clockType result) descr params now = .ok s →
      ((now :: clock).Pairwise fun t u => t.ns ≤ u.ns) →
      ∀ es σ, run step (init s clock) es = some σ → Spaced now.ns s.period σ := by
  intro hall
  have hrun : run step (init (demoTimer longestPeriod (demoReading 1 (by decide)))
      [demoReading 2 (by decide)]) [.ready]
      = some { stream := fire (demoTimer longestPeriod (demoReading 1 (by decide)))
                 (demoReading 2 (by decide))
               clock := [], fired := [2] } := rfl
  have hspaced := hall 0 0 { camioDescrConstruct with query := some longestPeriod } none _ _ _
    rfl (by decide) [.ready] _ hrun
  exact absurd (hspaced.first 2 List.mem_cons_self) (by decide)

end Camio.Timeout
