/-
  Camio.Timeout.Fast

  `camio_istream_periodic_timeout_fast.c`: a timer that asks the clock itself.

  `prepare_next` compares the clock with `ns_aim`; when the aim is reached, the timer
  fires and takes aim at a period from now.  The sum is one of 64 bits.

  The clock is the list of its readings to come, from which `clock_gettime` takes the
  next one; a call that finds none left has not returned yet.
-/

import Camio.Timeout.Periodic

namespace Camio.Timeout

open Camio.Descr

/-- A time that `clock_gettime` may store: of less than `2^63` nanoseconds. -/
structure Reading where
  ts : Timespec
  sec_nonneg : 0 ≤ ts.tvSec
  nsec_nonneg : 0 ≤ ts.tvNsec
  nsec_lt : ts.tvNsec < 10 ^ 9
  total_lt : ts.tvSec * 10 ^ 9 + ts.tvNsec < 2 ^ 63

/-- `camio_istream_periodic_timeout_fast_t`. -/
structure FastTimeout where
  isClosed : Bool
  isReady : Bool
  nsAim : Nat
  period : Nat
  clockType : Int
  result : Nat

/-- `CLOCK_MONOTONIC_COARSE`. -/
def clockMonotonicCoarse : Int := 6

/-- The fields as `camio_istream_periodic_timeout_fast_construct` initialises them;
    `clock_type` and `result` are left as they are. -/
def camioIstreamPeriodicTimeoutFastConstruct (clockType : Int) (result : Nat) : FastTimeout :=
  { isClosed := true, isReady := false, nsAim := 0, period := 0, clockType := clockType
    result := result }

/-- `timespec_to_ns`. -/
def timespecToNs (ts : Timespec) : Nat :=
  ((ts.tvSec * 1000 * 1000 * 1000 + ts.tvNsec) % 2 ^ 64).toNat

/-- The time that is compared with the aim. -/
def Reading.ns (t : Reading) : Nat := timespecToNs t.ts

/-- `camio_istream_periodic_timeout_fast_open`, at the time `now`.  `params` is the clock
    type of the parameters, if there are any. -/
def camioIstreamPeriodicTimeoutFastOpen (s : FastTimeout) (descr : CamioDescr)
    (params : Option Int) (now : Reading) : Exit FastTimeout :=
  if descr.optHead.isSome then
    eprintfExit .unknownOpt "Option(s) supplied, but none expected\n"
  else
    match descr.query with
    | none => eprintfExit .nullPtr
        "No timer specification supplied expected nanoseconds format\n"
    | some query =>
      let period := addDigits 0 query
      .ok { s with
        clockType := params.getD clockMonotonicCoarse, period := period
        nsAim := (now.ns + period) % 2 ^ 64, isClosed := false }

/-- What `prepare_next` does once the aim is reached. -/
def fire (s : FastTimeout) (now : Reading) : FastTimeout :=
  { s with nsAim := (now.ns + s.period) % 2 ^ 64, isReady := true, result := now.ns }

/-- `prepare_next`. -/
def prepareNext (s : FastTimeout) (clock : List Reading) :
    Option (Nat × FastTimeout × List Reading) :=
  if s.isReady then some (1, s, clock)
  else
    match clock with
    | [] => none
    | now :: clock =>
      if now.ns ≥ s.nsAim then some (1, fire s now, clock) else some (0, s, clock)

/-- `camio_istream_periodic_timeout_fast_ready`. -/
def camioIstreamPeriodicTimeoutFastReady (s : FastTimeout) (clock : List Reading) :
    Option (Nat × FastTimeout × List Reading) :=
  if s.isReady ∨ s.isClosed then some (1, s, clock) else prepareNext s clock

/-- "spin waiting for this".  Every turn but the last takes a reading. -/
def spin : Nat → FastTimeout → List Reading → Option (FastTimeout × List Reading)
  | 0, _, _ => none
  | fuel + 1, s, clock =>
      match prepareNext s clock with
      | none => none
      | some (r, s, clock) => if r = 0 then spin fuel s clock else some (s, clock)

/-- `camio_istream_periodic_timeout_fast_start_read`: the time that is read through the
    pointer it sets, and `none` if it returns 0. -/
def camioIstreamPeriodicTimeoutFastStartRead (s : FastTimeout) (clock : List Reading) :
    Option (Option Nat × FastTimeout × List Reading) :=
  if s.isClosed then some (none, s, clock)
  else if s.isReady then some (some s.result, s, clock)
  else (spin (clock.length + 1) s clock).map fun (s, clock) => (some s.result, s, clock)

/-- `camio_istream_periodic_timeout_fast_end_read`. -/
def camioIstreamPeriodicTimeoutFastEndRead (s : FastTimeout) : Nat × FastTimeout :=
  (0, { s with isReady := false })

/-! ## What the calls do -/

section Calls

variable {s s' : FastTimeout} {clock clock' : List Reading} {r : Nat}

/-- The conversion is exact. -/
theorem Reading.ns_eq (t : Reading) : (t.ns : Int) = t.ts.tvSec * 10 ^ 9 + t.ts.tvNsec := by
  have hsec := t.sec_nonneg
  have hnsec := t.nsec_nonneg
  have htotal := t.total_lt
  rw [Reading.ns, timespecToNs]
  omega

theorem Reading.ns_lt (t : Reading) : t.ns < 2 ^ 63 := by
  have heq := t.ns_eq
  have htotal := t.total_lt
  omega

theorem prepareNext_ready (h : s.isReady = true) : prepareNext s clock = some (1, s, clock) := by
  unfold prepareNext
  rw [if_pos h]

/-- With the timer not fired yet, a reading is taken. -/
theorem prepareNext_cons (h : s.isReady = false) (now : Reading) :
    prepareNext s (now :: clock)
      = if s.nsAim ≤ now.ns then some (1, fire s now, clock) else some (0, s, clock) := by
  rw [prepareNext, if_neg (by rw [h]; decide)]

theorem prepareNext_nil (h : s.isReady = false) : prepareNext s [] = none := by
  rw [prepareNext, if_neg (by rw [h]; decide)]

/-- Readings below the aim, and perhaps one that is not: what a call takes from the clock,
    and what it makes of the stream. -/
inductive Takes (s : FastTimeout) : List Reading → FastTimeout → List Reading → Prop where
  | early (skipped clock' : List Reading) : (∀ t ∈ skipped, t.ns < s.nsAim) →
      Takes s (skipped ++ clock') s clock'
  | due (skipped : List Reading) (now : Reading) (clock' : List Reading) :
      s.isReady = false → (∀ t ∈ skipped, t.ns < s.nsAim) → s.nsAim ≤ now.ns →
      Takes s (skipped ++ now :: clock') (fire s now) clock'

/-- The timer has fired before, it fires, or it is too early. -/
theorem prepareNext_cases (h : prepareNext s clock = some (r, s', clock')) :
    (r = 1 ∧ s.isReady = true ∧ s' = s ∧ clock' = clock) ∨
      ∃ now, s.isReady = false ∧ clock = now :: clock' ∧
        ((r = 1 ∧ s.nsAim ≤ now.ns ∧ s' = fire s now) ∨
          (r = 0 ∧ now.ns < s.nsAim ∧ s' = s)) := by
  cases hready : s.isReady with
  | true =>
      rw [prepareNext_ready hready] at h
      cases h
      exact Or.inl ⟨rfl, rfl, rfl, rfl⟩
  | false =>
      cases clock with
      | nil =>
          rw [prepareNext_nil hready] at h
          cases h
      | cons now clock =>
          -- the reading decides
          rw [prepareNext_cons hready] at h
          by_cases hdue : s.nsAim ≤ now.ns
          · rw [if_pos hdue] at h
            cases h
            exact Or.inr ⟨now, rfl, rfl, Or.inl ⟨rfl, hdue, rfl⟩⟩
          · rw [if_neg hdue] at h
            cases h
            exact Or.inr ⟨now, rfl, rfl, Or.inr ⟨rfl, Nat.lt_of_not_le hdue, rfl⟩⟩

/-- Readings that come before those that are taken from the same stream. -/
theorem Takes.skip {now : Reading} (h : Takes s clock s' clock') (hnow : now.ns < s.nsAim) :
    Takes s (now :: clock) s' clock' := by
  cases h with
  | early skipped clock' hskipped =>
      exact .early (now :: skipped) clock' (List.forall_mem_cons.mpr ⟨hnow, hskipped⟩)
  | due skipped t clock' hready hskipped hdue =>
      exact .due (now :: skipped) t clock' hready (List.forall_mem_cons.mpr ⟨hnow, hskipped⟩) hdue

theorem prepareNext_takes (h : prepareNext s clock = some (r, s', clock')) :
    Takes s clock s' clock' := by
  obtain ⟨-, -, rfl, rfl⟩ | ⟨now, hready, rfl, ⟨-, hdue, rfl⟩ | ⟨-, hearly, rfl⟩⟩ :=
    prepareNext_cases h
  · exact .early [] _ (by simp)
  · exact .due [] now _ hready (by simp) hdue
  · exact .early [now] _ (by simpa using hearly)

/-- The loop ends when the timer has fired. -/
theorem spin_takes {fuel : Nat} (h : spin fuel s clock = some (s', clock')) :
    Takes s clock s' clock' ∧ s'.isReady = true := by
  induction fuel generalizing clock with
  | zero => cases h
  | succ fuel ih =>
      rw [spin] at h
      cases hnext : prepareNext s clock with
      | none =>
          rw [hnext] at h
          cases h
      | some next =>
          obtain ⟨r, t, rest⟩ := next
          rw [hnext] at h
          dsimp only at h
          obtain ⟨rfl, hready, rfl, rfl⟩ | ⟨now, hready, rfl, hread⟩ := prepareNext_cases hnext
          · -- the firing was kept from an earlier call
            rw [if_neg (by decide)] at h
            cases h
            exact ⟨.early [] _ (by simp), hready⟩
          · obtain ⟨rfl, hdue, rfl⟩ | ⟨rfl, hearly, rfl⟩ := hread
            · rw [if_neg (by decide)] at h
              cases h
              exact ⟨.due [] now _ hready (by simp) hdue, rfl⟩
            · -- the loop goes on from the next reading
              rw [if_pos rfl] at h
              obtain ⟨hrest, hend⟩ := ih h
              exact ⟨hrest.skip hearly, hend⟩

theorem ready_takes
    (h : camioIstreamPeriodicTimeoutFastReady s clock = some (r, s', clock')) :
    Takes s clock s' clock' := by
  rw [camioIstreamPeriodicTimeoutFastReady] at h
  by_cases hready : s.isReady = true ∨ s.isClosed = true
  · rw [if_pos hready] at h
    cases h
    exact .early [] _ (by simp)
  · rw [if_neg hready] at h
    exact prepareNext_takes h

/-- `start_read` reports the firing that the stream has kept, or waits for one. -/
theorem startRead_takes {v : Option Nat} (hopen : s.isClosed = false)
    (h : camioIstreamPeriodicTimeoutFastStartRead s clock = some (v, s', clock')) :
    Takes s clock s' clock' ∧ s'.isReady = true ∧ v = some s'.result := by
  rw [camioIstreamPeriodicTimeoutFastStartRead, if_neg (by rw [hopen]; decide)] at h
  by_cases hready : s.isReady = true
  · rw [if_pos hready] at h
    cases h
    exact ⟨.early [] _ (by simp), hready, rfl⟩
  · rw [if_neg hready, Option.map_eq_some_iff] at h
    obtain ⟨⟨t, rest⟩, hspin, hout⟩ := h
    cases hout
    obtain ⟨htakes, hend⟩ := spin_takes hspin
    exact ⟨htakes, hend, rfl⟩

end Calls

end Camio.Timeout
