/-
  Camio.Timeout.Periodic

  `camio_istream_periodic_timeout.c`: the specification `seconds.nanoseconds` of a timer
  and the period that `open` sets.

  "Just in case the nanoseconds arg overflows", the nanoseconds are reduced, and what is
  added to the seconds is then taken from the reduced number.
-/

import Camio.Descr.Parse
import Camio.Errors
import Camio.Timeout.Spec

namespace Camio.Timeout

open Camio.Descr Camio.Parsing

/-- `struct timespec`. -/
structure Timespec where
  tvSec : Int
  tvNsec : Int
deriving DecidableEq

/-- `struct itimerspec`. -/
structure Itimerspec where
  itValue : Timespec
  itInterval : Timespec
deriving DecidableEq

/-- `camio_istream_periodic_timeout_t`. -/
structure PeriodicTimeout where
  isClosed : Bool
  expiries : Nat
  readSize : Nat
  blocking : Bool
  fd : Int
deriving DecidableEq

/-- The fields as `camio_istream_periodic_timeout_construct` initialises them. -/
def camioIstreamPeriodicTimeoutConstruct : PeriodicTimeout :=
  { isClosed := true, expiries := 0, readSize := 0, blocking := true, fd := -1 }

/-- What `timerfd_create` returns, and `timerfd_settime` for a specification. -/
structure TimerCalls where
  create : Int
  settime : Itimerspec → Int

/-- The loop over the specification, with `seconds` and `temp`. -/
def parseSpec : List UInt8 → Nat → Nat → Nat × Nat
  | [], seconds, temp => (seconds, temp)
  | c :: query, seconds, temp =>
      if c = ch '.' then parseSpec query temp 0 else parseSpec query seconds (addDigit temp c)

/-- A `uint64_t` converted to `long`. -/
def toLong (v : Nat) : Int := (v : Int).bmod (2 ^ 64)

/-- The times of the specification, after the reduction. -/
def specTimes (query : List UInt8) : Timespec :=
  let (seconds, nanoseconds) := parseSpec query 0 0
  let nanoseconds := nanoseconds % (1000 * 1000 * 1000)
  let seconds := (seconds + nanoseconds / (1000 * 1000 * 1000)) % 2 ^ 64
  { tvSec := toLong seconds, tvNsec := toLong nanoseconds }

/-- `camio_istream_periodic_timeout_open`, with what it passes to `timerfd_settime`. -/
def camioIstreamPeriodicTimeoutOpen (s : PeriodicTimeout) (descr : CamioDescr)
    (calls : TimerCalls) : Exit (PeriodicTimeout × Itimerspec) :=
  if descr.optHead.isSome then
    eprintfExit .unknownOpt "Option(s) supplied, but none expected\n"
  else
    match descr.query with
    | none => eprintfExit .nullPtr
        "No timer specification supplied expected 'seconds.nanoseconds' format\n"
    | some query =>
      let new := { itValue := specTimes query, itInterval := specTimes query }
      if calls.create = -1 then eprintfExit .fileOpen "Could not open monotonic clock"
      else if calls.settime new < -1 then eprintfExit .ioctl "Could not set monotonic clock"
      else .ok ({ s with fd := calls.create, isClosed := false }, new)

/-- A time of `ns` nanoseconds, with less than a second of them in `tv_nsec`. -/
structure Timespec.Lasts (t : Timespec) (ns : Nat) : Prop where
  nonneg : 0 ≤ t.tvNsec
  lt : t.tvNsec < 10 ^ 9
  total : t.tvSec * 10 ^ 9 + t.tvNsec = ns

/-- If its calls succeed, `open` sets a timer with a period of `ns` nanoseconds. -/
def SetsPeriod (query : List UInt8) (ns : Nat) : Prop :=
  ∀ (s : PeriodicTimeout) (descr : CamioDescr) (calls : TimerCalls), descr.optHead = none →
    descr.query = some query → calls.create ≠ -1 → (∀ new, -1 ≤ calls.settime new) →
      ∃ s' new, camioIstreamPeriodicTimeoutOpen s descr calls = .ok (s', new) ∧
        new.itValue.Lasts ns ∧ new.itInterval.Lasts ns

section Periods

variable {whole frac : List UInt8} {ns : Nat}

/-- Characters in front of the '.' are collected. -/
theorem parseSpec_append {cs : List UInt8} (hdot : ch '.' ∉ cs) (rest : List UInt8)
    (seconds temp : Nat) :
    parseSpec (cs ++ rest) seconds temp = parseSpec rest seconds (addDigits temp cs) := by
  induction cs generalizing temp with
  | nil => rfl
  | cons c cs ih =>
      rw [List.mem_cons, not_or] at hdot
      rw [List.cons_append, parseSpec, if_neg fun h => hdot.1 h.symm, ih hdot.2, addDigits_cons]

theorem dot_not_mem {digits : List UInt8} (hdigits : ∀ c ∈ digits, isDigit c = true) :
    ch '.' ∉ digits := fun h => absurd (hdigits _ h) (by decide)

/-- Both numbers of a specification are read as they are written. -/
theorem parseSpec_eq (hwhole : ∀ c ∈ whole, isDigit c = true)
    (hfrac : ∀ c ∈ frac, isDigit c = true) :
    parseSpec (whole ++ ch '.' :: frac) 0 0
      = (digitsFrom 10 0 whole % 2 ^ 64, digitsFrom 10 0 frac % 2 ^ 64) := by
  have hseconds : addDigits 0 whole = digitsFrom 10 0 whole % 2 ^ 64 := addDigits_eq hwhole 0
  have hnanoseconds : addDigits 0 frac = digitsFrom 10 0 frac % 2 ^ 64 := addDigits_eq hfrac 0
  have hend := parseSpec_append (dot_not_mem hfrac) [] (digitsFrom 10 0 whole % 2 ^ 64) 0
  rw [List.append_nil] at hend
  rw [parseSpec_append (dot_not_mem hwhole), parseSpec, if_pos rfl, hseconds, hend, hnanoseconds,
    parseSpec]

theorem toLong_of_lt {v : Nat} (h : v < 2 ^ 62) : toLong v = v :=
  Int.bmod_eq_of_le (by omega) (by omega)

/-- Nothing is carried from the reduced nanoseconds. -/
theorem carry_eq {seconds : Nat} (h : seconds < 2 ^ 62) (nanoseconds : Nat) :
    (seconds % 2 ^ 64 + nanoseconds % (1000 * 1000 * 1000) / (1000 * 1000 * 1000)) % 2 ^ 64
      = seconds := by
  omega

theorem specTimes_eq (hwhole : ∀ c ∈ whole, isDigit c = true)
    (hfrac : ∀ c ∈ frac, isDigit c = true) (hseconds : digitsFrom 10 0 whole < 2 ^ 62)
    (hnanoseconds : digitsFrom 10 0 frac < 2 ^ 62) :
    specTimes (whole ++ ch '.' :: frac)
      = ⟨digitsFrom 10 0 whole, (digitsFrom 10 0 frac % (1000 * 1000 * 1000) : Nat)⟩ := by
  have hmod : digitsFrom 10 0 frac % 2 ^ 64 = digitsFrom 10 0 frac := Nat.mod_eq_of_lt (by omega)
  have hlt : digitsFrom 10 0 frac % (1000 * 1000 * 1000) < 2 ^ 62 := by omega
  rw [specTimes, parseSpec_eq hwhole hfrac, hmod]
  dsimp only
  rw [carry_eq hseconds, toLong_of_lt hseconds, toLong_of_lt hlt]

/-- With calls that succeed, the period is that of the specification. -/
theorem setsPeriod_iff {query : List UInt8} : SetsPeriod query ns ↔ (specTimes query).Lasts ns := by
  constructor
  · intro h
    have hsettime : ∀ new, -1 ≤ (⟨3, fun _ => 0⟩ : TimerCalls).settime new := fun _ => by simp
    obtain ⟨s', new, hopen, -, hlasts⟩ := h camioIstreamPeriodicTimeoutConstruct
      { camioDescrConstruct with query := some query } ⟨3, fun _ => 0⟩ rfl rfl (by decide) hsettime
    cases hopen
    exact hlasts
  · intro hlasts s descr calls hopts hquery hcreate hsettime
    refine ⟨{ s with fd := calls.create, isClosed := false },
      ⟨specTimes query, specTimes query⟩, ?_, hlasts, hlasts⟩
    rw [camioIstreamPeriodicTimeoutOpen, hopts, if_neg (by decide), hquery]
    dsimp only
    rw [if_neg hcreate, if_neg (Int.not_lt.mpr (hsettime _))]

/-- A specification with digits on both sides of the '.' keeps its total exactly if there
    is less than a second of nanoseconds in it. -/
theorem period_keeps_total_iff (hwhole : ∀ c ∈ whole, isDigit c = true)
    (hfrac : ∀ c ∈ frac, isDigit c = true) (hseconds : digitsFrom 10 0 whole < 2 ^ 62)
    (hnanoseconds : digitsFrom 10 0 frac < 2 ^ 62) :
    SetsPeriod (whole ++ ch '.' :: frac) (digitsFrom 10 0 whole * 10 ^ 9 + digitsFrom 10 0 frac) ↔
      digitsFrom 10 0 frac < 10 ^ 9 := by
  rw [setsPeriod_iff, specTimes_eq hwhole hfrac hseconds hnanoseconds]
  constructor
  · rintro ⟨-, -, htotal⟩
    dsimp only at htotal
    omega
  · intro hlt
    have hmod : digitsFrom 10 0 frac % (1000 * 1000 * 1000) = digitsFrom 10 0 frac :=
      Nat.mod_eq_of_lt hlt
    rw [hmod]
    exact ⟨Int.natCast_nonneg _, by dsimp only; omega, by dsimp only; omega⟩

theorem period_keeps_total_iff_one_five :
    SetsPeriod ([49] ++ ch '.' :: [53]) (digitsFrom 10 0 [49] * 10 ^ 9 + digitsFrom 10 0 [53]) ↔
      digitsFrom 10 0 [53] < 10 ^ 9 :=
  period_keeps_total_iff (by simp [isDigit]) (by simp [isDigit]) (by decide) (by decide)

/-- A second and a half, all of it given in nanoseconds, is set as half a second. -/
theorem period_keeps_total_fails_carry :
    ¬ ∀ whole frac : List UInt8, (∀ c ∈ whole, isDigit c = true) →
      (∀ c ∈ frac, isDigit c = true) → digitsFrom 10 0 whole < 2 ^ 62 →
      digitsFrom 10 0 frac < 2 ^ 62 →
      SetsPeriod (whole ++ ch '.' :: frac)
        (digitsFrom 10 0 whole * 10 ^ 9 + digitsFrom 10 0 frac) := by
  intro hall
  have hzero : ∀ c ∈ ([48] : List UInt8), isDigit c = true := by simp [isDigit]
  have hdigits : ∀ c ∈ ([49, 53] ++ List.replicate 8 48 : List UInt8), isDigit c = true := by
    simp [isDigit]
  have hvalue : digitsFrom 10 0 ([49, 53] ++ List.replicate 8 48) = 1500000000 := by decide
  have hseconds : digitsFrom 10 0 [48] < 2 ^ 62 := by decide
  have hnanoseconds : digitsFrom 10 0 ([49, 53] ++ List.replicate 8 48) < 2 ^ 62 := by
    rw [hvalue]
    decide
  have hlasts := setsPeriod_iff.mp (hall _ _ hzero hdigits hseconds hnanoseconds)
  rw [specTimes_eq hzero hdigits hseconds hnanoseconds, hvalue] at hlasts
  exact absurd hlasts.total (by decide)

end Periods

end Camio.Timeout
