/-
  Camio.Erf.Exa

  `camio_istream_exa.c`: frames of an ExaNIC card, each received behind the header of a
  record that `prepare_next` then fills in.

  The record declares the length of header and frame.  What `prepare_next` keeps, and
  `start_read` returns, is the length of the frame alone.
-/

import Camio.Erf.Dag

namespace Camio.Erf

open Camio.Lib

abbrev exanicPorts : Nat := 4
abbrev dataBuff : Nat := 2048

/-- What a call of `exanic_receive_frame` comes to: its result, which is the length of the
    frame, or not positive; what it has stored, which is never more than there is space for;
    and the low bits of the time stamp. -/
structure RxCall where
  result : Int
  bytes : List UInt8
  timestampLo : Nat
  length_eq : 0 < result → result = bytes.length
  fits : bytes.length ≤ dataBuff - dstOffset

/-- `camio_istream_exa_t`, with the memory `exa_data` lies in.  Of the receive buffers it
    matters which there are. -/
structure IstreamExa where
  isClosed : Bool
  exanicRx : Nat → Bool
  port : Nat
  exaData : Nat
  dataSize : Nat
  mem : Mem

/-- The fields as `camio_istream_exa_construct` initialises them; `port` is left as it is. -/
def camioIstreamExaConstruct (port exaData : Nat) (mem : Mem) : IstreamExa :=
  { isClosed := true, exanicRx := fun _ => false, port := port, exaData := exaData, dataSize := 0
    mem := mem }

/-- The ports in the order in which they are asked. -/
def portOrder (s : IstreamExa) : List Nat :=
  (List.range exanicPorts).map fun i => (s.port + i) % exanicPorts

section Stream

-- `exanic_timestamp_to_counter`
variable (counter : Nat → Nat)

/-- The record of a frame that has arrived on port `p`. -/
def takeFrame (s : IstreamExa) (mem : Mem) (p : Nat) (rx : RxCall) : IstreamExa :=
  { s with
    mem := setFields mem s.exaData (counter rx.timestampLo) p (dstOffset + rx.result.toNat)
      rx.result.toNat
    port := p + 1
    dataSize := rx.result.toNat }

/-- The loop over the ports; `poll` says what receiving on each of them comes to. -/
def receiveFrame (poll : Nat → RxCall) (s : IstreamExa) : List Nat → Nat × IstreamExa
  | [] => (0, s)
  | p :: ports =>
      if s.exanicRx p then
        let mem := s.mem.write (s.exaData + dstOffset) (poll p).bytes
        if 0 < (poll p).result then
          ((poll p).result.toNat, takeFrame counter s mem p (poll p))
        else receiveFrame poll { s with mem := mem } ports
      else receiveFrame poll s ports

/-- `prepare_next` of the ExaNIC stream. -/
def exaPrepareNext (s : IstreamExa) (poll : Nat → RxCall) : Nat × IstreamExa :=
  if s.dataSize > 0 then (s.dataSize, s) else receiveFrame counter poll s (portOrder s)

/-- `camio_istream_exa_ready`. -/
def camioIstreamExaReady (s : IstreamExa) (poll : Nat → RxCall) : Nat × IstreamExa :=
  if s.dataSize ≠ 0 ∨ s.isClosed then (1, s) else exaPrepareNext counter s poll

/-- The loop that spins until there is data. -/
def exaSpin : IstreamExa → List (Nat → RxCall) → Option IstreamExa
  | _, [] => none
  | s, poll :: polls =>
      if (exaPrepareNext counter s poll).1 = 0 then exaSpin (exaPrepareNext counter s poll).2 polls
      else some (exaPrepareNext counter s poll).2

/-- `camio_istream_exa_start_read`: the pointer and the length it returns. -/
def camioIstreamExaStartRead (s : IstreamExa) (polls : List (Nat → RxCall)) :
    Option (Option (Nat × Nat) × IstreamExa) :=
  if s.isClosed then some (none, s)
  else
    (if s.dataSize = 0 then exaSpin counter s polls else some s).map fun s =>
      (some (s.exaData, s.dataSize), s)

/-- `camio_istream_exa_end_read`. -/
def camioIstreamExaEndRead (s : IstreamExa) : Nat × IstreamExa := (0, { s with dataSize := 0 })

/-- The port on which `prepare_next` finds a frame. -/
def framePort (s : IstreamExa) (poll : Nat → RxCall) (ports : List Nat) : Option Nat :=
  ports.find? fun p => s.exanicRx p && decide (0 < (poll p).result)

/-- The frame that the first of these calls to find one delivers. -/
def firstFrame (s : IstreamExa) (polls : List (Nat → RxCall)) : Option RxCall :=
  polls.findSome? fun poll => (framePort s poll (portOrder s)).map poll

/-- What the stream holds once a frame has been delivered. -/
structure HoldsFrame (s : IstreamExa) (rx : RxCall) : Prop where
  size : s.dataSize = rx.bytes.length
  rlen : recordRlen s.mem s.exaData = dstOffset + rx.bytes.length
  wlen : recordWlen s.mem s.exaData = rx.bytes.length
  frame : s.mem.read (s.exaData + dstOffset) rx.bytes.length = rx.bytes

variable {counter} {s : IstreamExa} {poll : Nat → RxCall} {polls : List (Nat → RxCall)}
  {rx : RxCall} {p : Nat}

variable (counter) in
theorem takeFrame_holds (hrx : 0 < rx.result) :
    HoldsFrame (takeFrame counter s (s.mem.write (s.exaData + dstOffset) rx.bytes) p rx) rx := by
  have hlen : rx.result.toNat = rx.bytes.length := by
    rw [rx.length_eq hrx, Int.toNat_natCast]
  have hfits : rx.bytes.length ≤ 2030 := rx.fits
  have hdst : dstOffset = 18 := rfl
  refine ⟨hlen, ?_, ?_, ?_⟩
  · rw [takeFrame, hlen]
    dsimp only
    rw [recordRlen_setFields, Nat.mod_eq_of_lt (by omega)]
  · rw [takeFrame, hlen]
    dsimp only
    rw [recordWlen_setFields, Nat.mod_eq_of_lt (by omega)]
  · rw [takeFrame]
    dsimp only
    rw [read_setFields, Mem.read_write_same]

variable (counter) in
/-- Ports without a frame may leave something in `exa_data`. -/
theorem receiveFrame_of_none {ports : List Nat} (h : framePort s poll ports = none) :
    ∃ mem, receiveFrame counter poll s ports = (0, { s with mem := mem }) := by
  induction ports generalizing s with
  | nil => exact ⟨s.mem, rfl⟩
  | cons p ports ih =>
      rw [framePort, List.find?_cons] at h
      rw [receiveFrame]
      split at h
      next => cases h
      next hidle =>
        by_cases hrx : s.exanicRx p = true
        · have hresult : ¬ 0 < (poll p).result := by simpa [hrx] using hidle
          rw [if_pos hrx, if_neg hresult]
          exact ih h
        · rw [if_neg hrx]
          exact ih h

variable (counter) in
/-- The first frame that is found is the one the stream then holds. -/
theorem receiveFrame_of_some {ports : List Nat} (h : framePort s poll ports = some p) :
    ∃ s', receiveFrame counter poll s ports = ((poll p).bytes.length, s') ∧
      0 < (poll p).bytes.length ∧ HoldsFrame s' (poll p) ∧ s'.isClosed = s.isClosed := by
  induction ports generalizing s with
  | nil => cases h
  | cons q ports ih =>
      rw [framePort, List.find?_cons] at h
      rw [receiveFrame]
      split at h
      next hfound =>
        obtain rfl := Option.some.inj h
        rw [Bool.and_eq_true, decide_eq_true_eq] at hfound
        obtain ⟨hrx, hresult⟩ := hfound
        have hlen := (poll q).length_eq hresult
        rw [if_pos hrx, if_pos hresult]
        have hholds := takeFrame_holds counter (s := s) (p := q) hresult
        refine ⟨_, congrArg (·, _) ?_, by omega, hholds, rfl⟩
        rw [hlen, Int.toNat_natCast]
      next hidle =>
        -- the port is not open, or has no frame
        by_cases hrx : s.exanicRx q = true
        · have hresult : ¬ 0 < (poll q).result := by simpa [hrx] using hidle
          rw [if_pos hrx, if_neg hresult]
          exact ih h
        · rw [if_neg hrx]
          exact ih h

variable (counter) in
/-- Without data waiting, the loop spins until the first frame is delivered. -/
theorem exaSpin_of_some (hnone : s.dataSize = 0) (h : firstFrame s polls = some rx) :
    ∃ s', exaSpin counter s polls = some s' ∧ HoldsFrame s' rx := by
  induction polls generalizing s with
  | nil => cases h
  | cons poll polls ih =>
      have hnext : exaPrepareNext counter s poll = receiveFrame counter poll s (portOrder s) := by
        rw [exaPrepareNext, if_neg (by rw [hnone]; decide)]
      rw [firstFrame, List.findSome?_cons] at h
      rw [exaSpin, hnext]
      cases hport : framePort s poll (portOrder s) with
      | some p =>
          rw [hport] at h
          obtain rfl := Option.some.inj h
          obtain ⟨s', hreceive, hpos, hholds, -⟩ := receiveFrame_of_some counter hport
          rw [hreceive, if_neg (Nat.ne_of_gt hpos)]
          exact ⟨s', rfl, hholds⟩
      | none =>
          rw [hport] at h
          obtain ⟨mem, hreceive⟩ := receiveFrame_of_none counter hport
          rw [hreceive, if_pos rfl]
          exact ih hnone h

/-! ## What `start_read` returns for a frame -/

variable (counter) in
/-- `start_read` returns `len` bytes at `out` for the frame `rx`, which a `ready` has
    delivered or the `start_read` itself. -/
inductive ReadsFrame (s : IstreamExa) (rx : RxCall) (out len : Nat) (mem : Mem) : Prop where
  | ready (poll : Nat → RxCall) (p : Nat) (polls : List (Nat → RxCall)) (s' : IstreamExa) :
      framePort s poll (portOrder s) = some p → rx = poll p →
      camioIstreamExaStartRead counter (camioIstreamExaReady counter s poll).2 polls
        = some (some (out, len), s') → mem = s'.mem → ReadsFrame s rx out len mem
  | spinning (polls : List (Nat → RxCall)) (s' : IstreamExa) :
      firstFrame s polls = some rx →
      camioIstreamExaStartRead counter s polls = some (some (out, len), s') → mem = s'.mem →
      ReadsFrame s rx out len mem

/-- The record declares the length that was returned, which covers its header and all of
    the frame, and the length of the frame. -/
structure Declares (mem : Mem) (out len n : Nat) : Prop where
  rlen : len = recordRlen mem out
  covers : dstOffset + n ≤ len
  wlen : recordWlen mem out = n

/-- A stream that holds a frame returns its length. -/
theorem startRead_of_holds {out len : Nat} {s' : IstreamExa} (hopen : s.isClosed = false)
    (hholds : HoldsFrame s rx) (hpos : 0 < rx.bytes.length)
    (h : camioIstreamExaStartRead counter s polls = some (some (out, len), s')) :
    s' = s ∧ out = s.exaData ∧ len = rx.bytes.length := by
  have hsize : s.dataSize ≠ 0 := by
    rw [hholds.size]
    omega
  rw [camioIstreamExaStartRead, if_neg (by rw [hopen]; decide), if_neg hsize, Option.map_some] at h
  cases h
  exact ⟨rfl, rfl, hholds.size⟩

/-- What `start_read` returns is the length of the frame, and the record is longer. -/
theorem ReadsFrame.spec {out len : Nat} {mem : Mem} (hopen : s.isClosed = false)
    (hnone : s.dataSize = 0) (h : ReadsFrame counter s rx out len mem) :
    len = rx.bytes.length ∧ recordRlen mem out = dstOffset + rx.bytes.length ∧
      recordWlen mem out = rx.bytes.length ∧
      mem.read (out + dstOffset) rx.bytes.length = rx.bytes := by
  cases h with
  | ready poll p polls s' hport hrx hread hmem =>
      have hready : camioIstreamExaReady counter s poll
          = receiveFrame counter poll s (portOrder s) := by
        rw [camioIstreamExaReady, hnone, hopen, exaPrepareNext, hnone, if_neg (by decide),
          if_neg (by decide)]
      obtain ⟨t, hreceive, hpos, hholds, hclosed⟩ := receiveFrame_of_some counter hport
      rw [hready, hreceive] at hread
      rw [hrx, hmem]
      obtain ⟨rfl, rfl, rfl⟩ := startRead_of_holds (hclosed.trans hopen) hholds hpos hread
      exact ⟨rfl, hholds.rlen, hholds.wlen, hholds.frame⟩
  | spinning polls s' hfirst hread hmem =>
      obtain ⟨t, hspin, hholds⟩ := exaSpin_of_some counter hnone hfirst
      rw [camioIstreamExaStartRead, if_neg (by rw [hopen]; decide), if_pos hnone, hspin] at hread
      cases hread
      rw [hmem]
      exact ⟨hholds.size, hholds.rlen, hholds.wlen, hholds.frame⟩

/-- No frame is returned with the length that its record declares: the header is missing. -/
theorem exa_record_length_never {out len : Nat} {mem : Mem} (hopen : s.isClosed = false)
    (hnone : s.dataSize = 0) (h : ReadsFrame counter s rx out len mem) :
    ¬ Declares mem out len rx.bytes.length := by
  obtain ⟨hlen, hrlen, -, -⟩ := h.spec hopen hnone
  intro hdeclares
  have hcovers := hdeclares.covers
  have hdst : dstOffset = 18 := rfl
  omega

end Stream

/-- A stream with a buffer for each port. -/
def demoExa : IstreamExa :=
  { camioIstreamExaConstruct 0 0 (fun _ => 0) with
    isClosed := false, exanicRx := fun _ => true }

/-- A frame of a single byte. -/
def demoFrame : RxCall where
  result := 1
  bytes := [83]
  timestampLo := 0
  length_eq _ := rfl
  fits := by decide

theorem demoExa_reads : ∃ out len mem, ReadsFrame id demoExa demoFrame out len mem :=
  ⟨_, _, _, .ready (fun _ => demoFrame) 0 [] _ rfl rfl rfl rfl⟩

theorem exa_record_length_never_one_byte :
    ∃ out len mem, ReadsFrame id demoExa demoFrame out len mem ∧
      ¬ Declares mem out len demoFrame.bytes.length := by
  obtain ⟨out, len, mem, hreads⟩ := demoExa_reads
  exact ⟨out, len, mem, hreads, exa_record_length_never rfl rfl hreads⟩

/-- A single byte is returned with a record that declares nineteen. -/
theorem exa_record_length_fails_one_byte :
    ¬ ∀ (counter : Nat → Nat) (s : IstreamExa) (rx : RxCall) (out len : Nat) (mem : Mem),
      s.isClosed = false → s.dataSize = 0 → ReadsFrame counter s rx out len mem →
      Declares mem out len rx.bytes.length := by
  intro hall
  obtain ⟨out, len, mem, hreads⟩ := demoExa_reads
  have hdeclares := hall id demoExa demoFrame out len mem rfl rfl hreads
  obtain ⟨hlen, -, -, -⟩ := hreads.spec rfl rfl
  have hcovers := hdeclares.covers
  rw [hlen] at hcovers
  exact absurd hcovers (by decide)

end Camio.Erf
