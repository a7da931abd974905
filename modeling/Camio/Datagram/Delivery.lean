/-
  Camio.Datagram.Delivery

  The calls of a raw or udp stream as one step function, and what becomes of the
  datagrams.

  As long as the program runs, each datagram has been handed out, is waiting in the
  buffer or is still to be received, in this order.  The raw stream keeps running when
  `recv` would block; the udp stream takes that for a failure and ends the program.
-/

import Camio.Datagram.Istream
import Camio.Lib.Run

namespace Camio.Datagram

open Camio.Lib Camio.Descr

/-- A stream, the datagrams it has handed out and the exit that has ended the program. -/
structure Session where
  stream : DatagramIstream
  delivered : List (List UInt8)
  exit : Option ErrorExit

/-- The calls. -/
inductive Event where
  | ready
  | startRead
  | endRead
deriving DecidableEq

/-- A call while the program runs; one that waits for ever is refused. -/
def call (kind : Kind) (σ : Session) : Event → Option Session
  | .ready =>
      match datagramReady kind σ.stream with
      | .error e => some { σ with exit := some e }
      | .ok none => none
      | .ok (some (_, s)) => some { σ with stream := s }
  | .startRead =>
      match datagramStartRead kind σ.stream with
      | .error e => some { σ with exit := some e }
      | .ok none => none
      | .ok (some (none, s)) => some { σ with stream := s }
      | .ok (some (some line, s)) => some { σ with
          stream := s, delivered := σ.delivered ++ [s.mem.read line.1 line.2] }
  | .endRead => some { σ with stream := (datagramEndRead σ.stream).2 }

/-- There are no calls after an exit. -/
def step (kind : Kind) (σ : Session) (e : Event) : Option Session :=
  if σ.exit.isSome then none else call kind σ e

/-- A stream that has just been opened on `fd`, with its buffer at `p`. -/
def opened (p : Nat) (mem : Mem) (pageSize : ℕ+) (fd : Socket) : DatagramIstream :=
  { datagramConstruct mem with
    isClosed := false, buffer := p, bufferSize := pageSize * 1024, fd := fd }

def init (p : Nat) (mem : Mem) (pageSize : ℕ+) (fd : Socket) : Session :=
  { stream := opened p mem pageSize fd, delivered := [], exit := none }

/-- The start state is what construction and `open` leave. -/
theorem opened_eq {descr : CamioDescr} {query : List UInt8} (hquery : descr.query = some query)
    (hlength : query.length ≤ 22) (hopts : descr.optHead = none) (p : Nat) (mem : Mem)
    (pageSize : ℕ+) (fd : Socket) :
    camioIstreamRawOpen (datagramConstruct mem) descr pageSize (some p) (.ok fd)
        = .ok (opened p mem pageSize fd) ∧
      camioIstreamUdpOpen (datagramConstruct mem) descr pageSize (some p) (.ok fd)
        = .ok (opened p mem pageSize fd) := by
  have hnone := Option.not_isSome_iff_eq_none.mpr hopts
  constructor
  · rw [camioIstreamRawOpen, datagramOpen, if_neg hnone, hquery]
    rfl
  · rw [camioIstreamUdpOpen, datagramOpen, if_neg hnone, hquery]
    dsimp only
    rw [if_neg (by omega)]
    rfl

/-! ## What becomes of the datagrams -/

/-- The datagram in the buffer, if one is waiting. -/
def pending (s : DatagramIstream) : List (List UInt8) :=
  if s.bytesRead = 0 then [] else [s.mem.read s.buffer s.bytesRead]

/-- The datagrams that are still to be received. -/
def coming (s : DatagramIstream) : List (List UInt8) := received s.bufferSize s.fd.turns

/-- The program is running, and the datagrams are accounted for. -/
structure Delivers (all : List (List UInt8)) (σ : Session) : Prop where
  running : σ.exit = none
  conserved : σ.delivered ++ pending σ.stream ++ coming σ.stream = all

/-- If `recv` would block, `ready` returns 0 and changes the stream no more than its
    socket. -/
def AnswersWouldBlock (kind : Kind) (σ : Session) (e : Event) : Prop :=
  e = .ready → WouldBlock σ.stream → datagramReady kind σ.stream = .ok (some (0, { σ.stream with
    fd := { nonblocking := true, turns := σ.stream.fd.turns.tail } }))

/-- The stream is a raw one, or the call is not a `ready` whose `recv` would block. -/
def Expected (kind : Kind) (σ : Session) (e : Event) : Prop :=
  kind = .udp → e = .ready → ¬ WouldBlock σ.stream

/-- The invariant: beside that, the buffer has room and no call of `recv` fails. -/
structure Inv (all : List (List UInt8)) (σ : Session) : Prop extends Delivers all σ where
  isOpen : σ.stream.isClosed = false
  room : 0 < σ.stream.bufferSize
  delivering : Delivering σ.stream.fd.turns

section Steps

variable {kind : Kind} {all : List (List UInt8)} {σ σ' : Session} {s : DatagramIstream}

/-- A datagram that is put into the buffer is waiting there. -/
theorem pending_of_data {bytes : List UInt8} (h : bytes ≠ []) (fd : Socket) :
    pending { s with
      mem := s.mem.write s.buffer bytes, fd := fd, bytesRead := bytes.length } = [bytes] := by
  rw [pending, if_neg (fun hzero => h (List.eq_nil_of_length_eq_zero hzero))]
  rw [Mem.read_write_same]

theorem take_ne_nil {turns : List RecvTurn} {bytes : List UInt8} {size : Nat}
    (h : Delivering turns) (hmem : RecvTurn.datagram bytes ∈ turns) (hsize : 0 < size) :
    bytes.take size ≠ [] := by
  intro hnil
  rcases List.take_eq_nil_iff.mp hnil with hzero | rfl
  · omega
  · exact h.2 hmem

/-- What `prepare_next` may do on an open stream with nothing waiting: it puts the next
    datagram into the buffer, or there is none and it says so or ends the program. -/
theorem prepareNext_inv {blocking : Bool} {n : Nat} {s : DatagramIstream} (h : Inv all σ)
    (hnone : σ.stream.bytesRead = 0)
    (hnext : prepareNext kind σ.stream blocking = .ok (some (n, s))) :
    Inv all { σ with stream := s } ∧ n = s.bytesRead := by
  obtain ⟨fd, hsuffix, hcases⟩ := @prepareNext_cases kind σ.stream blocking hnone
  have hdelivering := h.delivering.of_suffix hsuffix
  have hconserved := h.conserved
  have hempty : pending σ.stream = [] := if_pos hnone
  rw [hempty, List.append_nil] at hconserved
  rcases hcases with ⟨bytes, hmem, hreceived, heq⟩ | ⟨-, hreceived, heq⟩ | ⟨-, heq⟩ | ⟨-, e, heq⟩
  · rw [heq] at hnext
    cases hnext
    refine ⟨⟨⟨h.running, ?_⟩, h.isOpen, h.room, hdelivering⟩, rfl⟩
    rw [pending_of_data (take_ne_nil h.delivering hmem h.room), List.append_assoc]
    rw [coming, hreceived] at hconserved
    exact hconserved
  · rw [heq] at hnext
    cases kind with
    | udp => cases hnext
    | raw =>
        cases hnext
        refine ⟨⟨⟨h.running, ?_⟩, h.isOpen, h.room, hdelivering⟩, hnone.symm⟩
        rw [show pending { σ.stream with fd := fd } = [] from hempty, List.append_nil, coming,
          hreceived]
        exact hconserved
  · rw [heq] at hnext
    cases hnext
  · rw [heq] at hnext
    cases hnext

/-- Handing out what is waiting delivers it. -/
theorem Inv.handOut (h : Inv all σ) (hwaiting : σ.stream.bytesRead ≠ 0) :
    Inv all { σ with
      stream := (handOut σ.stream).2
      delivered := σ.delivered ++ [(Datagram.handOut σ.stream).2.mem.read
        (Datagram.handOut σ.stream).1.1 (Datagram.handOut σ.stream).1.2] } := by
  have hconserved := h.conserved
  rw [pending, if_neg hwaiting] at hconserved
  refine ⟨⟨h.running, ?_⟩, h.isOpen, h.room, h.delivering⟩
  rw [show pending (Datagram.handOut σ.stream).2 = [] from rfl, List.append_nil]
  exact hconserved

theorem ready_eq (hopen : s.isClosed = false) (hnone : s.bytesRead = 0) :
    datagramReady kind s = prepareNext kind s false := by
  rw [datagramReady, if_neg]
  rw [hnone, hopen]
  decide

/-- `ready` ends the program exactly if the stream does not expect what it meets. -/
theorem Inv.ready_error_iff (h : Inv all σ) :
    (∃ e, datagramReady kind σ.stream = .error e) ↔ kind = .udp ∧ WouldBlock σ.stream := by
  constructor
  · rintro ⟨e, herror⟩
    by_cases hnone : σ.stream.bytesRead = 0
    · by_cases hblock : WouldBlock σ.stream
      · rw [ready_of_wouldBlock hblock] at herror
        cases kind with
        | raw => cases herror
        | udp => exact ⟨rfl, hblock⟩
      · rcases @ready_of_not_wouldBlock kind _ h.isOpen hnone hblock with
          ⟨bytes, turns, -, heq⟩ | ⟨hmem, -⟩
        · rw [heq] at herror
          cases herror
        · exact absurd hmem h.delivering.1
    · rw [datagramReady, if_pos (Or.inl hnone)] at herror
      cases herror
  · rintro ⟨rfl, hblock⟩
    exact ⟨_, ready_of_wouldBlock hblock⟩

theorem step_running (h : σ.exit = none) (e : Event) : step kind σ e = call kind σ e := by
  rw [Datagram.step, h]
  rfl

/-- A call that the stream expects keeps the invariant. -/
theorem Inv.step {e : Event} (h : Inv all σ) (hexpected : Expected kind σ e)
    (hstep : step kind σ e = some σ') : Inv all σ' := by
  rw [step_running h.running, call.eq_def] at hstep
  cases e with
  | ready =>
      have hrun : ¬ ∃ e, datagramReady kind σ.stream = .error e := fun herror =>
        hexpected (h.ready_error_iff.mp herror).1 rfl (h.ready_error_iff.mp herror).2
      dsimp only at hstep
      by_cases hnone : σ.stream.bytesRead = 0
      · rw [ready_eq h.isOpen hnone] at hstep hrun
        cases hnext : prepareNext kind σ.stream false with
        | error e => exact absurd ⟨e, hnext⟩ hrun
        | ok r =>
            rw [hnext] at hstep
            cases r with
            | none => cases hstep
            | some r =>
                obtain rfl := Option.some.inj hstep
                exact (prepareNext_inv h hnone hnext).1
      · rw [datagramReady, if_pos (Or.inl hnone)] at hstep
        obtain rfl := Option.some.inj hstep
        exact h
  | startRead =>
      have hopen : ¬ σ.stream.isClosed = true := by
        rw [h.isOpen]
        decide
      simp only [datagramStartRead, if_neg hopen] at hstep
      by_cases hnone : σ.stream.bytesRead = 0
      · rw [if_pos hnone] at hstep
        cases hnext : prepareNext kind σ.stream true with
        | error e =>
            -- a blocking `recv` does not report that it would block
            obtain ⟨fd, -, ⟨_, _, _, heq⟩ | ⟨hblock, -⟩ | ⟨-, heq⟩ | ⟨hmem, -⟩⟩ :=
              @prepareNext_cases kind σ.stream true hnone
            · rw [heq] at hnext
              cases hnext
            · cases hblock
            · rw [heq] at hnext
              cases hnext
            · exact absurd hmem h.delivering.1
        | ok r =>
            rw [hnext] at hstep
            cases r with
            | none => cases hstep
            | some r =>
                obtain ⟨n, s⟩ := r
                obtain ⟨hinv, hn⟩ := prepareNext_inv h hnone hnext
                dsimp only [Except.map, Option.map] at hstep
                by_cases hzero : n = 0
                · rw [if_pos hzero] at hstep
                  obtain rfl := Option.some.inj hstep
                  exact hinv
                · rw [if_neg hzero] at hstep
                  obtain rfl := Option.some.inj hstep
                  exact hinv.handOut (fun hread => hzero (hn.trans hread))
      · rw [if_neg hnone] at hstep
        obtain rfl := Option.some.inj hstep
        exact h.handOut hnone
  | endRead =>
      obtain rfl := Option.some.inj hstep
      exact h

/-- A call that it does not expect ends the program. -/
theorem Inv.exit_of_not_expected {e : Event} (h : Inv all σ) (hexpected : ¬ Expected kind σ e)
    (hstep : Datagram.step kind σ e = some σ') : ¬ Delivers all σ' := by
  simp only [Expected, Classical.not_imp, not_not] at hexpected
  obtain ⟨hkind, rfl, hblock⟩ := hexpected
  obtain ⟨err, herror⟩ := h.ready_error_iff.mpr ⟨hkind, hblock⟩
  rw [step_running h.running, call.eq_def] at hstep
  dsimp only at hstep
  rw [herror] at hstep
  obtain rfl := Option.some.inj hstep
  exact fun hdelivers => absurd hdelivers.running nofun

theorem inv_init (p : Nat) (mem : Mem) (pageSize : ℕ+) {fd : Socket}
    (hturns : Delivering fd.turns) :
    Inv (received (pageSize * 1024) fd.turns) (init p mem pageSize fd) where
  running := rfl
  conserved := rfl
  isOpen := rfl
  room := Nat.mul_pos pageSize.pos (by decide)
  delivering := hturns

/-- The answer to a would-block follows from what the stream expects. -/
theorem Expected.answers {e : Event} (h : Expected kind σ e) : AnswersWouldBlock kind σ e := by
  intro he hblock
  rw [ready_of_wouldBlock hblock]
  cases kind with
  | raw => rfl
  | udp => exact absurd hblock (h rfl he)

end Steps

/-! ## Runs -/

/-- In every run over a socket that delivers datagrams, each of them once, in order and in
    full, and with the right answer to every would-block: always for the raw stream, and
    for the udp stream exactly if no `ready` meets a would-block. -/
theorem delivers_iff_expected {kind : Kind} {p : Nat} {mem : Mem} {pageSize : ℕ+} {fd : Socket}
    {es : List Event} {τ : Session} (hturns : Delivering fd.turns)
    (hrun : run (step kind) (init p mem pageSize fd) es = some τ) :
    ((∀ k σ, run (step kind) (init p mem pageSize fd) (es.take k) = some σ →
        Delivers (received (pageSize * 1024) fd.turns) σ) ∧
      Along (step kind) (AnswersWouldBlock kind) (init p mem pageSize fd) es) ↔
    Along (step kind) (Expected kind) (init p mem pageSize fd) es := by
  have hiff := forall_prefix_iff_along (Inv (received (pageSize * 1024) fd.turns))
    (fun _ h => h.toDelivers) (fun _ _ _ h hP hstep => h.step hP hstep)
    (fun _ _ _ h hP hstep => h.exit_of_not_expected hP hstep) (inv_init p mem pageSize hturns) hrun
  rw [hiff]
  exact ⟨fun h => h.1, fun h => ⟨h, h.mono fun _ _ hP => hP.answers⟩⟩

/-- A packet between two calls of `recv` that would block, taken by a blocking read. -/
theorem delivers_iff_expected_blocking :
    ∃ σ, run (step .udp) (init 64 (fun _ => 0) 4096 ⟨true, [.wouldBlock, .datagram [1, 2]]⟩)
        [.startRead, .endRead] = some σ ∧ σ.delivered = [[1, 2]] ∧
      Delivers [[1, 2]] σ := by
  have hturns : Delivering [.wouldBlock, .datagram [1, 2]] := by
    constructor <;> simp
  have hrun : run (step .udp) (init 64 (fun _ => 0) 4096 ⟨true, [.wouldBlock, .datagram [1, 2]]⟩)
      [.startRead, .endRead] = some _ := rfl
  refine ⟨_, hrun, rfl, ((delivers_iff_expected hturns hrun).mpr ?_).1 2 _ hrun⟩
  exact .cons nofun rfl (.cons nofun rfl trivial)

/-- A `ready` of the udp stream with nothing to receive ends the program. -/
theorem delivers_fails_udp :
    ¬ ∀ (kind : Kind) (p : Nat) (mem : Mem) (pageSize : ℕ+) (fd : Socket) (es : List Event)
      (σ : Session), Delivering fd.turns →
      run (step kind) (init p mem pageSize fd) es = some σ →
      Delivers (received (pageSize * 1024) fd.turns) σ := by
  intro hall
  have hturns : Delivering [.wouldBlock, .datagram [1, 2]] := by
    constructor <;> simp
  have hdelivers := hall .udp 64 (fun _ => 0) 4096 ⟨true, [.wouldBlock, .datagram [1, 2]]⟩
    [.ready] _ hturns rfl
  exact absurd hdelivers.running nofun

end Camio.Datagram
