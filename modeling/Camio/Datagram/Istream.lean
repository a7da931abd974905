/-
  Camio.Datagram.Istream

  `camio_istream_raw.c` and `camio_istream_udp.c`: streams of datagrams, Ethernet
  frames and UDP packets.  `prepare_next` receives a datagram into the one buffer of
  the stream, `bytes_read` says how much of it is waiting, and `start_read` hands the
  buffer out.

  The two are copies of one another but for `open` and for one branch of
  `prepare_next`: the raw stream expects that `recv` would block.
-/

import Mathlib.Data.PNat.Defs
import Camio.Descr.Parse
import Camio.Errors
import Camio.Lib.Socket

namespace Camio.Datagram

open Camio.Lib Camio.Descr

/-- `camio_istream_raw_t` and `camio_istream_udp_t`, with the memory `buffer` points into
    and the socket behind the descriptor. -/
structure DatagramIstream where
  isClosed : Bool
  buffer : Nat
  bufferSize : Nat
  bytesRead : Nat
  mem : Mem
  fd : Socket

/-- Which of the two a stream is. -/
inductive Kind where
  | raw
  | udp
deriving DecidableEq

/-- The fields as the two constructors initialise them. -/
def datagramConstruct (mem : Mem) : DatagramIstream :=
  { isClosed := true, buffer := 0, bufferSize := 0, bytesRead := 0, mem := mem
    fd := { nonblocking := false, turns := [] } }

/-- What the two `open` functions do with their options, buffer and socket.  `block` is
    what `malloc` returned and `bound` what the calls that make and bind the socket come
    to: the socket, or the exit of the one that failed. -/
def datagramOpen (query : Exit Unit) (s : DatagramIstream) (descr : CamioDescr)
    (pageSize : ℕ+) (block : Option Nat) (bound : Exit Socket) : Exit DatagramIstream :=
  if descr.optHead.isSome then
    eprintfExit .unknownOpt "Option(s) supplied, but none expected\n"
  else query.bind fun _ =>
    match block with
    | none => eprintfExit .nullPtr "Failed to allocate message buffer\n"
    | some p => bound.map fun fd => { s with
        isClosed := false, buffer := p, bufferSize := pageSize * 1024, fd := fd }

/-- `camio_istream_raw_open`. -/
def camioIstreamRawOpen (s : DatagramIstream) (descr : CamioDescr) (pageSize : ℕ+)
    (block : Option Nat) (bound : Exit Socket) : Exit DatagramIstream :=
  datagramOpen
    (if descr.query.isNone then eprintfExit .nullPtr "No interface supplied\n" else .ok ())
    s descr pageSize block bound

/-- `camio_istream_udp_open`. -/
def camioIstreamUdpOpen (s : DatagramIstream) (descr : CamioDescr) (pageSize : ℕ+)
    (block : Option Nat) (bound : Exit Socket) : Exit DatagramIstream :=
  datagramOpen
    (match descr.query with
      | none => eprintfExit .socket "No address supplied\n"
      | some query =>
          if query.length > 22 then
            eprintfExit .socket "IP Address supplied is >22 chars \"%s\"\n"
          else .ok ())
    s descr pageSize block bound

/-- `set_fd_blocking`. -/
def setFdBlocking (fd : Socket) (blocking : Bool) : Socket := { fd with nonblocking := !blocking }

/-- What `prepare_next` does if `recv` reports that it would block. -/
def recvWouldBlock : Kind → DatagramIstream → Call (Nat × DatagramIstream)
  | .raw, s => .ok (some (0, s))
  | .udp, _ => eprintfExit .rcv "Could not receive from socket. Error = %s\n"

/-- `prepare_next`; `none` if it waits for a datagram for ever.  The buffer is smaller than
    2^31 bytes, so that an `int` holds what `recv` returns. -/
def prepareNext (kind : Kind) (s : DatagramIstream) (blocking : Bool) :
    Call (Nat × DatagramIstream) :=
  if s.bytesRead ≠ 0 then .ok (some (s.bytesRead, s))
  else
    match (setFdBlocking s.fd blocking).recv s.bufferSize with
    | (.data bytes, fd) => .ok (some (bytes.length, { s with
        mem := s.mem.write s.buffer bytes
        fd := fd
        bytesRead := bytes.length }))
    | (.wouldBlock, fd) => recvWouldBlock kind { s with fd := fd }
    | (.error, _) => eprintfExit .rcv "Could not receive from socket. Error = %s\n"
    | (.waiting, _) => .ok none

def datagramReady (kind : Kind) (s : DatagramIstream) : Call (Nat × DatagramIstream) :=
  if s.bytesRead ≠ 0 ∨ s.isClosed then .ok (some (1, s)) else prepareNext kind s false

/-- Hand out what is in the buffer: its pointer and its size. -/
def handOut (s : DatagramIstream) : (Nat × Nat) × DatagramIstream :=
  ((s.buffer, s.bytesRead), { s with bytesRead := 0 })

/-- The pointer and the size that `start_read` returns; `none` if it sets the pointer to
    `NULL` and returns 0. -/
def datagramStartRead (kind : Kind) (s : DatagramIstream) :
    Call (Option (Nat × Nat) × DatagramIstream) :=
  if s.isClosed then .ok (some (none, s))
  else if s.bytesRead = 0 then
    (prepareNext kind s true).map <| Option.map fun (n, s) =>
      if n = 0 then (none, s) else (some (handOut s).1, (handOut s).2)
  else .ok (some (some (handOut s).1, (handOut s).2))

/-- "Always true for socket I/O" -/
def datagramEndRead (s : DatagramIstream) : Nat × DatagramIstream := (0, s)

/-- `camio_istream_raw_ready`. -/
def camioIstreamRawReady (s : DatagramIstream) : Call (Nat × DatagramIstream) :=
  datagramReady .raw s

/-- `camio_istream_raw_start_read`. -/
def camioIstreamRawStartRead (s : DatagramIstream) :
    Call (Option (Nat × Nat) × DatagramIstream) := datagramStartRead .raw s

/-- `camio_istream_raw_end_read`. -/
def camioIstreamRawEndRead (s : DatagramIstream) : Nat × DatagramIstream := datagramEndRead s

/-- `camio_istream_udp_ready`. -/
def camioIstreamUdpReady (s : DatagramIstream) : Call (Nat × DatagramIstream) :=
  datagramReady .udp s

/-- `camio_istream_udp_start_read`. -/
def camioIstreamUdpStartRead (s : DatagramIstream) :
    Call (Option (Nat × Nat) × DatagramIstream) := datagramStartRead .udp s

/-- `camio_istream_udp_end_read`. -/
def camioIstreamUdpEndRead (s : DatagramIstream) : Nat × DatagramIstream := datagramEndRead s

/-! ## What a call does -/

section Calls

variable {kind : Kind} {s : DatagramIstream} {blocking : Bool}

/-- With nothing waiting, `prepare_next` puts the next datagram into the buffer; meets a
    `recv` that would block, in nonblocking mode; waits, in blocking mode, because there is
    none; or ends the program because `recv` failed. -/
theorem prepareNext_cases (hnone : s.bytesRead = 0) :
    ∃ fd, fd.turns <:+ s.fd.turns ∧
      ((∃ bytes, RecvTurn.datagram bytes ∈ s.fd.turns ∧
          received s.bufferSize s.fd.turns
            = bytes.take s.bufferSize :: received s.bufferSize fd.turns ∧
          prepareNext kind s blocking = .ok (some ((bytes.take s.bufferSize).length, { s with
            mem := s.mem.write s.buffer (bytes.take s.bufferSize)
            fd := fd
            bytesRead := (bytes.take s.bufferSize).length }))) ∨
        (blocking = false ∧
          received s.bufferSize fd.turns = received s.bufferSize s.fd.turns ∧
          prepareNext kind s blocking = recvWouldBlock kind { s with fd := fd }) ∨
        (blocking = true ∧ prepareNext kind s blocking = .ok none) ∨
        (RecvTurn.error ∈ s.fd.turns ∧ ∃ e, prepareNext kind s blocking = .error e)) := by
  obtain ⟨result, fd, hrecv, -, hsuffix, hcases⟩ :=
    (setFdBlocking s.fd blocking).recv_cases s.bufferSize
  refine ⟨fd, hsuffix, ?_⟩
  rw [prepareNext, if_neg (not_not_intro hnone), hrecv]
  rcases hcases with ⟨bytes, hmem, rfl, hreceived⟩ | ⟨rfl, hblock, hreceived⟩ |
    ⟨rfl, hblock, -⟩ | ⟨rfl, hmem⟩
  · exact Or.inl ⟨bytes, hmem, hreceived, rfl⟩
  · exact Or.inr (Or.inl ⟨by simpa [setFdBlocking] using hblock, hreceived, rfl⟩)
  · exact Or.inr (Or.inr (Or.inl ⟨by simpa [setFdBlocking] using hblock, rfl⟩))
  · exact Or.inr (Or.inr (Or.inr ⟨hmem, _, rfl⟩))

/-- A `recv` of the next `ready` would block. -/
def WouldBlock (s : DatagramIstream) : Prop :=
  s.isClosed = false ∧ s.bytesRead = 0 ∧
    ∀ turn, s.fd.turns.head? = some turn → turn = .wouldBlock

/-- Such a `ready` returns 0 and leaves the stream as it was, or it ends the program. -/
theorem ready_of_wouldBlock (h : WouldBlock s) :
    datagramReady kind s
      = recvWouldBlock kind { s with fd := { nonblocking := true, turns := s.fd.turns.tail } } := by
  obtain ⟨hopen, hnone, hturn⟩ := h
  have hrecv : (setFdBlocking s.fd false).recv s.bufferSize
      = (.wouldBlock, { nonblocking := true, turns := s.fd.turns.tail }) := by
    rw [Socket.recv, setFdBlocking]
    dsimp only
    cases hturns : s.fd.turns with
    | nil => rfl
    | cons turn turns =>
        rw [hturns] at hturn
        obtain rfl := hturn turn rfl
        rfl
  have hidle : ¬ (s.bytesRead ≠ 0 ∨ s.isClosed = true) := by
    rw [hnone, hopen]
    decide
  rw [datagramReady, if_neg hidle, prepareNext, if_neg (not_not_intro hnone), hrecv]

/-- Any other `ready` on an open stream with nothing waiting receives a datagram, or
    `recv` fails. -/
theorem ready_of_not_wouldBlock (hopen : s.isClosed = false) (hnone : s.bytesRead = 0)
    (h : ¬ WouldBlock s) :
    (∃ bytes turns, s.fd.turns = .datagram bytes :: turns ∧
      datagramReady kind s = .ok (some ((bytes.take s.bufferSize).length, { s with
        mem := s.mem.write s.buffer (bytes.take s.bufferSize)
        fd := { nonblocking := true, turns := turns }
        bytesRead := (bytes.take s.bufferSize).length }))) ∨
      (RecvTurn.error ∈ s.fd.turns ∧ ∃ e, datagramReady kind s = .error e) := by
  have hidle : ¬ (s.bytesRead ≠ 0 ∨ s.isClosed = true) := by
    rw [hnone, hopen]
    decide
  rw [datagramReady, if_neg hidle, prepareNext, if_neg (not_not_intro hnone), Socket.recv,
    setFdBlocking]
  dsimp only
  cases hturns : s.fd.turns with
  | nil =>
      refine absurd ⟨hopen, hnone, fun turn hturn => ?_⟩ h
      rw [hturns] at hturn
      cases hturn
  | cons turn turns =>
      cases turn with
      | datagram bytes => exact Or.inl ⟨bytes, turns, rfl, rfl⟩
      | wouldBlock =>
          refine absurd ⟨hopen, hnone, fun turn hturn => ?_⟩ h
          rw [hturns] at hturn
          exact (Option.some.inj hturn).symm
      | error => exact Or.inr ⟨List.mem_cons_self, _, rfl⟩

end Calls

end Camio.Datagram
