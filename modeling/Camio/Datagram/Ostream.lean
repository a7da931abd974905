/-
  Camio.Datagram.Ostream

  `camio_ostream_raw.c` and `camio_ostream_udp.c`: each message that is ended goes out as one
  datagram, from the buffer that stands assigned or from that of the stream.

  As with the istreams, the two are copies of one another but for `open` and the texts of
  their errors.
-/

import Camio.Datagram.Istream
import Camio.Lib.Heap

namespace Camio.Datagram

open Camio.Lib Camio.Descr

/-- `camio_ostream_raw_t` and `camio_ostream_udp_t`, with the memory `buffer` points into and
    the socket behind the descriptor.  An assigned buffer is the memory behind its pointer. -/
structure DatagramOstream where
  isClosed : Bool
  buffer : Nat
  bufferSize : Nat
  assignedBuffer : Option Mem
  assignedBufferSz : Nat
  mem : Mem
  fd : SendSocket

/-- The fields as the two constructors initialise them, with the socket that `open` makes. -/
def datagramOstreamConstruct (mem : Mem) (fd : SendSocket) : DatagramOstream :=
  { isClosed := true, buffer := 0, bufferSize := 0, assignedBuffer := none, assignedBufferSz := 0
    mem := mem, fd := fd }

/-- `camio_ostream_raw_open`.  `block` is what `malloc` returned and `bound` what the calls that
    make and bind the socket come to. -/
def camioOstreamRawOpen (s : DatagramOstream) (descr : CamioDescr) (pageSize : ℕ+)
    (block : Option Nat) (bound : Exit SendSocket) : Exit DatagramOstream :=
  if descr.optHead.isSome then
    eprintfExit .unknownOpt "Option(s) supplied, but none expected\n"
  else if descr.query.isNone then eprintfExit .nullPtr "No interface supplied\n"
  else
    match block with
    | none => eprintfExit .nullPtr "Failed to allocate message buffer\n"
    | some p => bound.map fun fd => { s with
        isClosed := false, buffer := p, bufferSize := pageSize, fd := fd }

/-- The two `start_write`: the buffer, grown "if it's not big enough". -/
def datagramStartWrite (A : Allocator) (s : DatagramOstream) (len : Nat) :
    Exit (Nat × DatagramOstream) :=
  if len > s.bufferSize then
    match A.realloc s.mem s.buffer s.bufferSize len with
    | none => eprintfExit .nullPtr "Could not grow message buffer\n"
    | some (p, m) => .ok (p, { s with mem := m, buffer := p, bufferSize := len })
  else .ok (s.buffer, s)

/-- The two `assign_write`; `none` is a `NULL` buffer. -/
def datagramAssignWrite (s : DatagramOstream) (buffer : Option Mem) (len : Nat) :
    Exit DatagramOstream :=
  match buffer with
  | none => eprintfExit .nullPtr "Assigned buffer is null."
  | some buffer => .ok { s with assignedBuffer := some buffer, assignedBufferSz := len }

/-- Where `end_write` takes the bytes from. -/
def DatagramOstream.source (s : DatagramOstream) : Mem :=
  match s.assignedBuffer with
  | some buffer => buffer
  | none => fun i => s.mem (s.buffer + i)

/-- What `end_write` says when nothing was sent; the raw stream looks at `errno` for an assigned
    buffer only. -/
def sendError (kind : Kind) (assigned again : Bool) : String :=
  match kind with
  | .raw =>
      if assigned && again then "Could not send on socket, non-blocking. Error = %s\n"
      else "Could not send on raw socket. Error = %s\n"
  | .udp => "Could not send on udp socket. Error = %s\n"

/-- The two `end_write`: what they return, and what has become of the socket.  A datagram is
    far shorter than 2^31 bytes, so that an `int` holds what `send` returns. -/
def datagramEndWrite (kind : Kind) (s : DatagramOstream) (len : Nat) :
    Exit DatagramOstream × SendSocket :=
  let (result, fd) := s.fd.send (s.source.read 0 len)
  if result < 1 then
    (eprintfExit .send (sendError kind s.assignedBuffer.isSome fd.again), fd)
  else if s.assignedBuffer.isSome then
    (.ok { s with assignedBuffer := none, assignedBufferSz := 0, fd := fd }, fd)
  else (.ok { s with fd := fd }, fd)

/-- `camio_ostream_raw_end_write`. -/
def camioOstreamRawEndWrite (s : DatagramOstream) (len : Nat) :
    Exit DatagramOstream × SendSocket := datagramEndWrite .raw s len

/-- `camio_ostream_udp_end_write`. -/
def camioOstreamUdpEndWrite (s : DatagramOstream) (len : Nat) :
    Exit DatagramOstream × SendSocket := datagramEndWrite .udp s len

/-- The message goes out and the stream goes on with nothing assigned, or the program ends: then
    nothing has gone out, unless the message was empty. -/
theorem datagramEndWrite_cases (kind : Kind) (s : DatagramOstream) (len : Nat) :
    ∃ fd', (datagramEndWrite kind s len
          = (.ok { s with assignedBuffer := none, fd := fd',
                          assignedBufferSz := if s.assignedBuffer.isSome then 0
                            else s.assignedBufferSz }, fd') ∧
        len ≠ 0 ∧ fd'.sent = s.fd.sent ++ [s.source.read 0 len]) ∨
      ∃ e, datagramEndWrite kind s len = (.error e, fd') ∧
        (fd'.sent = s.fd.sent ∨ len = 0 ∧ fd'.sent = s.fd.sent ++ [[]]) := by
  obtain ⟨fd', ⟨hsend, hsent⟩ | ⟨hsend, hsent⟩⟩ := s.fd.send_cases (s.source.read 0 len)
  · refine ⟨fd', ?_⟩
    rw [datagramEndWrite, hsend, Mem.read_length]
    dsimp only
    by_cases hzero : len = 0
    · subst hzero
      exact Or.inr ⟨⟨.send, sendError kind s.assignedBuffer.isSome fd'.again⟩, if_pos (by decide),
        Or.inr ⟨rfl, hsent⟩⟩
    · refine Or.inl ⟨?_, hzero, hsent⟩
      rw [if_neg (by omega)]
      cases hassigned : s.assignedBuffer with
      | some buffer => rfl
      | none =>
          rw [if_neg (by simp), if_neg (by simp), ← hassigned]
  · refine ⟨fd', Or.inr ⟨⟨.send, sendError kind s.assignedBuffer.isSome fd'.again⟩, ?_,
      Or.inl hsent⟩⟩
    rw [datagramEndWrite, hsend]
    exact if_pos (by decide)

end Camio.Datagram
