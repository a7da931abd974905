/-
  Camio.Lib.Socket

  Datagram sockets as `recv` sees them.

  A socket is what its next calls of `recv` find: a datagram, nothing yet, or an
  error.  `recv` takes one datagram as a whole and drops the part of it that does not
  fit.  In blocking mode it waits until there is something, which may be for ever.
-/

import Camio.Lib.ByteMem

namespace Camio.Lib

/-- What one call of `recv` finds. -/
inductive RecvTurn where
  | datagram (bytes : List UInt8)
  | wouldBlock
  | error
deriving DecidableEq

structure Socket where
  nonblocking : Bool
  turns : List RecvTurn

/-- What a call of `recv` returned, unless it is still waiting. -/
inductive RecvResult where
  | data (bytes : List UInt8)
  | wouldBlock
  | error
  | waiting
deriving DecidableEq

/-- `recv(fd, buf, size, 0)`; there is nothing behind the listed turns. -/
def Socket.recv (fd : Socket) (size : Nat) : RecvResult × Socket :=
  match if fd.nonblocking then fd.turns else fd.turns.dropWhile (· == .wouldBlock) with
  | [] => (if fd.nonblocking then .wouldBlock else .waiting, { fd with turns := [] })
  | .datagram bytes :: turns => (.data (bytes.take size), { fd with turns := turns })
  | .wouldBlock :: turns => (.wouldBlock, { fd with turns := turns })
  | .error :: turns => (.error, { fd with turns := turns })

/-- The datagrams of the turns, as `recv` hands them to a buffer of this size. -/
def received (size : Nat) (turns : List RecvTurn) : List (List UInt8) :=
  turns.filterMap fun
    | .datagram bytes => some (bytes.take size)
    | _ => none

/-- No datagram is empty, and `recv` does not fail. -/
def Delivering (turns : List RecvTurn) : Prop :=
  RecvTurn.error ∉ turns ∧ RecvTurn.datagram [] ∉ turns

section Recv

variable {fd : Socket} {size : Nat}

theorem received_dropWhile (turns : List RecvTurn) :
    received size (turns.dropWhile (· == .wouldBlock)) = received size turns := by
  induction turns with
  | nil => rfl
  | cons turn turns ih =>
      rw [List.dropWhile_cons]
      cases turn with
      | wouldBlock => exact ih
      | datagram bytes => rfl
      | error => rfl

theorem Delivering.of_suffix {turns turns' : List RecvTurn} (h : Delivering turns)
    (hsuffix : turns' <:+ turns) : Delivering turns' :=
  ⟨fun herror => h.1 (hsuffix.subset herror), fun hempty => h.2 (hsuffix.subset hempty)⟩

/-- `recv` delivers the next datagram; would block, in nonblocking mode; waits, in blocking
    mode, because there is none; or fails. -/
theorem Socket.recv_cases (fd : Socket) (size : Nat) :
    ∃ result fd', fd.recv size = (result, fd') ∧ fd'.nonblocking = fd.nonblocking ∧
      fd'.turns <:+ fd.turns ∧
      ((∃ bytes, RecvTurn.datagram bytes ∈ fd.turns ∧ result = .data (bytes.take size) ∧
          received size fd.turns = bytes.take size :: received size fd'.turns) ∨
        (result = .wouldBlock ∧ fd.nonblocking = true ∧
          received size fd'.turns = received size fd.turns) ∨
        (result = .waiting ∧ fd.nonblocking = false ∧ received size fd.turns = []) ∨
        (result = .error ∧ RecvTurn.error ∈ fd.turns)) := by
  obtain ⟨turns, hturns⟩ : ∃ turns, turns
      = if fd.nonblocking then fd.turns else fd.turns.dropWhile (· == .wouldBlock) := ⟨_, rfl⟩
  have hsuffix : turns <:+ fd.turns := by
    rw [hturns]
    split
    · exact List.suffix_rfl
    · exact List.dropWhile_suffix _
  have hreceived : received size turns = received size fd.turns := by
    rw [hturns]
    split
    · rfl
    · exact received_dropWhile _
  rw [Socket.recv, ← hturns]
  cases turns with
  | nil =>
      refine ⟨_, _, rfl, rfl, List.nil_suffix, Or.inr ?_⟩
      cases hblock : fd.nonblocking with
      | true => exact Or.inl ⟨rfl, rfl, hreceived⟩
      | false => exact Or.inr (Or.inl ⟨rfl, rfl, hreceived.symm⟩)
  | cons turn turns =>
      have hmem : turn ∈ fd.turns := hsuffix.subset List.mem_cons_self
      have htail : turns <:+ fd.turns := (List.suffix_cons turn turns).trans hsuffix
      cases turn with
      | datagram bytes =>
          exact ⟨_, _, rfl, rfl, htail, Or.inl ⟨bytes, hmem, rfl, hreceived.symm⟩⟩
      | error => exact ⟨_, _, rfl, rfl, htail, Or.inr (Or.inr (Or.inr ⟨rfl, hmem⟩))⟩
      | wouldBlock =>
          refine ⟨_, _, rfl, rfl, htail, Or.inr (Or.inl ⟨rfl, ?_, hreceived⟩)⟩
          -- a blocking call has waited such turns out
          cases hblock : fd.nonblocking with
          | true => rfl
          | false =>
              have hhead := List.head?_dropWhile_not (· == RecvTurn.wouldBlock) fd.turns
              rw [hblock, if_neg Bool.false_ne_true] at hturns
              rw [← hturns] at hhead
              simp at hhead

end Recv

/-! ## Sending -/

/-- What one call of `send` does. -/
inductive SendTurn where
  | transfer
  | wouldBlock
  | error
deriving DecidableEq

/-- A datagram socket to send on: the datagrams that have gone out, the greatest size of one,
    whether `errno` is `EAGAIN`, and what the next calls do; calls beyond those transfer. -/
structure SendSocket where
  sent : List (List UInt8)
  maxSize : Nat
  again : Bool
  turns : List SendTurn

/-- `send(fd, buf, len, 0)` on the `len` bytes of `buf`: a datagram goes out as a whole or not
    at all. -/
def SendSocket.send (fd : SendSocket) (bytes : List UInt8) : Int × SendSocket :=
  match fd.turns with
  | .wouldBlock :: turns => (-1, { fd with again := true, turns := turns })
  | .error :: turns => (-1, { fd with again := false, turns := turns })
  | turns =>
      if bytes.length ≤ fd.maxSize then
        (bytes.length, { fd with sent := fd.sent ++ [bytes], turns := turns.tail })
      else (-1, { fd with again := false, turns := turns.tail })

/-- A datagram has gone out, or the call has failed. -/
theorem SendSocket.send_cases (fd : SendSocket) (bytes : List UInt8) :
    ∃ fd', (fd.send bytes = ((bytes.length : Int), fd') ∧ fd'.sent = fd.sent ++ [bytes]) ∨
      (fd.send bytes = (-1, fd') ∧ fd'.sent = fd.sent) := by
  obtain ⟨sent, maxSize, again, turns⟩ := fd
  rw [send.eq_def]
  split
  next => exact ⟨_, Or.inr ⟨rfl, rfl⟩⟩
  next => exact ⟨_, Or.inr ⟨rfl, rfl⟩⟩
  next =>
    split
    · exact ⟨_, Or.inl ⟨rfl, rfl⟩⟩
    · exact ⟨_, Or.inr ⟨rfl, rfl⟩⟩

end Camio.Lib
