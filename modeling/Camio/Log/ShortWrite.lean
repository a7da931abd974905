/-
  Camio.Log.ShortWrite

  A `write` that transfers less than it was asked to.  `end_write` does not look at what
  `write` returns, so what a short write leaves over is lost: the end of a message that was
  assigned, or of one in the buffer with its newline.  The newline behind an assigned
  message is one byte, which a successful `write` always transfers.

  This is about `escape` off; the blob ostream next to it writes until all is through.
-/

import Camio.Log.Framing

namespace Camio.Log

open Camio.Lib

/-- The next calls of `write` succeed. -/
def Succeeds (fd : WriteFd) : Prop := ∀ turn ∈ fd.turns, turn ≠ .error

/-- The next call of `write` transfers `k` bytes, if it is asked to. -/
def Takes (fd : WriteFd) (k : Nat) : Prop :=
  ∀ n turns, fd.turns = .accept n :: turns → k ≤ n

/-- What the first `write` of `end_write` is asked to transfer. -/
def LogOstream.request (s : LogOstream) (len : Nat) : Nat :=
  if s.assignedBuffer.isSome then len else len + 1

/-- The first `write` of every `end_write` transfers all that it is asked to. -/
def TransfersAll (σ : WriteSession) : WriteEvent → Prop
  | .endWrite len => Takes σ.stream.fd (σ.stream.request len)
  | _ => True

/-! ## One call of `write` -/

section Write

variable {fd : WriteFd} {bytes : List UInt8}

theorem Succeeds.write (h : Succeeds fd) (bytes : List UInt8) : Succeeds (fd.write bytes).2 := by
  rw [WriteFd.write]
  split
  next hturns => exact h
  next n turns hturns => exact fun turn ht => h turn (by rw [hturns]; exact .tail _ ht)
  next turns hturns => exact fun turn ht => h turn (by rw [hturns]; exact .tail _ ht)

theorem write_takes (hok : Succeeds fd) (h : Takes fd bytes.length) :
    (fd.write bytes).2.received = fd.received ++ bytes := by
  rw [WriteFd.write]
  split
  next => rfl
  next n turns hturns =>
    dsimp only
    rw [List.take_of_length_le (h n turns hturns)]
  next turns hturns => exact absurd rfl (hok .error (by rw [hturns]; exact .head _))

variable (fd bytes) in
/-- A short write leaves something over. -/
theorem write_short (h : ¬ Takes fd bytes.length) :
    (fd.write bytes).2.received.length < fd.received.length + bytes.length := by
  simp only [Takes, not_forall, Nat.not_le] at h
  obtain ⟨n, turns, hturns, hlt⟩ := h
  rw [WriteFd.write, hturns]
  simp only [List.length_append, List.length_take]
  omega

theorem write_length_le (fd : WriteFd) (bytes : List UInt8) :
    (fd.write bytes).2.received.length ≤ fd.received.length + bytes.length := by
  rw [WriteFd.write]
  split
  next => simp
  next n turns hturns =>
    simp only [List.length_append, List.length_take]
    omega
  next => simp

/-- One byte is transferred by any `write` that succeeds. -/
theorem takes_one (fd : WriteFd) : Takes fd 1 := fun n _ _ => n.pos

end Write

/-! ## One call of `end_write` -/

section EndWrite

variable {s : LogOstream} {len : Nat}

/-- The bytes of the buffer and the newline stored behind them. -/
theorem read_newline (hlen : len < s.bufferSize) (hsize : s.bufferSize < 2 ^ 63) :
    (s.mem.write (s.buffer + len) [lf]).read s.buffer ((len + 1) % 2 ^ 64)
      = s.mem.read s.buffer len ++ [lf] := by
  have hnewline : (s.mem.write (s.buffer + len) [lf]).read (s.buffer + len) 1 = [lf] :=
    s.mem.read_write_same (s.buffer + len) [lf]
  rw [Nat.mod_eq_of_lt (by omega), Mem.read_add, hnewline,
    Mem.read_write_disjoint (Or.inl (Nat.le_refl _))]

/-- The two paths of `end_write` with `escape` off: one call of `write`, or two. -/
theorem camioOstreamLogEndWrite_fd (hescape : s.escape = false) (hsize : s.bufferSize < 2 ^ 63)
    (hlen : s.assignedBuffer.isSome ∨ len < s.bufferSize) :
    (camioOstreamLogEndWrite s len).fd =
      if s.assignedBuffer.isSome then ((s.fd.write (s.message len)).2.write [lf]).2
      else (s.fd.write (s.message len ++ [lf])).2 := by
  rw [camioOstreamLogEndWrite, if_pos hescape, LogOstream.message]
  cases hassigned : s.assignedBuffer with
  | some buffer => rfl
  | none =>
      rw [hassigned] at hlen
      dsimp only
      rw [read_newline (hlen.resolve_left Bool.false_ne_true) hsize, if_neg (by simp)]

theorem message_length (s : LogOstream) (len : Nat) : (s.message len).length = len := by
  rw [LogOstream.message]
  split <;> exact Mem.read_length _ _ _

/-- The message and its newline are in the file if the first `write` transfers all. -/
theorem camioOstreamLogEndWrite_takes (hescape : s.escape = false) (hsize : s.bufferSize < 2 ^ 63)
    (hlen : s.assignedBuffer.isSome ∨ len < s.bufferSize) (hok : Succeeds s.fd)
    (h : Takes s.fd (s.request len)) :
    (camioOstreamLogEndWrite s len).fd.received = s.fd.received ++ (s.message len ++ [lf]) := by
  rw [camioOstreamLogEndWrite_fd hescape hsize hlen]
  rw [LogOstream.request] at h
  by_cases hassigned : s.assignedBuffer.isSome
  · rw [if_pos hassigned] at h ⊢
    rw [write_takes (hok.write _) (takes_one _), write_takes hok (by rwa [message_length]),
      List.append_assoc]
  · rw [if_neg hassigned] at h ⊢
    exact write_takes hok (by rwa [List.length_append, message_length])

/-- At most that many bytes come to the file, and fewer if it does not. -/
theorem camioOstreamLogEndWrite_length (hescape : s.escape = false)
    (hsize : s.bufferSize < 2 ^ 63) (hlen : s.assignedBuffer.isSome ∨ len < s.bufferSize) :
    (camioOstreamLogEndWrite s len).fd.received.length ≤ s.fd.received.length + (len + 1) ∧
    (¬ Takes s.fd (s.request len) →
      (camioOstreamLogEndWrite s len).fd.received.length < s.fd.received.length + (len + 1)) := by
  rw [camioOstreamLogEndWrite_fd hescape hsize hlen, LogOstream.request]
  by_cases hassigned : s.assignedBuffer.isSome
  · rw [if_pos hassigned, if_pos hassigned]
    have hnewline := write_length_le (s.fd.write (s.message len)).2 [lf]
    have hmessage := write_length_le s.fd (s.message len)
    have hshort := write_short s.fd (s.message len)
    rw [message_length] at hmessage hshort
    rw [List.length_singleton] at hnewline
    exact ⟨by omega, fun h => by have := hshort h; omega⟩
  · rw [if_neg hassigned, if_neg hassigned]
    have hmessage := write_length_le s.fd (s.message len ++ [lf])
    have hshort := write_short s.fd (s.message len ++ [lf])
    rw [List.length_append, message_length, List.length_singleton] at hmessage hshort
    exact ⟨hmessage, hshort⟩

end EndWrite

/-! ## Runs -/

section Runs

variable {A : Allocator} {fd : WriteFd} {σ σ' : WriteSession} {e : WriteEvent}

/-- What every run keeps, short writes or not. -/
structure Writable (σ : WriteSession) : Prop where
  escape : σ.stream.escape = false
  size_lt : σ.stream.bufferSize < 2 ^ 63
  succeeds : Succeeds σ.stream.fd

theorem Writable.step (h : Writable σ) (hstep : writeStep A σ e = some σ') : Writable σ' := by
  obtain ⟨len, rfl, hlen, rfl⟩ | ⟨-, hsize, hescape, hfd, -⟩ := writeStep_cases h.size_lt hstep
  · have hfd := camioOstreamLogEndWrite_fd h.escape h.size_lt hlen
    have hkeeps : (camioOstreamLogEndWrite σ.stream len).escape = σ.stream.escape ∧
        (camioOstreamLogEndWrite σ.stream len).bufferSize = σ.stream.bufferSize := by
      rw [camioOstreamLogEndWrite, if_pos h.escape]
      cases σ.stream.assignedBuffer <;> exact ⟨rfl, rfl⟩
    refine ⟨hkeeps.1.trans h.escape, by rw [hkeeps.2]; exact h.size_lt, ?_⟩
    show Succeeds (camioOstreamLogEndWrite σ.stream len).fd
    rw [hfd]
    split
    · exact (h.succeeds.write _).write _
    · exact h.succeeds.write _
  · exact ⟨hescape.trans h.escape, hsize, by rw [hfd]; exact h.succeeds⟩

/-- The file holds what it held before and the committed messages. -/
def Complete (fd : WriteFd) (σ : WriteSession) : Prop :=
  Writable σ ∧ σ.stream.fd.received = fd.received ++ framed σ.committed

/-- Something has been lost. -/
def Lossy (fd : WriteFd) (σ : WriteSession) : Prop :=
  Writable σ ∧ σ.stream.fd.received.length < fd.received.length + (framed σ.committed).length

theorem Complete.step (h : Complete fd σ) (hP : TransfersAll σ e)
    (hstep : writeStep A σ e = some σ') : Complete fd σ' := by
  refine ⟨h.1.step hstep, ?_⟩
  obtain ⟨len, rfl, hlen, rfl⟩ | ⟨-, -, -, hfd, hcommitted⟩ :=
    writeStep_cases h.1.size_lt hstep
  · show (camioOstreamLogEndWrite σ.stream len).fd.received = _
    rw [camioOstreamLogEndWrite_takes h.1.escape h.1.size_lt hlen h.1.succeeds hP, framed_snoc, h.2,
      List.append_assoc]
  · rw [hfd, hcommitted]
    exact h.2

/-- A short write loses something for good. -/
theorem Complete.lossy (h : Complete fd σ) (hP : ¬ TransfersAll σ e)
    (hstep : writeStep A σ e = some σ') : Lossy fd σ' := by
  refine ⟨h.1.step hstep, ?_⟩
  obtain ⟨len, rfl, hlen, rfl⟩ | ⟨hne, -⟩ := writeStep_cases h.1.size_lt hstep
  · have hlt := (camioOstreamLogEndWrite_length h.1.escape h.1.size_lt hlen).2 hP
    have hreceived := congrArg List.length h.2
    rw [List.length_append] at hreceived
    show (camioOstreamLogEndWrite σ.stream len).fd.received.length < _
    rw [framed_snoc, List.length_append, List.length_append, message_length, List.length_singleton]
    omega
  · cases e with
    | endWrite len => exact absurd rfl (hne len)
    | startWrite _ | fill _ _ | assignWrite _ _ => exact absurd trivial hP

theorem Lossy.step (h : Lossy fd σ) (hstep : writeStep A σ e = some σ') : Lossy fd σ' := by
  refine ⟨h.1.step hstep, ?_⟩
  obtain ⟨len, rfl, hlen, rfl⟩ | ⟨-, -, -, hfd, hcommitted⟩ :=
    writeStep_cases h.1.size_lt hstep
  · have hle := (camioOstreamLogEndWrite_length h.1.escape h.1.size_lt hlen).1
    have hlt := h.2
    show (camioOstreamLogEndWrite σ.stream len).fd.received.length < _
    rw [framed_snoc, List.length_append, List.length_append, message_length, List.length_singleton]
    omega
  · rw [hfd, hcommitted]
    exact h.2

/-- With calls of `write` that succeed but may transfer less than asked, the file holds
    every message with a newline behind it exactly if no first `write` is short. -/
theorem received_iff_transfersAll {p : Nat} {mem : Mem} {es : List WriteEvent}
    (hok : Succeeds fd) (hrun : run (writeStep A) (writeInit p mem fd) es = some σ) :
    σ.stream.fd.received = fd.received ++ framed σ.committed ↔
      Along (writeStep A) TransfersAll (writeInit p mem fd) es := by
  have hinit : Complete fd (writeInit p mem fd) := by
    refine ⟨⟨rfl, ?_, hok⟩, (List.append_nil _).symm⟩
    show ostreamBuffInit < 2 ^ 63
    decide
  constructor
  · intro hreceived
    refine along_of_unmarked (Complete fd) (Lossy fd) (fun _ _ _ h hP hs => h.step hP hs)
      (fun _ _ _ h hP hs => h.lossy hP hs) (fun _ _ _ h hs => h.step hs) hinit hrun ?_
    rintro ⟨-, hlt⟩
    rw [hreceived, List.length_append] at hlt
    omega
  · intro hP
    exact (run_invariant_along (Complete fd) (fun _ _ _ h hP hs => h.step hP hs) hinit hP hrun).2

end Runs

/-- A message of two bytes that the caller assigns. -/
def ok : Mem := fun i => if i = 0 then 111 else 107

/-- The calls that write it, with a first `write` that transfers at most `n` bytes. -/
def assignOk (n : ℕ+) : Option WriteSession :=
  run (writeStep .inPlace) (writeInit 0 ok ⟨[], [.accept n]⟩)
    [.assignWrite (some ok) 2, .endWrite 2]

theorem received_iff_transfersAll_two_of_two :
    ∃ σ, assignOk 2 = some σ ∧ σ.stream.fd.received = [] ++ framed σ.committed := by
  obtain ⟨σ, hσ⟩ : ∃ σ, assignOk 2 = some σ := ⟨_, rfl⟩
  have hok : Succeeds ⟨[], [.accept 2]⟩ := by simp [Succeeds]
  refine ⟨σ, hσ, (received_iff_transfersAll hok hσ).mpr ⟨trivial, fun σ' hσ' => ?_⟩⟩
  cases hσ'
  refine ⟨fun n turns hturns => ?_, fun _ _ => trivial⟩
  cases hturns
  exact Nat.le_refl 2

/-- A first `write` that transfers one byte of the two loses the other. -/
theorem received_framed_fails_one_of_two :
    ¬ ∀ fd es σ, Succeeds fd → run (writeStep .inPlace) (writeInit 0 ok fd) es = some σ →
      σ.stream.fd.received = fd.received ++ framed σ.committed := by
  intro hall
  obtain ⟨σ, hσ, hreceived, hcommitted⟩ : ∃ σ, assignOk 1 = some σ ∧
      σ.stream.fd.received = [111, lf] ∧ σ.committed = [[111, 107]] := ⟨_, rfl, rfl, rfl⟩
  have hok : Succeeds ⟨[], [.accept 1]⟩ := by simp [Succeeds]
  have h := hall _ _ σ hok hσ
  rw [hreceived, hcommitted] at h
  exact absurd h (by decide)

end Camio.Log
