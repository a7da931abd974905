/-
  Camio.Log.Framing

  The calls of a log ostream as one step function, and what its runs leave in the
  file: with `escape` off and a `write` that transfers all it is given, the committed
  messages, each with a newline behind it.
-/

import Camio.Lib.Run
import Camio.Log.Ostream

namespace Camio.Log

open Camio.Lib Camio.Descr

/-- A log ostream, the pointer its caller was handed, and what was committed. -/
structure WriteSession where
  stream : LogOstream
  /-- the pointer `start_write` returned since the last `end_write` -/
  granted : Option Nat
  /-- the messages committed so far -/
  committed : List (List UInt8)

/-- The calls, and the stores of the caller. -/
inductive WriteEvent where
  | startWrite (len : Nat)
  /-- the caller stores bytes into the space it was handed -/
  | fill (off : Nat) (bytes : List UInt8)
  | assignWrite (buffer : Option Mem) (len : Nat)
  | endWrite (len : Nat)

/-- The message that `end_write` commits. -/
def LogOstream.message (s : LogOstream) (len : Nat) : List UInt8 :=
  match s.assignedBuffer with
  | some buffer => buffer.read 0 len
  | none => s.mem.read s.buffer len

/-- A step is refused where the program ends in an error exit and where a store would
    go beyond the buffer: by the caller, or by `end_write` for a message in the buffer
    that leaves no space for the newline. -/
def writeStep (A : Allocator) (σ : WriteSession) : WriteEvent → Option WriteSession
  | .startWrite len =>
      match camioOstreamLogStartWrite A σ.stream len with
      | .error _ => none
      | .ok (p, s) => some { σ with stream := s, granted := some p }
  | .fill off bytes =>
      match σ.granted with
      | none => none
      | some p =>
          if off + bytes.length ≤ σ.stream.bufferSize then
            some { σ with stream := { σ.stream with mem := σ.stream.mem.write (p + off) bytes } }
          else none
  | .assignWrite buffer len =>
      match camioOstreamLogAssignWrite σ.stream buffer len with
      | .error _ => none
      | .ok s => some { σ with stream := s }
  | .endWrite len =>
      if σ.stream.assignedBuffer.isSome ∨ len < σ.stream.bufferSize then
        some {
          stream := camioOstreamLogEndWrite σ.stream len
          granted := none
          committed := σ.committed ++ [σ.stream.message len] }
      else none

/-- A stream that has just been opened on `fd`, with its buffer at `p`. -/
def openedOstream (p : Nat) (mem : Mem) (fd : WriteFd) : LogOstream :=
  { camioOstreamLogConstruct mem with
    isClosed := false, buffer := p, bufferSize := ostreamBuffInit, fd := fd }

def writeInit (p : Nat) (mem : Mem) (fd : WriteFd) : WriteSession :=
  { stream := openedOstream p mem fd, granted := none, committed := [] }

/-- The start state is what construction and `open` without options leave. -/
theorem openedOstream_eq (descr : CamioDescr) (hquery : descr.query.isSome)
    (hopts : descr.optHead = none) (p : Nat) (mem : Mem) (fd : WriteFd) :
    camioOstreamLogOpen (camioOstreamLogConstruct mem) descr (some p) none (some fd)
      = .ok (openedOstream p mem fd) := by
  have hnone : descr.options = [] := by
    rw [CamioDescr.options, hopts]
    cases descr.heap.length <;> rfl
  have h2 := CamioDescr.not_isNone_query hquery
  simp only [camioOstreamLogOpen, escapeOption, hnone, Except.bind, if_neg h2]
  rfl

/-- The messages as they stand in a file. -/
def framed (messages : List (List UInt8)) : List UInt8 := messages.flatMap (· ++ [lf])

theorem framed_snoc (messages : List (List UInt8)) (m : List UInt8) :
    framed (messages ++ [m]) = framed messages ++ (m ++ [lf]) := by
  rw [framed, List.flatMap_append, List.flatMap_singleton]
  rfl

/-! ## What a step can do -/

section Steps

variable {A : Allocator} {σ σ' : WriteSession} {s s' : LogOstream}

/-- `start_write` keeps all but the buffer, which stays below 2^63 bytes. -/
theorem camioOstreamLogStartWrite_spec {len p : Nat}
    (h : camioOstreamLogStartWrite A s len = .ok (p, s')) :
    s'.escape = s.escape ∧ s'.fd = s.fd ∧ s'.assignedBuffer = s.assignedBuffer ∧
      (s.bufferSize < 2 ^ 63 → s'.bufferSize < 2 ^ 63) ∧ p = s'.buffer ∧
      (len + 1) % 2 ^ 64 ≤ s'.bufferSize := by
  rw [camioOstreamLogStartWrite] at h
  by_cases hgrow : (len + 1) % 2 ^ 64 > s.bufferSize
  · rw [if_pos hgrow] at h
    split at h
    next => cases h
    next q m hrealloc =>
      cases h
      exact ⟨rfl, rfl, rfl, fun _ => A.realloc_lt hrealloc, rfl, Nat.le_refl _⟩
  · rw [if_neg hgrow] at h
    cases h
    exact ⟨rfl, rfl, rfl, id, rfl, Nat.le_of_not_lt hgrow⟩

/-- A `write` that transfers everything. -/
theorem write_all {fd : WriteFd} (h : fd.turns = []) (bytes : List UInt8) :
    (fd.write bytes).2 = { received := fd.received ++ bytes, turns := [] } := by
  rw [WriteFd.write, h]

/-- `end_write` with `escape` off, where all of the message and its newline are
    written. -/
theorem camioOstreamLogEndWrite_spec {len : Nat} (hescape : s.escape = false)
    (hturns : s.fd.turns = []) (hsize : s.bufferSize < 2 ^ 63)
    (hlen : s.assignedBuffer.isSome ∨ len < s.bufferSize) :
    (camioOstreamLogEndWrite s len).fd
        = { received := s.fd.received ++ (s.message len ++ [lf]), turns := [] } ∧
      (camioOstreamLogEndWrite s len).escape = false ∧
      (camioOstreamLogEndWrite s len).assignedBuffer = none ∧
      (camioOstreamLogEndWrite s len).bufferSize = s.bufferSize := by
  rw [camioOstreamLogEndWrite, if_pos hescape, LogOstream.message]
  cases hassigned : s.assignedBuffer with
  | some buffer =>
      -- two calls of `write`, the second for the newline
      refine ⟨?_, hescape, rfl, rfl⟩
      dsimp only
      rw [write_all hturns, write_all rfl, List.append_assoc]
  | none =>
      -- one call: the newline is stored behind the message first
      refine ⟨?_, hescape, rfl, rfl⟩
      rw [hassigned] at hlen
      have hlt : len < s.bufferSize := hlen.resolve_left nofun
      have hmod : (len + 1) % 2 ^ 64 = len + 1 := Nat.mod_eq_of_lt (by omega)
      have hnewline : (s.mem.write (s.buffer + len) [lf]).read (s.buffer + len) 1 = [lf] :=
        s.mem.read_write_same (s.buffer + len) [lf]
      dsimp only
      rw [write_all hturns, hmod, Mem.read_add, hnewline,
        Mem.read_write_disjoint (Or.inl (Nat.le_refl _))]

theorem writeStep_startWrite {len : Nat} (hstep : writeStep A σ (.startWrite len) = some σ') :
    ∃ p s, camioOstreamLogStartWrite A σ.stream len = .ok (p, s) ∧
      σ' = { σ with stream := s, granted := some p } := by
  simp only [writeStep] at hstep
  split at hstep
  next => cases hstep
  next p s hstart => exact ⟨p, s, hstart, (Option.some.inj hstep).symm⟩

/-- A store of the caller changes nothing but memory. -/
theorem writeStep_fill {off : Nat} {bytes : List UInt8}
    (hstep : writeStep A σ (.fill off bytes) = some σ') :
    ∃ mem, σ' = { σ with stream := { σ.stream with mem := mem } } := by
  simp only [writeStep] at hstep
  split at hstep
  next => cases hstep
  next p hp =>
    split at hstep
    next => exact ⟨_, (Option.some.inj hstep).symm⟩
    next => cases hstep

theorem writeStep_assignWrite {buffer : Option Mem} {len : Nat}
    (hstep : writeStep A σ (.assignWrite buffer len) = some σ') :
    ∃ b, buffer = some b ∧ σ' = { σ with
      stream := { σ.stream with assignedBuffer := some b, assignedBufferSz := len } } := by
  cases buffer with
  | none => cases hstep
  | some b => exact ⟨b, rfl, (Option.some.inj hstep).symm⟩

/-- A message in the buffer leaves a byte for the newline. -/
theorem writeStep_endWrite {len : Nat} (hstep : writeStep A σ (.endWrite len) = some σ') :
    (σ.stream.assignedBuffer.isSome ∨ len < σ.stream.bufferSize) ∧
      σ' = { stream := camioOstreamLogEndWrite σ.stream len, granted := none
             committed := σ.committed ++ [σ.stream.message len] } := by
  simp only [writeStep] at hstep
  split at hstep
  next hlen => exact ⟨hlen, (Option.some.inj hstep).symm⟩
  next => cases hstep

/-- `end_write` commits a message; the other calls leave the file and the messages alone. -/
theorem writeStep_cases {e : WriteEvent} (hsize : σ.stream.bufferSize < 2 ^ 63)
    (hstep : writeStep A σ e = some σ') :
    (∃ len, e = .endWrite len ∧ (σ.stream.assignedBuffer.isSome ∨ len < σ.stream.bufferSize) ∧
      σ' = { stream := camioOstreamLogEndWrite σ.stream len, granted := none
             committed := σ.committed ++ [σ.stream.message len] }) ∨
    ((∀ len, e ≠ .endWrite len) ∧ σ'.stream.bufferSize < 2 ^ 63 ∧
      σ'.stream.escape = σ.stream.escape ∧ σ'.stream.fd = σ.stream.fd ∧
      σ'.committed = σ.committed) := by
  cases e with
  | startWrite len =>
      obtain ⟨p, s, hstart, rfl⟩ := writeStep_startWrite hstep
      -- the buffer may have grown
      obtain ⟨hescape, hfd, -, hsize', -, -⟩ := camioOstreamLogStartWrite_spec hstart
      exact Or.inr ⟨nofun, hsize' hsize, hescape, hfd, rfl⟩
  | fill off bytes =>
      obtain ⟨mem, rfl⟩ := writeStep_fill hstep
      exact Or.inr ⟨nofun, hsize, rfl, rfl, rfl⟩
  | assignWrite buffer len =>
      obtain ⟨b, -, rfl⟩ := writeStep_assignWrite hstep
      exact Or.inr ⟨nofun, hsize, rfl, rfl, rfl⟩
  | endWrite len =>
      obtain ⟨hlen, rfl⟩ := writeStep_endWrite hstep
      exact Or.inl ⟨len, rfl, hlen, rfl⟩

end Steps

/-! ## Runs -/

/-- The invariant: nothing but the committed messages is in the file. -/
structure Framed (σ : WriteSession) : Prop where
  escape : σ.stream.escape = false
  turns : σ.stream.fd.turns = []
  size_lt : σ.stream.bufferSize < 2 ^ 63
  received : σ.stream.fd.received = framed σ.committed

variable {A : Allocator} {σ σ' : WriteSession}

theorem framed_init (p : Nat) (mem : Mem) : Framed (writeInit p mem ⟨[], []⟩) := by
  refine ⟨rfl, rfl, ?_, rfl⟩
  show ostreamBuffInit < 2 ^ 63
  decide

theorem Framed.step {e : WriteEvent} (h : Framed σ) (hstep : writeStep A σ e = some σ') :
    Framed σ' := by
  obtain ⟨len, rfl, hlen, rfl⟩ | ⟨-, hsize, hescape, hfd, hcommitted⟩ :=
    writeStep_cases h.size_lt hstep
  · -- the only step that writes: one more message, in the file and in the list
    obtain ⟨hfd, hescape, -, hsize⟩ :=
      camioOstreamLogEndWrite_spec h.escape h.turns h.size_lt hlen
    refine ⟨hescape, ?_, ?_, ?_⟩
    · show (camioOstreamLogEndWrite σ.stream len).fd.turns = []
      rw [hfd]
    · show (camioOstreamLogEndWrite σ.stream len).bufferSize < 2 ^ 63
      rw [hsize]
      exact h.size_lt
    · show (camioOstreamLogEndWrite σ.stream len).fd.received = _
      rw [hfd, framed_snoc, h.received]
  · refine ⟨hescape.trans h.escape, by rw [hfd]; exact h.turns, hsize, ?_⟩
    rw [hfd, hcommitted]
    exact h.received

/-- After every run the file holds the committed messages. -/
theorem received_of_run {p : Nat} {mem : Mem} {es : List WriteEvent}
    (hrun : run (writeStep A) (writeInit p mem ⟨[], []⟩) es = some σ) :
    σ.stream.fd.received = framed σ.committed :=
  (run_invariant Framed (fun _ _ _ h hstep => h.step hstep) (framed_init p mem) hrun).received

/-- The calls that write a message through the buffer. -/
def putMessage (m : List UInt8) : List WriteEvent :=
  [.startWrite m.length, .fill 0 m, .endWrite m.length]

theorem run_putMessage {m : List UInt8} (hlen : m.length + 1 < 2 ^ 63)
    (hassigned : σ.stream.assignedBuffer = none) (h : Framed σ) :
    ∃ σ', run (writeStep .inPlace) σ (putMessage m) = some σ' ∧
      σ'.committed = σ.committed ++ [m] ∧ σ'.stream.assignedBuffer = none := by
  -- `start_write` has the space, or gets it
  obtain ⟨s, hstart⟩ : ∃ s, camioOstreamLogStartWrite .inPlace σ.stream m.length
      = .ok (s.buffer, s) := by
    rw [camioOstreamLogStartWrite]
    by_cases hgrow : (m.length + 1) % 2 ^ 64 > σ.stream.bufferSize
    · have hfits : (m.length + 1) % 2 ^ 64 < 2 ^ 63 := by omega
      rw [if_pos hgrow]
      simp only [Allocator.inPlace, if_pos hfits]
      exact ⟨{ σ.stream with bufferSize := (m.length + 1) % 2 ^ 64 }, rfl⟩
    · rw [if_neg hgrow]
      exact ⟨σ.stream, rfl⟩
  obtain ⟨hescape, hfd, hassigned', hsize, -, hroom⟩ :=
    camioOstreamLogStartWrite_spec hstart
  have hsize := hsize h.size_lt
  rw [hassigned] at hassigned'
  rw [h.escape] at hescape
  have hturns : s.fd.turns = [] := by rw [hfd, h.turns]
  have hle : 0 + m.length ≤ s.bufferSize := by omega
  have hlt : m.length < s.bufferSize := by omega
  -- the stream once the caller has stored the message
  obtain ⟨t, ht⟩ : ∃ t, t = { s with mem := s.mem.write (s.buffer + 0) m } := ⟨_, rfl⟩
  have hmessage : t.message m.length = m := by
    simp only [ht, LogOstream.message, hassigned']
    exact s.mem.read_write_same s.buffer m
  have hlt' : m.length < t.bufferSize := by rwa [ht]
  -- the three calls, one after the other
  have hrun : run (writeStep .inPlace) σ (putMessage m) = some
      { stream := camioOstreamLogEndWrite t m.length
        granted := none
        committed := σ.committed ++ [m] } := by
    simp only [putMessage, run_cons, run_nil, writeStep, hstart, Option.bind_some, if_pos hle]
    rw [← ht, if_pos (Or.inr hlt), hmessage]
    rfl
  obtain ⟨-, -, hnone, -⟩ := camioOstreamLogEndWrite_spec (s := t) (by rw [ht]; exact hescape)
    (by rw [ht]; exact hturns) (by rw [ht]; exact hsize) (Or.inr hlt')
  exact ⟨_, hrun, rfl, hnone⟩

/-- Any messages can be written through the buffer, one after the other. -/
theorem run_putMessages (messages : List (List UInt8))
    (hlen : ∀ m ∈ messages, m.length + 1 < 2 ^ 63)
    (hassigned : σ.stream.assignedBuffer = none) (h : Framed σ) :
    ∃ σ', run (writeStep .inPlace) σ (messages.flatMap putMessage) = some σ' ∧
      σ'.committed = σ.committed ++ messages := by
  induction messages generalizing σ with
  | nil => exact ⟨σ, rfl, (List.append_nil _).symm⟩
  | cons m messages ih =>
      obtain ⟨σ₁, hrun₁, hcommitted₁, hassigned₁⟩ :=
        run_putMessage (hlen m List.mem_cons_self) hassigned h
      have h₁ := run_invariant Framed (fun _ _ _ h hstep => h.step hstep) h hrun₁
      obtain ⟨σ₂, hrun₂, hcommitted₂⟩ :=
        ih (fun m' hm' => hlen m' (List.mem_cons_of_mem m hm')) hassigned₁ h₁
      refine ⟨σ₂, run_trans hrun₁ hrun₂, ?_⟩
      rw [hcommitted₂, hcommitted₁, List.append_assoc, List.singleton_append]

end Camio.Log
