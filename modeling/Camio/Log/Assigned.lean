/-
  Camio.Log.Assigned

  Assigned and copied messages of a log ostream, with `escape` on or off and a `write`
  that transfers all it is given: `end_write` takes the message from the buffer that
  stands assigned, from its own otherwise, writes the same line either way, and the
  assignment is used up.
-/

import Camio.Lib.Assign
import Camio.Log.Escape

namespace Camio.Log

open Camio.Lib Camio.Descr

/-- A stream that has just been opened with the option `escape`. -/
def writeInitWith (escape : Bool) (p : Nat) (mem : Mem) (fd : WriteFd) : WriteSession :=
  { stream := { openedOstream p mem fd with escape := escape }, granted := none, committed := [] }

/-- The start state is what construction and `open` leave. -/
theorem writeInitWith_eq (descr : CamioDescr) {escape : Bool} (hquery : descr.query.isSome)
    (hopt : escapeOption false descr = .ok escape) (p : Nat) (mem : Mem) (fd : WriteFd) :
    camioOstreamLogOpen (camioOstreamLogConstruct mem) descr (some p) none (some fd)
      = .ok (writeInitWith escape p mem fd).stream := by
  have h2 := CamioDescr.not_isNone_query hquery
  have hopt' : escapeOption (camioOstreamLogConstruct mem).escape descr = .ok escape := hopt
  simp only [camioOstreamLogOpen, hopt', Except.bind, if_neg h2]
  rfl

/-- What the calls mean for the assigned buffer. -/
def WriteEvent.call : WriteEvent → WriterCall Mem
  | .assignWrite (some buffer) _ => .assign buffer
  | .endWrite _ => .commit
  | _ => .other

/-- The line that is written for a message. -/
def logLine (escape : Bool) (m : List UInt8) : List UInt8 :=
  (if escape then escaped m else m) ++ [lf]

variable {A : Allocator} {σ σ' : WriteSession} {s : LogOstream} {len : Nat} {escape : Bool}

/-- `end_write` writes the line of its message, and nothing stands assigned behind it. -/
theorem camioOstreamLogEndWrite_line (hturns : s.fd.turns = []) (hsize : s.bufferSize < 2 ^ 63)
    (hlen : s.assignedBuffer.isSome ∨ len < s.bufferSize) :
    (camioOstreamLogEndWrite s len).fd = ⟨s.fd.received ++ logLine s.escape (s.message len), []⟩ ∧
      (camioOstreamLogEndWrite s len).escape = s.escape ∧
      (camioOstreamLogEndWrite s len).assignedBuffer = none ∧
      (camioOstreamLogEndWrite s len).bufferSize = s.bufferSize := by
  cases hescape : s.escape with
  | false =>
      obtain ⟨hfd, he, hnone, hsize'⟩ := camioOstreamLogEndWrite_spec hescape hturns hsize hlen
      exact ⟨hfd, he, hnone, hsize'⟩
  | true =>
      have hline : logLine true (s.message len) = escaped (s.message len) ++ [lf] := rfl
      rw [camioOstreamLogEndWrite, if_neg (by rw [hescape]; exact Bool.noConfusion),
        escapeLoop_source hturns, hline, ← List.append_assoc]
      cases s.assignedBuffer with
      | some buffer => exact ⟨rfl, hescape, rfl, rfl⟩
      | none => exact ⟨rfl, hescape, rfl, rfl⟩

/-! ## Runs -/

/-- What every run keeps: the file holds the lines of the messages. -/
structure Lined (escape : Bool) (fd : WriteFd) (σ : WriteSession) : Prop where
  escape_eq : σ.stream.escape = escape
  turns : σ.stream.fd.turns = []
  size_lt : σ.stream.bufferSize < 2 ^ 63
  received : σ.stream.fd.received = fd.received ++ σ.committed.flatMap (logLine escape)

variable {fd : WriteFd}

theorem lined_init (p : Nat) (mem : Mem) (hturns : fd.turns = []) :
    Lined escape fd (writeInitWith escape p mem fd) where
  escape_eq := rfl
  turns := hturns
  size_lt := by
    show ostreamBuffInit < 2 ^ 63
    decide
  received := (List.append_nil _).symm

theorem Lined.step {e : WriteEvent} (h : Lined escape fd σ) (hstep : writeStep A σ e = some σ') :
    Lined escape fd σ' := by
  obtain ⟨len, rfl, hlen, rfl⟩ | ⟨-, hsize, hescape, hfd, hcommitted⟩ :=
    writeStep_cases h.size_lt hstep
  · obtain ⟨hfd, hescape, -, hsize⟩ := camioOstreamLogEndWrite_line h.turns h.size_lt hlen
    refine ⟨hescape.trans h.escape_eq, ?_, ?_, ?_⟩
    · show (camioOstreamLogEndWrite σ.stream len).fd.turns = []
      rw [hfd]
    · show (camioOstreamLogEndWrite σ.stream len).bufferSize < 2 ^ 63
      rw [hsize]
      exact h.size_lt
    · show (camioOstreamLogEndWrite σ.stream len).fd.received = _
      rw [hfd, List.flatMap_append, List.flatMap_singleton, h.received, h.escape_eq,
        List.append_assoc]
  · refine ⟨hescape.trans h.escape_eq, by rw [hfd]; exact h.turns, hsize, ?_⟩
    rw [hfd, hcommitted]
    exact h.received

theorem lined_of_run {p : Nat} {mem : Mem} {es : List WriteEvent} (hturns : fd.turns = [])
    (hrun : run (writeStep A) (writeInitWith escape p mem fd) es = some σ) : Lined escape fd σ :=
  run_invariant (Lined escape fd) (fun _ _ _ h hstep => h.step hstep) (lined_init p mem hturns)
    hrun

/-- Every path of `end_write` uses the assigned buffer up. -/
theorem camioOstreamLogEndWrite_assigned (s : LogOstream) (len : Nat) :
    (camioOstreamLogEndWrite s len).assignedBuffer = none := by
  rw [camioOstreamLogEndWrite]
  cases s.assignedBuffer with
  | some buffer => split <;> rfl
  | none => split <;> rfl

/-- The calls and the field agree on what stands assigned. -/
theorem writeStep_assigned (σ : WriteSession) (e : WriteEvent) (σ' : WriteSession)
    (hstep : writeStep A σ e = some σ') :
    σ'.stream.assignedBuffer = pendingAfter σ.stream.assignedBuffer [e.call] := by
  cases e with
  | startWrite len =>
      obtain ⟨p, s, hstart, rfl⟩ := writeStep_startWrite hstep
      exact (camioOstreamLogStartWrite_spec hstart).2.2.1
  | fill off bytes =>
      obtain ⟨mem, rfl⟩ := writeStep_fill hstep
      rfl
  | assignWrite buffer len =>
      obtain ⟨b, rfl, rfl⟩ := writeStep_assignWrite hstep
      rfl
  | endWrite len =>
      obtain ⟨-, rfl⟩ := writeStep_endWrite hstep
      exact camioOstreamLogEndWrite_assigned σ.stream len

/-- What `end_write` commits, in terms of the calls before it. -/
theorem LogOstream.message_eq_chosen (s : LogOstream) (len : Nat) :
    s.message len = chosen s.assignedBuffer (s.mem.read s.buffer len) len := by
  unfold LogOstream.message chosen
  cases s.assignedBuffer <;> rfl

/-- In every run `end_write` commits the bytes that the latest assignment gave since the one
    before, or those in the stream's buffer if there was none: it writes their line. -/
theorem endWrite_commits_chosen {p : Nat} {mem : Mem} {es : List WriteEvent}
    (hturns : fd.turns = []) (hrun : run (writeStep A) (writeInitWith escape p mem fd) es = some σ)
    (hend : writeStep A σ (.endWrite len) = some σ') :
    let m := chosen (pendingAfter none (es.map WriteEvent.call))
      (σ.stream.mem.read σ.stream.buffer len) len
    σ'.committed = σ.committed ++ [m] ∧
      σ'.stream.fd.received = σ.stream.fd.received ++ logLine escape m ∧
      σ'.stream.assignedBuffer = none := by
  have h := lined_of_run hturns hrun
  have hassigned : σ.stream.assignedBuffer = pendingAfter none (es.map WriteEvent.call) :=
    run_pending writeStep_assigned hrun
  obtain ⟨hlen, rfl⟩ := writeStep_endWrite hend
  dsimp only
  rw [(camioOstreamLogEndWrite_line h.turns h.size_lt hlen).1, h.escape_eq,
    σ.stream.message_eq_chosen, hassigned]
  exact ⟨rfl, rfl, camioOstreamLogEndWrite_assigned σ.stream len⟩

end Camio.Log
