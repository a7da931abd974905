/-
  Camio.Blob.Assigned

  The calls of a blob ostream as one step function, for a `write` that transfers all it is
  given.  `end_write` takes what it writes from the buffer that stands assigned, from its
  own otherwise, and the assignment is used up.
-/

import Camio.Blob.Loop
import Camio.Lib.Assign

namespace Camio.Blob

open Camio.Lib Camio.Descr

/-- A blob ostream, the pointer its caller was handed, and what was committed. -/
structure BlobSession where
  stream : BlobOstream
  /-- the pointer `start_write` returned since the last `end_write` -/
  granted : Option Nat
  /-- what was committed so far, piece by piece -/
  committed : List (List UInt8)

/-- The calls, and the stores of the caller. -/
inductive BlobEvent where
  | startWrite (len : Nat)
  /-- the caller stores bytes into the space it was handed -/
  | fill (off : Nat) (bytes : List UInt8)
  | assignWrite (buffer : Option Mem) (len : Nat)
  | endWrite (len : Nat)

/-- What the calls mean for the assigned buffer. -/
def BlobEvent.call : BlobEvent → WriterCall Mem
  | .assignWrite (some buffer) _ => .assign buffer
  | .endWrite _ => .commit
  | _ => .other

/-- A step is refused where the program ends in an error exit and where a store or a
    commit would go beyond the buffer.  The length of `end_write` is a `size_t`; its loop
    gets a turn for each byte and one more. -/
def blobStep (A : Allocator) (σ : BlobSession) : BlobEvent → Option BlobSession
  | .startWrite len =>
      match camioOstreamBlobStartWrite A σ.stream len with
      | .error _ => none
      | .ok (p, s) => some { σ with stream := s, granted := some p }
  | .fill off bytes =>
      match σ.granted with
      | none => none
      | some p =>
          if off + bytes.length ≤ σ.stream.bufferSize then
            some { σ with stream := { σ.stream with mem := σ.stream.mem.write (p + off) bytes } }
          else none
  | .assignWrite buffer len =>
      match camioOstreamBlobAssignWrite σ.stream buffer len with
      | .error _ => none
      | .ok s => some { σ with stream := s }
  | .endWrite len =>
      if len < 2 ^ 64 ∧ (σ.stream.assignedBuffer.isSome ∨ len ≤ σ.stream.bufferSize) then
        (camioOstreamBlobEndWrite σ.stream len (len + 1)).map fun s =>
          { stream := s, granted := none
            committed := σ.committed ++ [σ.stream.source.read 0 len] }
      else none

/-- A stream that has just been opened on `fd`, with its buffer at `p`. -/
def blobInit (p : Nat) (mem : Mem) (fd : WriteFd) : BlobSession :=
  { stream := { camioOstreamBlobConstruct mem with
      isClosed := false, buffer := p, bufferSize := initBuffSize, fd := fd }
    granted := none, committed := [] }

/-- The start state is what construction and `open` leave. -/
theorem blobInit_eq (descr : CamioDescr) (hquery : descr.query.isSome)
    (hopts : descr.optHead = none) (p : Nat) (mem : Mem) (fd : WriteFd) :
    camioOstreamBlobOpen (camioOstreamBlobConstruct mem) descr (some p) none (some fd)
      = .ok (blobInit p mem fd).stream := by
  have h1 := Option.not_isSome_iff_eq_none.mpr hopts
  have h2 := CamioDescr.not_isNone_query hquery
  rw [camioOstreamBlobOpen, if_neg h1, if_neg h2]
  rfl

/-! ## `end_write` with nothing in its way -/

/-- `end_write` returns, and has written its message; nothing stands assigned behind it. -/
theorem camioOstreamBlobEndWrite_all {s : BlobOstream} {len : Nat} (hlen : len < 2 ^ 64)
    (hturns : s.fd.turns = []) (hpos : 0 < s.writeSize) (hsize : s.writeSize < 2 ^ 64) :
    ∃ s', camioOstreamBlobEndWrite s len (len + 1) = some s' ∧
      s'.fd = ⟨s.fd.received ++ s.source.read 0 len, []⟩ ∧ s'.assignedBuffer = none ∧
      0 < s'.writeSize ∧ s'.writeSize < 2 ^ 64 := by
  let P : Nat → Prop := fun x => 0 < x ∧ x < 2 ^ 64
  have hok : ∀ turn ∈ s.fd.turns, turn ≠ .error := by simp [hturns]
  have hnext : ∀ x written, P x → P (nextWriteSize x written) :=
    fun x written hx => ⟨nextWriteSize_pos hx.1, nextWriteSize_lt hx.2⟩
  have hstart : P s.writeSize := ⟨hpos, hsize⟩
  obtain ⟨n, w, hn, hend, htotal, hw⟩ :=
    (writing_start hstart s.source len).ends hlen hok (fun x hx => hx.1) hnext
  refine ⟨_, camioOstreamBlobEndWrite_of_endsAfter hend (Nat.lt_succ_of_le hn), ?_, rfl, hw.size⟩
  -- everything is received, and nothing is left that a call might do
  have hreceived := hw.received
  have hleft := hw.turns
  rw [htotal] at hreceived
  rw [hturns, List.suffix_nil] at hleft
  show w.fd = _
  rw [← hreceived, ← hleft]

theorem source_eq_chosen (s : BlobOstream) (len : Nat) :
    s.source.read 0 len = chosen s.assignedBuffer (s.mem.read s.buffer len) len := by
  unfold BlobOstream.source chosen
  cases s.assignedBuffer with
  | some buffer => rfl
  | none => exact Mem.read_congr fun i _ => by rw [Nat.zero_add]

/-! ## Runs -/

/-- What every run keeps: the file holds what was committed. -/
structure Kept (fd : WriteFd) (σ : BlobSession) : Prop where
  turns : σ.stream.fd.turns = []
  pos : 0 < σ.stream.writeSize
  size_lt : σ.stream.writeSize < 2 ^ 64
  received : σ.stream.fd.received = fd.received ++ σ.committed.flatten

variable {A : Allocator} {fd : WriteFd} {σ σ' : BlobSession} {e : BlobEvent}

theorem kept_init (p : Nat) (mem : Mem) (hturns : fd.turns = []) : Kept fd (blobInit p mem fd) where
  turns := hturns
  pos := by
    show 0 < initWriteSize
    decide
  size_lt := by
    show initWriteSize < 2 ^ 64
    decide
  received := (List.append_nil _).symm

theorem camioOstreamBlobStartWrite_spec {s s' : BlobOstream} {len q : Nat}
    (h : camioOstreamBlobStartWrite A s len = .ok (q, s')) :
    s'.fd = s.fd ∧ s'.writeSize = s.writeSize ∧ s'.assignedBuffer = s.assignedBuffer := by
  rw [camioOstreamBlobStartWrite] at h
  by_cases hgrow : len > s.bufferSize
  · rw [if_pos hgrow] at h
    split at h
    next => cases h
    next =>
      cases h
      exact ⟨rfl, rfl, rfl⟩
  · rw [if_neg hgrow] at h
    cases h
    exact ⟨rfl, rfl, rfl⟩

/-- `end_write` commits; the other calls leave the file alone.  What stands assigned is
    as the calls say. -/
theorem blobStep_cases (hstep : blobStep A σ e = some σ') :
    σ'.stream.assignedBuffer = pendingAfter σ.stream.assignedBuffer [e.call] ∧
    ((∃ len s', e = .endWrite len ∧ len < 2 ^ 64 ∧
        camioOstreamBlobEndWrite σ.stream len (len + 1) = some s' ∧
        σ' = { stream := s', granted := none
               committed := σ.committed ++ [σ.stream.source.read 0 len] }) ∨
      ((∀ len, e ≠ .endWrite len) ∧ σ'.stream.fd = σ.stream.fd ∧
        σ'.stream.writeSize = σ.stream.writeSize ∧ σ'.committed = σ.committed)) := by
  cases e with
  | startWrite len =>
      simp only [blobStep] at hstep
      split at hstep
      next => cases hstep
      next p s hstart =>
        cases hstep
        obtain ⟨hfd, hsize, hassigned⟩ := camioOstreamBlobStartWrite_spec hstart
        exact ⟨hassigned, Or.inr ⟨nofun, hfd, hsize, rfl⟩⟩
  | fill off bytes =>
      simp only [blobStep] at hstep
      split at hstep
      next => cases hstep
      next p hp =>
        split at hstep
        next =>
          cases hstep
          exact ⟨rfl, Or.inr ⟨nofun, rfl, rfl, rfl⟩⟩
        next => cases hstep
  | assignWrite buffer len =>
      cases buffer with
      | none => cases hstep
      | some buffer =>
          cases hstep
          exact ⟨rfl, Or.inr ⟨nofun, rfl, rfl, rfl⟩⟩
  | endWrite len =>
      simp only [blobStep] at hstep
      split at hstep
      next hguard =>
        obtain ⟨s', hend, rfl⟩ := Option.map_eq_some_iff.mp hstep
        -- the assignment is taken back, whatever the loop has transferred
        refine ⟨?_, Or.inl ⟨len, s', rfl, hguard.1, hend, rfl⟩⟩
        obtain ⟨r, -, rfl⟩ := Option.map_eq_some_iff.mp hend
        rfl
      next => cases hstep

/-- The calls and the field agree on what stands assigned. -/
theorem blobStep_assigned (σ : BlobSession) (e : BlobEvent) (σ' : BlobSession)
    (hstep : blobStep A σ e = some σ') :
    σ'.stream.assignedBuffer = pendingAfter σ.stream.assignedBuffer [e.call] :=
  (blobStep_cases hstep).1

theorem Kept.step (h : Kept fd σ) (hstep : blobStep A σ e = some σ') : Kept fd σ' := by
  obtain ⟨-, ⟨len, s', rfl, hlen, hend, rfl⟩ | ⟨-, hfd, hsize, hcommitted⟩⟩ := blobStep_cases hstep
  · obtain ⟨t, ht, hfd, -, hpos, hsize⟩ :=
      camioOstreamBlobEndWrite_all hlen h.turns h.pos h.size_lt
    obtain rfl := Option.some.inj (hend.symm.trans ht)
    refine ⟨by rw [hfd], hpos, hsize, ?_⟩
    show s'.fd.received = _
    rw [hfd, h.received, List.flatten_append, List.flatten_singleton, List.append_assoc]
  · have hturns := h.turns
    have hpos := h.pos
    have hlt := h.size_lt
    rw [← hfd] at hturns
    rw [← hsize] at hpos hlt
    refine ⟨hturns, hpos, hlt, ?_⟩
    rw [hfd, hcommitted]
    exact h.received

theorem kept_of_run {p : Nat} {mem : Mem} {es : List BlobEvent} (hturns : fd.turns = [])
    (hrun : run (blobStep A) (blobInit p mem fd) es = some σ) : Kept fd σ :=
  run_invariant (Kept fd) (fun _ _ _ h hstep => h.step hstep) (kept_init p mem hturns) hrun

/-- In every run `end_write` commits the bytes that the latest assignment gave since the one
    before, or those in the stream's buffer if there was none. -/
theorem endWrite_commits_chosen {p : Nat} {mem : Mem} {es : List BlobEvent} {len : Nat}
    (hturns : fd.turns = []) (hrun : run (blobStep A) (blobInit p mem fd) es = some σ)
    (hend : blobStep A σ (.endWrite len) = some σ') :
    let m := chosen (pendingAfter none (es.map BlobEvent.call))
      (σ.stream.mem.read σ.stream.buffer len) len
    σ'.committed = σ.committed ++ [m] ∧
      σ'.stream.fd.received = σ.stream.fd.received ++ m ∧ σ'.stream.assignedBuffer = none := by
  have h := kept_of_run hturns hrun
  have hassigned : σ.stream.assignedBuffer = pendingAfter none (es.map BlobEvent.call) :=
    run_pending blobStep_assigned hrun
  obtain ⟨-, ⟨len', s', heq, hlen, hret, rfl⟩ | ⟨hne, -⟩⟩ := blobStep_cases hend
  · cases heq
    obtain ⟨t, ht, hfd, hnone, -⟩ := camioOstreamBlobEndWrite_all hlen h.turns h.pos h.size_lt
    obtain rfl := Option.some.inj (hret.symm.trans ht)
    dsimp only
    rw [hfd, source_eq_chosen, hassigned]
    exact ⟨rfl, rfl, hnone⟩
  · exact absurd rfl (hne len)

end Camio.Blob
