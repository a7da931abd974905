/-
  Camio.Ostreams.Assigned

  The three ostreams that copy what they are assigned: log, blob and ring.  Whether a
  message is assigned or stored in the space `start_write` hands out makes no difference
  to what is committed, and an assigned buffer is used for one message only.
-/

import Camio.Blob.Assigned
import Camio.Log.Assigned
import Camio.Ring.Assigned

namespace Camio.Ostreams

open Camio.Lib

/-- A log ostream, with `escape` on or off and a `write` that transfers everything. -/
structure LogAgrees : Prop where
  commits : ∀ A escape p mem fd es σ len σ', fd.turns = [] →
    run (Log.writeStep A) (Log.writeInitWith escape p mem fd) es = some σ →
    Log.writeStep A σ (.endWrite len) = some σ' →
    let m := chosen (pendingAfter none (es.map Log.WriteEvent.call))
      (σ.stream.mem.read σ.stream.buffer len) len
    σ'.committed = σ.committed ++ [m] ∧
      σ'.stream.fd.received = σ.stream.fd.received ++ Log.logLine escape m ∧
      σ'.stream.assignedBuffer = none
  same_output : ∀ A B escape p q mem mem' fd es fs σ τ, fd.turns = [] →
    run (Log.writeStep A) (Log.writeInitWith escape p mem fd) es = some σ →
    run (Log.writeStep B) (Log.writeInitWith escape q mem' fd) fs = some τ →
    σ.committed = τ.committed → σ.stream.fd.received = τ.stream.fd.received

/-- A blob ostream, with a `write` that transfers everything. -/
structure BlobAgrees : Prop where
  commits : ∀ A p mem fd es σ len σ', fd.turns = [] →
    run (Blob.blobStep A) (Blob.blobInit p mem fd) es = some σ →
    Blob.blobStep A σ (.endWrite len) = some σ' →
    let m := chosen (pendingAfter none (es.map Blob.BlobEvent.call))
      (σ.stream.mem.read σ.stream.buffer len) len
    σ'.committed = σ.committed ++ [m] ∧
      σ'.stream.fd.received = σ.stream.fd.received ++ m ∧ σ'.stream.assignedBuffer = none
  same_output : ∀ A B p q mem mem' fd es fs σ τ, fd.turns = [] →
    run (Blob.blobStep A) (Blob.blobInit p mem fd) es = some σ →
    run (Blob.blobStep B) (Blob.blobInit q mem' fd) fs = some τ →
    σ.committed = τ.committed → σ.stream.fd.received = τ.stream.fd.received

/-- A ring ostream, on any file; two of them on a fresh one. -/
structure RingAgrees : Prop where
  commits : ∀ file es σ len σ', run Ring.step (Ring.opened file) es = some σ →
    Ring.step σ (.endWrite len) = some σ' →
    let slot := σ.committed.length % 1024 * Ring.slotSize
    let m := chosen (pendingAfter none (es.map Ring.Event.call)) (σ.mem.read slot len) len
    σ'.committed = σ.committed ++ [m] ∧ σ'.mem.read slot len = m ∧
      Ring.lenWord σ'.mem slot = len ∧
      Ring.syncWord σ'.mem slot = (σ.committed.length + 1) % 2 ^ 64 ∧
      σ'.writer.assignedBuffer = none
  same_output : ∀ es fs σ τ, run Ring.step Ring.init es = some σ →
    run Ring.step Ring.init fs = some τ → σ.committed = τ.committed → ∀ j < 1024,
    Ring.syncWord σ.mem (j * Ring.slotSize) = Ring.syncWord τ.mem (j * Ring.slotSize) ∧
    Ring.lenWord σ.mem (j * Ring.slotSize) = Ring.lenWord τ.mem (j * Ring.slotSize) ∧
    ∀ k ≤ Ring.lenWord σ.mem (j * Ring.slotSize), k ≤ σ.intact j → k ≤ τ.intact j →
      σ.mem.read (j * Ring.slotSize) k = τ.mem.read (j * Ring.slotSize) k

/-- In every run each `end_write` commits the first bytes of the buffer that the latest
    `assign_write` since the one before passed, or of the stream's own place, so that two
    runs that supply the same bytes leave the same behind. -/
theorem assigned_as_copied : LogAgrees ∧ BlobAgrees ∧ RingAgrees := by
  refine ⟨⟨?_, ?_⟩, ⟨?_, ?_⟩, ⟨?_, ?_⟩⟩
  · intro A escape p mem fd es σ len σ' hturns hrun hend
    exact Log.endWrite_commits_chosen hturns hrun hend
  · intro A B escape p q mem mem' fd es fs σ τ hturns hrun hrun' hsame
    rw [(Log.lined_of_run hturns hrun).received, (Log.lined_of_run hturns hrun').received, hsame]
  · intro A p mem fd es σ len σ' hturns hrun hend
    exact Blob.endWrite_commits_chosen hturns hrun hend
  · intro A B p q mem mem' fd es fs σ τ hturns hrun hrun' hsame
    rw [(Blob.kept_of_run hturns hrun).received, (Blob.kept_of_run hturns hrun').received, hsame]
  · intro file es σ len σ' hrun hend
    exact Ring.endWrite_commits_chosen hrun hend
  · intro es fs σ τ hrun hrun' hsame j hj
    exact Ring.committed_determines_slots hrun hrun' hsame hj

/-- A log stream that does not escape. -/
def demoLog : Log.WriteSession := Log.writeInitWith false 8 (fun _ => 0) ⟨[], []⟩

def demoBlob : Blob.BlobSession := Blob.blobInit 8 (fun _ => 0) ⟨[], []⟩

/-- Two messages: the first one is assigned, the second one stored in the stream's buffer. -/
def logAssigned : List Log.WriteEvent :=
  [.assignWrite (some (Mem.ofBytes [104, 105])) 2, .endWrite 2,
    .startWrite 1, .fill 0 [33], .endWrite 1]

/-- The other way round. -/
def logStored : List Log.WriteEvent :=
  [.startWrite 2, .fill 0 [104, 105], .endWrite 2,
    .assignWrite (some (Mem.ofBytes [33])) 1, .endWrite 1]

def blobAssigned : List Blob.BlobEvent :=
  [.assignWrite (some (Mem.ofBytes [104, 105])) 2, .endWrite 2,
    .startWrite 1, .fill 0 [33], .endWrite 1]

def blobStored : List Blob.BlobEvent :=
  [.startWrite 2, .fill 0 [104, 105], .endWrite 2,
    .assignWrite (some (Mem.ofBytes [33])) 1, .endWrite 1]

theorem assigned_as_copied_two_messages :
    (∃ σ τ, run (Log.writeStep .inPlace) demoLog logAssigned = some σ ∧
      run (Log.writeStep .inPlace) demoLog logStored = some τ ∧
      σ.committed = [[104, 105], [33]] ∧ σ.stream.fd.received = [104, 105, 10, 33, 10] ∧
      σ.stream.fd.received = τ.stream.fd.received) ∧
    ∃ σ τ, run (Blob.blobStep .inPlace) demoBlob blobAssigned = some σ ∧
      run (Blob.blobStep .inPlace) demoBlob blobStored = some τ ∧
      σ.committed = [[104, 105], [33]] ∧ σ.stream.fd.received = [104, 105, 33] ∧
      σ.stream.fd.received = τ.stream.fd.received := by
  constructor
  · obtain ⟨σ, hσ, hcommitted, hreceived⟩ : ∃ σ,
        run (Log.writeStep .inPlace) demoLog logAssigned = some σ ∧
        σ.committed = [[104, 105], [33]] ∧ σ.stream.fd.received = [104, 105, 10, 33, 10] :=
      ⟨_, rfl, rfl, rfl⟩
    obtain ⟨τ, hτ, hcommitted'⟩ : ∃ τ, run (Log.writeStep .inPlace) demoLog logStored = some τ ∧
        τ.committed = [[104, 105], [33]] := ⟨_, rfl, rfl⟩
    refine ⟨σ, τ, hσ, hτ, hcommitted, hreceived, ?_⟩
    apply assigned_as_copied.1.same_output _ _ _ _ _ _ _ _ _ _ _ _ rfl hσ hτ
    exact hcommitted.trans hcommitted'.symm
  · obtain ⟨σ, hσ, hcommitted, hreceived⟩ : ∃ σ,
        run (Blob.blobStep .inPlace) demoBlob blobAssigned = some σ ∧
        σ.committed = [[104, 105], [33]] ∧ σ.stream.fd.received = [104, 105, 33] :=
      ⟨_, rfl, rfl, rfl⟩
    obtain ⟨τ, hτ, hcommitted'⟩ : ∃ τ, run (Blob.blobStep .inPlace) demoBlob blobStored = some τ ∧
        τ.committed = [[104, 105], [33]] := ⟨_, rfl, rfl⟩
    refine ⟨σ, τ, hσ, hτ, hcommitted, hreceived, ?_⟩
    apply assigned_as_copied.2.1.same_output _ _ _ _ _ _ _ _ _ _ _ rfl hσ hτ
    exact hcommitted.trans hcommitted'.symm

end Camio.Ostreams
