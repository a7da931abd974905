/-
  Camio.Ring.Assigned

  Assigned and copied messages of a ring ostream, on a fresh ring or on a file that was
  there: `end_write` takes the payload from the buffer that stands assigned, from the slot
  otherwise, and puts the same words behind it.
-/

import Camio.Lib.Assign
import Camio.Ring.Invariant
import Camio.Ring.Reopen

namespace Camio.Ring

open Camio.Lib

variable {file : Mem} {σ σ' : System} {e : Event} {es : List Event} {len : Nat}

/-- What the calls mean for the assigned buffer. -/
def Event.call : Event → WriterCall Mem
  | .assignWrite (some buffer) _ => .assign buffer
  | .endWrite _ => .commit
  | _ => .other

/-- The calls and the field agree on what stands assigned. -/
theorem step_assigned (σ : System) (e : Event) (σ' : System) (hstep : step σ e = some σ') :
    σ'.writer.assignedBuffer = pendingAfter σ.writer.assignedBuffer [e.call] := by
  cases e with
  | startWrite len =>
      cases hstep
      rfl
  | fill off bytes =>
      obtain ⟨p, -, -, rfl⟩ := step_fill hstep
      rfl
  | assignWrite buffer len =>
      obtain ⟨b, rfl, rfl⟩ := step_assignWrite hstep
      rfl
  | endWrite len =>
      obtain ⟨-, rfl⟩ := step_endWrite hstep
      rfl
  | openReader | ready | startRead | endRead =>
      obtain ⟨_, _, _, rfl⟩ := step_byReader rfl hstep
      rfl

/-- The writer counts its own commits, whatever the file held before. -/
structure Counts (σ : System) : Prop where
  syncCount : σ.writer.syncCount = σ.committed.length % 2 ^ 64
  index : σ.writer.index = σ.committed.length % 1024

theorem Counts.step (h : Counts σ) (hstep : step σ e = some σ') : Counts σ' := by
  cases e with
  | startWrite len =>
      cases hstep
      exact { h with }
  | fill off bytes =>
      obtain ⟨p, -, -, rfl⟩ := step_fill hstep
      exact { h with }
  | assignWrite buffer len =>
      obtain ⟨b, -, rfl⟩ := step_assignWrite hstep
      exact { h with }
  | endWrite len =>
      obtain ⟨-, rfl⟩ := step_endWrite hstep
      have hsync := h.syncCount
      have hindex := h.index
      -- both count the commit, the index around the ring
      constructor
      · show (σ.writer.syncCount + 1) % 2 ^ 64 = _
        rw [List.length_append, List.length_singleton]
        omega
      · show (σ.writer.index + 1) % 1024 = _
        rw [List.length_append, List.length_singleton]
        omega
  | openReader | ready | startRead | endRead =>
      obtain ⟨_, _, _, rfl⟩ := step_byReader rfl hstep
      exact { h with }

theorem counts_of_run (hrun : run step (opened file) es = some σ) : Counts σ :=
  run_invariant Counts (fun _ _ _ h hstep => h.step hstep) ⟨rfl, rfl⟩ hrun

theorem payload_eq_chosen (w : OstreamRing) (m : Mem) (len : Nat) :
    payload w m len = chosen w.assignedBuffer (m.read w.curr len) len := by
  unfold payload chosen
  cases w.assignedBuffer <;> rfl

/-- In every run `end_write` commits the bytes that the latest assignment gave since the one
    before, or those in the slot if there was none: they are in the slot, under the next
    number. -/
theorem endWrite_commits_chosen (hrun : run step (opened file) es = some σ)
    (hend : step σ (.endWrite len) = some σ') :
    let slot := σ.committed.length % 1024 * slotSize
    let m := chosen (pendingAfter none (es.map Event.call)) (σ.mem.read slot len) len
    σ'.committed = σ.committed ++ [m] ∧ σ'.mem.read slot len = m ∧ lenWord σ'.mem slot = len ∧
      syncWord σ'.mem slot = (σ.committed.length + 1) % 2 ^ 64 ∧
      σ'.writer.assignedBuffer = none := by
  have hin := inSlot_of_run hrun
  have hcounts := counts_of_run hrun
  have hassigned : σ.writer.assignedBuffer = pendingAfter none (es.map Event.call) :=
    run_pending step_assigned hrun
  obtain ⟨hlen, rfl⟩ := step_endWrite hend
  dsimp only
  rw [← hcounts.index, commitMem_lenWord hin.curr hlen, commitMem_syncWord hin.curr, ← hin.curr,
    commitMem_read hlen, payload_eq_chosen, hassigned, hcounts.syncCount, Nat.mod_add_mod]
  exact ⟨rfl, rfl, rfl, rfl, rfl⟩

/-- Two runs on a fresh ring that commit the same payloads leave the same words in every
    slot, and the same payload as far as neither caller is writing over it. -/
theorem committed_determines_slots {es₁ es₂ : List Event} {σ₁ σ₂ : System}
    (hrun₁ : run step init es₁ = some σ₁) (hrun₂ : run step init es₂ = some σ₂)
    (hsame : σ₁.committed = σ₂.committed) {j : Nat} (hj : j < 1024) :
    syncWord σ₁.mem (j * slotSize) = syncWord σ₂.mem (j * slotSize) ∧
    lenWord σ₁.mem (j * slotSize) = lenWord σ₂.mem (j * slotSize) ∧
    ∀ k ≤ lenWord σ₁.mem (j * slotSize), k ≤ σ₁.intact j → k ≤ σ₂.intact j →
      σ₁.mem.read (j * slotSize) k = σ₂.mem.read (j * slotSize) k := by
  have h₁ := writerInv_of_run hrun₁
  have h₂ := writerInv_of_run hrun₂
  refine ⟨?_, ?_, fun k hk hi₁ hi₂ => ?_⟩
  · rw [h₁.sync j hj, h₂.sync j hj, hsame]
  · rw [h₁.len j hj, h₂.len j hj, hsame]
  · rw [h₁.len j hj] at hk
    rw [h₁.data j hj k hk hi₁, h₂.data j hj k (hsame ▸ hk) hi₂, hsame]

end Camio.Ring
