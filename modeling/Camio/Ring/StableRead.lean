/-
  Camio.Ring.StableRead

  What an `end_read` that returns 0 says about the bytes `start_read` handed out.
  It compares the slot's counter, which the writer moves only after its caller
  has filled the slot.  So it vouches for the bytes unless the caller is filling
  that very slot, which has to be excluded on the writer's side.
-/

import Camio.Ring.Invariant

namespace Camio.Ring

open Camio.Lib

variable {σ : System} {r : IstreamRing} {bytes : List UInt8}

/-- The slot still holds the bytes that were handed out, and they are the payload
    of the message the reader stands on. -/
def StableRead (σ : System) (r : IstreamRing) (bytes : List UInt8) : Prop :=
  σ.mem.read r.curr r.readSize = bytes ∧ bytes = σ.message r.syncCounter

/-- The writer's caller has stored nothing into the first `read_size` bytes of the
    slot being read since the last commit. -/
def Unfilled (σ : System) (r : IstreamRing) : Prop :=
  σ.writer.curr = r.curr → r.readSize ≤ σ.untouched

theorem Unfilled.le_intact (h : Unfilled σ r) (hw : Records σ) (hp : Placed σ r)
    (hsize : r.readSize ≤ 4080) : r.readSize ≤ σ.intact r.index := by
  rw [System.intact]
  split
  next hidx => exact h (by rw [hw.curr, hp.curr, hidx])
  next => rw [slotSize]; omega

/-- If the slot has received no later message, and is not being filled, it still holds the
    message that is being read, and this is what was handed out. -/
theorem ReaderInv.stableRead (h : ReaderInv σ) (hw : Records σ) (hr : σ.reader = some r)
    (hbytes : σ.pending = some bytes) (hfill : Unfilled σ r)
    (hlast : r.syncCounter = lastIn σ.committed.length r.index) : StableRead σ r bytes := by
  have hp := h.placed r hr
  have hh := h.handedOut r bytes hr hbytes
  have hintact := hfill.le_intact hw hp (hp.readSize_le hw hh.waiting)
  have hmessage := hh.eq_message hp hlast hintact
  exact ⟨(hp.read_eq hw hh.waiting hlast hintact).trans hmessage.symm, hmessage⟩

/-- In every state that a run reaches, an `end_read` that returns 0 vouches for the
    bytes handed out, unless the writer's caller is filling them. -/
theorem endRead_stable {es : List Event} (hrun : run step init es = some σ)
    (hN : σ.committed.length < 2 ^ 64) (hr : σ.reader = some r)
    (hbytes : σ.pending = some bytes) (hfill : Unfilled σ r)
    (hzero : (camioIstreamRingEndRead r σ.mem).1 = 0) : StableRead σ r bytes := by
  have hw := writerInv_of_run hrun
  have hri := readerInv_of_run hrun hN
  refine hri.stableRead hw.toRecords hr hbytes hfill ?_
  -- the counter is the reader's, so the slot's last message is the one being read
  rw [← (hri.placed r hr).syncWord_eq hw hN,
    (camioIstreamRingEndRead_eq_zero_iff r σ.mem).mp hzero]

/-! ## A lap in the middle of a read -/

/-- One message, read up to `start_read`. -/
def beginRead : List Event := putInPlace [7] ++ [.openReader, .startRead]

/-- The reader has message 1, the only one, in hand. -/
structure Reading (σ : System) : Prop where
  writer : WriterInv σ
  unassigned : σ.writer.assignedBuffer = none
  committed : σ.committed = [[7]]
  reader : σ.reader = some
    { isClosed := false, curr := 0, readSize := 1, syncCounter := 1, index := 0 }
  pending : σ.pending = some [7]

theorem run_beginRead : ∃ σ, run step init beginRead = some σ ∧ Reading σ := by
  obtain ⟨σ, hrun, hcommitted, hwriter, huntouched, hreader, -, -⟩ :=
    run_putInPlace (σ := init) (p := [7]) (by decide) rfl
  have hw := writerInv_of_run hrun
  have hopen : step σ .openReader = some { σ with reader := some openedReader } := by
    simp only [step, hreader, init]
  -- slot 0 holds message 1: its counter, its length, its payload
  have hlast : lastIn σ.committed.length 0 = 1 := by
    rw [hcommitted]
    rfl
  have hpayload : lastPayload σ.committed 0 = [7] := by
    rw [hcommitted]
    rfl
  have hsync : syncWord σ.mem 0 = 1 := by
    have h := hw.sync 0 (by decide)
    rwa [hlast, Nat.zero_mul] at h
  have hlen : lenWord σ.mem 0 = 1 := by
    have h := hw.len 0 (by decide)
    rwa [hpayload, Nat.zero_mul] at h
  have hdata : σ.mem.read 0 1 = [7] := by
    have h := hw.data 0 (by decide) 1 (by rw [hpayload]; decide)
      (by rw [System.intact, huntouched]; split <;> decide)
    rwa [hpayload, Nat.zero_mul] at h
  -- so `start_read` takes it
  have hstart := step_startRead_of_le (σ := { σ with reader := some openedReader }) rfl rfl rfl
    (show 1 ≤ syncWord σ.mem 0 by omega) (show lenWord σ.mem 0 ≠ 0 by omega)
    (show lenWord σ.mem 0 ≤ 4080 by omega)
  refine ⟨_, run_trans hrun (run_cons_eq_some.mpr ⟨_, hopen,
    run_cons_eq_some.mpr ⟨_, hstart, rfl⟩⟩), ?_⟩
  constructor
  case writer => exact { hw with }
  case unassigned =>
    show σ.writer.assignedBuffer = none
    rw [hwriter]
    rfl
  case committed => exact hcommitted
  case reader =>
    show some (takeSlot openedReader σ.mem) = _
    rw [takeSlot, show openedReader.curr = 0 from rfl, hsync, hlen]
    rfl
  case pending =>
    show some (σ.mem.read 0 (lenWord σ.mem 0)) = _
    rw [hlen, hdata]

theorem endRead_stable_first :
    ∃ σ r, run step init beginRead = some σ ∧ σ.reader = some r ∧ StableRead σ r [7] := by
  obtain ⟨σ, hrun, h⟩ := run_beginRead
  refine ⟨σ, _, hrun, h.reader, endRead_stable hrun ?_ h.reader h.pending ?_ ?_⟩
  · rw [h.committed]
    decide
  · intro hcurr
    rw [h.writer.curr, h.writer.index, h.committed] at hcurr
    exact absurd hcurr (by decide)
  · rw [camioIstreamRingEndRead_eq_zero_iff]
    have hsync := h.writer.sync 0 (by decide)
    rw [h.committed, Nat.zero_mul] at hsync
    exact hsync

/-- The writer laps the reader up to the slot being read and starts to fill it. -/
def lap : List Event :=
  (List.replicate 1023 [7]).flatMap putInPlace ++ [.startWrite 1, .fill 0 [8]]

theorem run_lap : ∃ σ, run step init (beginRead ++ lap) = some σ ∧
    σ.reader = some
      { isClosed := false, curr := 0, readSize := 1, syncCounter := 1, index := 0 } ∧
    σ.pending = some [7] ∧ syncWord σ.mem 0 = 1 ∧ σ.mem.read 0 1 = [8] := by
  obtain ⟨σ, hbegin, h⟩ := run_beginRead
  -- 1023 messages more, and the writer is back on slot 0
  have hone : ∀ p ∈ List.replicate 1023 [(7 : UInt8)], p.length ≤ 4080 := by
    intro p hp
    rw [List.eq_of_mem_replicate hp]
    decide
  obtain ⟨σ₁, hputs, hcommitted, -, hreader, hpending, -⟩ :=
    run_putInPlaces hone h.unassigned
  have hw₁ := writerInv_of_run (run_trans hbegin hputs)
  have hlen : σ₁.committed.length = 1024 := by
    rw [hcommitted, h.committed, List.length_append, List.length_replicate]
    rfl
  have hcurr : σ₁.writer.curr = 0 := by
    rw [hw₁.curr, hw₁.index, hlen, Nat.mod_self, Nat.zero_mul]
  have hfill : run step σ₁ [.startWrite 1, .fill 0 [8]] = some { σ₁ with
      granted := some σ₁.writer.curr
      mem := σ₁.mem.write σ₁.writer.curr [8]
      untouched := min σ₁.untouched 0 } := rfl
  refine ⟨_, run_trans hbegin (run_trans hputs hfill), hreader.trans h.reader,
    hpending.trans h.pending, ?_, ?_⟩
  · -- the counter of slot 0 is still that of message 1
    have hword := (@words_write_payload σ₁.mem 0 0 0 [8] (by decide)).1
    have hslot := hw₁.sync 0 (by decide)
    rw [Nat.zero_mul] at hword hslot
    rw [hcurr, hword, hslot, hlen]
    rfl
  · -- its payload is not
    have hread := σ₁.mem.read_write_same σ₁.writer.curr [8]
    rwa [hcurr] at hread ⊢

/-- With such a lap between `start_read` and `end_read`, `end_read` returns 0 although
    the slot's bytes have changed. -/
theorem endRead_stable_fails_lapped :
    ¬ ∀ es σ r bytes, run step init es = some σ → σ.reader = some r → σ.pending = some bytes →
      (camioIstreamRingEndRead r σ.mem).1 = 0 → StableRead σ r bytes := by
  intro hall
  obtain ⟨σ, hrun, hreader, hpending, hsync, hread⟩ := run_lap
  have hstable := (hall _ σ _ _ hrun hreader hpending
    ((camioIstreamRingEndRead_eq_zero_iff _ _).mpr hsync)).1
  rw [hread] at hstable
  exact absurd hstable (by decide)

end Camio.Ring
