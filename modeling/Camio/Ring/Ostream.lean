/-
  Camio.Ring.Ostream

  `camio_ostream_ring.c`: the writing end of the ring.  The caller asks for the
  current slot with `start_write`, fills it in place (or hands over a buffer
  with `assign_write`) and commits with `end_write`, which stores the payload
  length and the incremented counter in the slot and moves to the next one.
-/

import Camio.Errors
import Camio.Descr.Parse
import Camio.Ring.Slot

namespace Camio.Ring

open Camio.Lib Camio.Descr

/-- `camio_ostream_ring_t`.  `curr` is the offset of the current slot in the
    ring; an assigned buffer is the memory behind its pointer. -/
structure OstreamRing where
  isClosed : Bool
  curr : Nat
  assignedBuffer : Option Mem
  assignedBufferSz : Nat
  syncCount : Nat
  index : Nat

/-- The fields as `camio_ostream_ring_construct` initialises them. -/
def camioOstreamRingConstruct : OstreamRing :=
  { isClosed := true, curr := 0, assignedBuffer := none, assignedBufferSz := 0
    syncCount := 0, index := 0 }

/-- `camio_ostream_ring_open`: an existing ring file is mapped as it is, a missing
    one is created and zeroed. -/
def camioOstreamRingOpen (w : OstreamRing) (descr : CamioDescr) (file : Option Mem) :
    Exit (OstreamRing × Mem) :=
  if descr.optHead.isSome then
    eprintfExit .unknownOpt "Option(s) supplied, but none expected\n"
  else if descr.query.isNone then
    eprintfExit .nullPtr "No filename supplied\n"
  else .ok ({ w with curr := 0, isClosed := false }, file.getD zeroRing)

/-- `camio_ostream_ring_start_write`: the current slot, or `NULL` (`none`). -/
def camioOstreamRingStartWrite (w : OstreamRing) (len : Nat) : Option Nat :=
  if len > slotSize - 8 then none else some w.curr

/-- `camio_ostream_ring_assign_write`; `none` is a `NULL` buffer. -/
def camioOstreamRingAssignWrite (w : OstreamRing) (buffer : Option Mem) (len : Nat) :
    Exit OstreamRing :=
  match buffer with
  | none => eprintfExit .nullPtr "Assigned buffer is null."
  | some buffer => .ok { w with assignedBuffer := some buffer, assignedBufferSz := len }

/-- The `memcpy` of `end_write`, if there is an assigned buffer. -/
def copyAssigned (w : OstreamRing) (m : Mem) (len : Nat) : Mem :=
  match w.assignedBuffer with
  | none => m
  | some buffer => m.write w.curr (buffer.read 0 len)

/-- `camio_ostream_ring_end_write`. -/
def camioOstreamRingEndWrite (w : OstreamRing) (m : Mem) (len : Nat) :
    Exit (OstreamRing × Mem) :=
  if len > slotSize - 2 * 8 then
    eprintfExit .none
      "Length supplied (%lu) is greater than slot size (%lu, corruption is likely.\n"
  else
    let m := copyAssigned w m len
    let w := if w.assignedBuffer.isSome then
        { w with assignedBuffer := none, assignedBufferSz := 0 } else w
    let syncCount := (w.syncCount + 1) % 2 ^ 64
    let m := m.write64 (w.curr + slotSize - 2 * 8) len
    let m := m.write64 (w.curr + slotSize - 1 * 8) syncCount -- write is now committed
    let index := (w.index + 1) % (ringSize / slotSize)
    .ok ({ w with syncCount := syncCount, index := index, curr := index * slotSize }, m)

/-- The payload that `end_write` commits: the assigned buffer if there is one,
    what the caller left in the slot otherwise. -/
def payload (w : OstreamRing) (m : Mem) (len : Nat) : List UInt8 :=
  match w.assignedBuffer with
  | none => m.read w.curr len
  | some buffer => buffer.read 0 len

@[simp] theorem payload_length (w : OstreamRing) (m : Mem) (len : Nat) :
    (payload w m len).length = len := by
  rw [payload]
  split <;> simp

/-- The memory that a successful `end_write` leaves. -/
def commitMem (w : OstreamRing) (m : Mem) (len : Nat) : Mem :=
  ((copyAssigned w m len).write64 (w.curr + 4080) len).write64 (w.curr + 4088)
    ((w.syncCount + 1) % 2 ^ 64)

/-- The writer that a successful `end_write` leaves. -/
def commitWriter (w : OstreamRing) : OstreamRing :=
  { isClosed := w.isClosed
    curr := (w.index + 1) % 1024 * slotSize
    assignedBuffer := none
    assignedBufferSz := if w.assignedBuffer.isSome then 0 else w.assignedBufferSz
    syncCount := (w.syncCount + 1) % 2 ^ 64
    index := (w.index + 1) % 1024 }

/-- `start_write` hands out the writer's slot for up to 4088 bytes. -/
theorem camioOstreamRingStartWrite_eq (w : OstreamRing) (len : Nat) :
    camioOstreamRingStartWrite w len = if len ≤ 4088 then some w.curr else none := by
  have hsize : slotSize - 8 = 4088 := rfl
  rw [camioOstreamRingStartWrite, hsize]
  by_cases h : len ≤ 4088
  · rw [if_pos h, if_neg (Nat.not_lt_of_le h)]
  · rw [if_neg h, if_pos (Nat.lt_of_not_le h)]

theorem camioOstreamRingStartWrite_some {w : OstreamRing} {len p : Nat}
    (h : camioOstreamRingStartWrite w len = some p) : len ≤ 4088 ∧ p = w.curr := by
  rw [camioOstreamRingStartWrite_eq] at h
  by_cases hlen : len ≤ 4088
  · rw [if_pos hlen] at h
    exact ⟨hlen, (Option.some.inj h).symm⟩
  · rw [if_neg hlen] at h
    exact absurd h (by simp)

/-- `end_write` either refuses a length above 4080 or commits. -/
theorem camioOstreamRingEndWrite_eq (w : OstreamRing) (m : Mem) (len : Nat) :
    camioOstreamRingEndWrite w m len =
      if len ≤ 4080 then .ok (commitWriter w, commitMem w m len)
      else eprintfExit .none
        "Length supplied (%lu) is greater than slot size (%lu, corruption is likely.\n" := by
  have hcount : ringSize / slotSize = 1024 := by decide
  by_cases hlen : len ≤ 4080
  · have h1 : ¬ len > slotSize - 2 * 8 := by simp only [slotSize]; omega
    rw [camioOstreamRingEndWrite, if_neg h1, if_pos hlen, hcount]
    obtain ⟨isClosed, curr, buf, sz, sync, index⟩ := w
    cases buf <;> rfl
  · have h1 : len > slotSize - 2 * 8 := by simp only [slotSize]; omega
    rw [camioOstreamRingEndWrite, if_pos h1, if_neg hlen]

/-! ## What a commit does to the slots -/

section Commit

variable {w : OstreamRing} {m : Mem} {len : Nat}

theorem copyAssigned_words (hcurr : w.curr = w.index * slotSize) (hlen : len ≤ 4080) (j : Nat) :
    syncWord (copyAssigned w m len) (j * slotSize) = syncWord m (j * slotSize) ∧
    lenWord (copyAssigned w m len) (j * slotSize) = lenWord m (j * slotSize) := by
  rw [copyAssigned]
  split
  · exact ⟨rfl, rfl⟩
  · rw [hcurr, ← Nat.add_zero (w.index * slotSize)]
    exact words_write_payload (by simpa using hlen)

theorem copyAssigned_read_ne (hcurr : w.curr = w.index * slotSize) (hlen : len ≤ 4080)
    {j k : Nat} (hj : j ≠ w.index) (hk : k ≤ slotSize) :
    (copyAssigned w m len).read (j * slotSize) k = m.read (j * slotSize) k := by
  rw [copyAssigned]
  split
  · rfl
  · rw [hcurr, ← Nat.add_zero (w.index * slotSize)]
    exact read_write_payload (by simpa using hlen) hk (fun h => absurd h.symm hj)

/-- The committed slot holds the payload. -/
theorem copyAssigned_read (w : OstreamRing) (m : Mem) (len : Nat) :
    (copyAssigned w m len).read w.curr len = payload w m len := by
  rw [copyAssigned, payload]
  cases w.assignedBuffer with
  | none => rfl
  | some buffer =>
      have h := m.read_write_same w.curr (buffer.read 0 len)
      rwa [Mem.read_length] at h

theorem commitMem_syncWord (hcurr : w.curr = w.index * slotSize) :
    syncWord (commitMem w m len) (w.index * slotSize) = (w.syncCount + 1) % 2 ^ 64 := by
  rw [syncWord_eq, commitMem, hcurr, Mem.read64_write64_same, Nat.mod_mod]

theorem commitMem_lenWord (hcurr : w.curr = w.index * slotSize) (hlen : len ≤ 4080) :
    lenWord (commitMem w m len) (w.index * slotSize) = len := by
  rw [lenWord_eq, commitMem, hcurr, Mem.read64_write64_disjoint (by omega),
    Mem.read64_write64_same, Nat.mod_eq_of_lt (by omega)]

theorem commitMem_read (hlen : len ≤ 4080) :
    (commitMem w m len).read w.curr len = payload w m len := by
  rw [commitMem, Mem.read_write64_disjoint (by omega), Mem.read_write64_disjoint (by omega),
    copyAssigned_read]

/-- The other slots keep their words. -/
theorem commitMem_words_ne (hcurr : w.curr = w.index * slotSize) (hlen : len ≤ 4080)
    {j : Nat} (hj : j ≠ w.index) :
    syncWord (commitMem w m len) (j * slotSize) = syncWord m (j * slotSize) ∧
    lenWord (commitMem w m len) (j * slotSize) = lenWord m (j * slotSize) := by
  obtain ⟨h1, h2⟩ := copyAssigned_words (m := m) hcurr hlen j
  rw [← h1, ← h2]
  simp only [syncWord_eq, lenWord_eq, commitMem, hcurr, slotSize]
  constructor <;>
  · rw [Mem.read64_write64_disjoint (by omega), Mem.read64_write64_disjoint (by omega)]

/-- The other slots keep their payload. -/
theorem commitMem_read_ne (hcurr : w.curr = w.index * slotSize) (hlen : len ≤ 4080)
    {j k : Nat} (hj : j ≠ w.index) (hk : k ≤ slotSize) :
    (commitMem w m len).read (j * slotSize) k = m.read (j * slotSize) k := by
  rw [← copyAssigned_read_ne (m := m) hcurr hlen hj hk]
  simp only [commitMem, hcurr, slotSize] at *
  rw [Mem.read_write64_disjoint (by omega), Mem.read_write64_disjoint (by omega)]

end Commit

end Camio.Ring
