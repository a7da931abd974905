/-
  Camio.Ring.Istream

  `camio_istream_ring.c`: the reading end of the ring.  The reader keeps the
  counter it expects next and the index of its slot.  `prepare_next` takes the
  payload of the slot if the slot's counter has come up to the expected one, and
  catches up with the slot if the counter is ahead; `end_read` checks that the
  counter has not moved since.

  `start_read` spins on `prepare_next` until there is data; a call that is still
  spinning is the result `spinning`, with the state its last turn left.
-/

import Camio.Errors
import Camio.Descr.Parse
import Camio.Ring.Slot

namespace Camio.Ring

open Camio.Lib Camio.Descr

/-- `camio_istream_ring_t`.  `curr` is the offset of the current slot. -/
structure IstreamRing where
  isClosed : Bool
  curr : Nat
  readSize : Nat
  syncCounter : Nat
  index : Nat

/-- The fields as `camio_istream_ring_construct` initialises them; the first
    write will carry the counter 1. -/
def camioIstreamRingConstruct : IstreamRing :=
  { isClosed := true, curr := 0, readSize := 0, syncCounter := 1, index := 0 }

/-- `camio_istream_ring_open`: an existing ring file is mapped as it is, a missing
    one is created and zeroed. -/
def camioIstreamRingOpen (r : IstreamRing) (descr : CamioDescr) (file : Option Mem) :
    Exit (IstreamRing × Mem) :=
  if descr.optHead.isSome then
    eprintfExit .unknownOpt "Option(s) supplied, but none expected\n"
  else if descr.query.isNone then
    eprintfExit .nullPtr "No filename supplied\n"
  else .ok ({ r with curr := 0, isClosed := false }, file.getD zeroRing)

/-- Conversion of a 64-bit value to `int`: the low 32 bits, read as signed. -/
def toInt (n : Nat) : Int :=
  if n % 4294967296 < 2147483648 then n % 4294967296 else n % 4294967296 - 4294967296

/-- `prepare_next`: the size of the waiting payload, 0 if there is none. -/
def prepareNext (r : IstreamRing) (m : Mem) : Int × IstreamRing :=
  if r.readSize ≠ 0 then (toInt r.readSize, r) -- there's already data waiting
  else
    let currSyncCount := syncWord m r.curr
    if currSyncCount = r.syncCounter then
      let dataLen := lenWord m r.curr
      (toInt dataLen, { r with readSize := dataLen })
    else if currSyncCount > r.syncCounter then
      -- ring overflow: catch up with the slot
      let dataLen := lenWord m r.curr
      (toInt dataLen, { r with syncCounter := currSyncCount, readSize := dataLen })
    else (0, r)

/-- `camio_istream_ring_ready`. -/
def camioIstreamRingReady (r : IstreamRing) (m : Mem) : Int × IstreamRing :=
  if r.readSize ≠ 0 ∨ r.isClosed then (1, r) else prepareNext r m

/-- How a call of `start_read` stands: it returned 0 on a closed stream, it
    returned a pointer and a size, or it is still spinning. -/
inductive StartRead where
  | closed
  | data (out size : Nat)
  | spinning
deriving DecidableEq, Repr

/-- `camio_istream_ring_start_read`, up to the next turn of its spin loop. -/
def camioIstreamRingStartRead (r : IstreamRing) (m : Mem) : StartRead × IstreamRing :=
  if r.isClosed then (.closed, r)
  else if r.readSize ≠ 0 then (.data r.curr r.readSize, r)
  else
    let (ready, r) := prepareNext r m
    if ready = 0 then (.spinning, r) else (.data r.curr r.readSize, r)

/-- `camio_istream_ring_end_read`. -/
def camioIstreamRingEndRead (r : IstreamRing) (m : Mem) : Int × IstreamRing :=
  let currSyncCount := syncWord m r.curr
  if currSyncCount ≠ r.syncCounter then
    (-1, { r with syncCounter := currSyncCount, readSize := 0 })
  else
    let index := (r.index + 1) % (ringSize / slotSize)
    (0, { r with
      readSize := 0
      syncCounter := (r.syncCounter + 1) % 2 ^ 64
      index := index
      curr := index * slotSize })

/-! ## What the calls do -/

theorem toInt_eq_zero_iff {n : Nat} (h : n ≤ 4080) : toInt n = 0 ↔ n = 0 := by
  rw [toInt, if_pos (by omega)]
  omega

/-- The reader after `prepare_next` took the payload of the slot. -/
def takeSlot (r : IstreamRing) (m : Mem) : IstreamRing :=
  { r with syncCounter := syncWord m r.curr, readSize := lenWord m r.curr }

/-- `prepare_next` keeps a waiting payload, takes the slot's, or finds nothing. -/
theorem prepareNext_eq (r : IstreamRing) (m : Mem) :
    prepareNext r m =
      if r.readSize ≠ 0 then (toInt r.readSize, r)
      else if r.syncCounter ≤ syncWord m r.curr then
        (toInt (lenWord m r.curr), takeSlot r m)
      else (0, r) := by
  rw [prepareNext]
  by_cases hread : r.readSize ≠ 0
  · rw [if_pos hread, if_pos hread]
  · rw [if_neg hread, if_neg hread]
    rcases Nat.lt_trichotomy (syncWord m r.curr) r.syncCounter with h | h | h
    · simp only [if_neg (Nat.ne_of_lt h), if_neg (Nat.not_lt_of_gt h),
        if_neg (Nat.not_le_of_gt h)]
    · simp [takeSlot, h]
    · simp only [if_neg (Nat.ne_of_gt h), if_pos h, if_pos (Nat.le_of_lt h), takeSlot]

/-- The reader stays as it is, or takes the slot's payload. -/
theorem prepareNext_snd_cases (r : IstreamRing) (m : Mem) :
    (prepareNext r m).2 = r ∨
      (r.readSize = 0 ∧ r.syncCounter ≤ syncWord m r.curr ∧
        (prepareNext r m).2 = takeSlot r m) := by
  rw [prepareNext_eq]
  by_cases hread : r.readSize = 0
  · rw [if_neg (not_not_intro hread)]
    by_cases hle : r.syncCounter ≤ syncWord m r.curr
    · rw [if_pos hle]
      exact Or.inr ⟨hread, hle, rfl⟩
    · rw [if_neg hle]
      exact Or.inl rfl
  · rw [if_pos hread]
    exact Or.inl rfl

/-- With nothing waiting, `prepare_next` returns 0 exactly when it leaves nothing
    waiting: an empty payload looks like none. -/
theorem prepareNext_fst_eq_zero_iff {r : IstreamRing} {m : Mem} (hread : r.readSize = 0)
    (hlen : lenWord m r.curr ≤ 4080) :
    (prepareNext r m).1 = 0 ↔ (prepareNext r m).2.readSize = 0 := by
  rw [prepareNext_eq, if_neg (not_not_intro hread)]
  by_cases hle : r.syncCounter ≤ syncWord m r.curr
  · rw [if_pos hle]
    dsimp only [takeSlot]
    rw [toInt_eq_zero_iff hlen]
  · rw [if_neg hle]
    exact iff_of_true rfl hread

/-- `ready` on an open stream is `prepare_next`, up to the value it returns. -/
theorem camioIstreamRingReady_snd {r : IstreamRing} (m : Mem) (h : r.isClosed = false) :
    (camioIstreamRingReady r m).2 = (prepareNext r m).2 := by
  rw [camioIstreamRingReady]
  by_cases hread : r.readSize ≠ 0
  · rw [if_pos (Or.inl hread), prepareNext_eq, if_pos hread]
  · rw [if_neg (by simp [h, Classical.not_not.mp hread])]

/-- So is `start_read`: it takes one turn of `prepare_next`. -/
theorem camioIstreamRingStartRead_snd {r : IstreamRing} (m : Mem) (h : r.isClosed = false) :
    (camioIstreamRingStartRead r m).2 = (prepareNext r m).2 := by
  rw [camioIstreamRingStartRead, if_neg (by simp [h])]
  by_cases hread : r.readSize ≠ 0
  · rw [if_pos hread, prepareNext_eq, if_pos hread]
  · rw [if_neg hread]
    dsimp only
    split <;> rfl

/-- What `start_read` returns on an open stream is the state it leaves: the
    current slot and the waiting size, if there is one. -/
theorem camioIstreamRingStartRead_fst {r : IstreamRing} {m : Mem} {out size : Nat}
    (hlen : lenWord m r.curr ≤ 4080)
    (h : (camioIstreamRingStartRead r m).1 = .data out size) :
    let r' := (camioIstreamRingStartRead r m).2
    out = r'.curr ∧ size = r'.readSize ∧ r'.readSize ≠ 0 := by
  rw [camioIstreamRingStartRead] at *
  split at h
  next => cases h
  next hopen =>
    rw [if_neg hopen]
    split at h
    next hread =>
      rw [if_pos hread]
      cases h
      exact ⟨rfl, rfl, hread⟩
    next hread =>
      rw [if_neg hread]
      dsimp only at h ⊢
      split at h
      next => cases h
      next hready =>
        rw [if_neg hready]
        cases h
        -- a payload of size 0 would have kept the call spinning
        exact ⟨rfl, rfl, fun hzero => hready
          ((prepareNext_fst_eq_zero_iff (Classical.not_not.mp hread) hlen).mpr hzero)⟩

/-- `end_read` succeeds exactly when the slot still carries the counter it was
    read under. -/
theorem camioIstreamRingEndRead_eq (r : IstreamRing) (m : Mem) :
    camioIstreamRingEndRead r m =
      if syncWord m r.curr = r.syncCounter then
        (0, { r with
          readSize := 0
          syncCounter := (r.syncCounter + 1) % 2 ^ 64
          index := (r.index + 1) % 1024
          curr := (r.index + 1) % 1024 * slotSize })
      else (-1, { r with syncCounter := syncWord m r.curr, readSize := 0 }) := by
  have hcount : ringSize / slotSize = 1024 := by decide
  rw [camioIstreamRingEndRead, hcount]
  by_cases h : syncWord m r.curr = r.syncCounter
  · rw [if_pos h, if_neg (fun hne => hne h)]
  · rw [if_neg h, if_pos h]

theorem camioIstreamRingEndRead_eq_zero_iff (r : IstreamRing) (m : Mem) :
    (camioIstreamRingEndRead r m).1 = 0 ↔ syncWord m r.curr = r.syncCounter := by
  rw [camioIstreamRingEndRead_eq]
  split <;> simp [*]

end Camio.Ring
