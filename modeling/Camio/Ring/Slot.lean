/-
  Camio.Ring.Slot

  The layout of the shared ring: 1024 slots of 4096 bytes.  A slot holds its
  payload from its first byte on, the payload length in its last word but one
  and the synchronisation counter in its last word.  The file is the memory; a
  pointer into a mapping of it is the offset from the start of the mapping.

  The second half is the numbering of messages over slots: message `m` (counted
  from 1) goes to slot `(m - 1) % 1024`, and `lastIn n j` is the number of the
  last message in slot `j` once `n` messages are committed.
-/

import Camio.Lib.ByteMem

namespace Camio.Ring

open Camio.Lib

/-- `CAMIO_OSTREAM_RING_SIZE` and `CAMIO_ISTREAM_RING_SIZE`: 4MB. -/
def ringSize : Nat := 4 * 1024 * 1024

/-- `CAMIO_OSTREAM_RING_SLOT_SIZE` and `CAMIO_ISTREAM_RING_SLOT_SIZE`: 4K. -/
def slotSize : Nat := 4 * 1024

/-- A zeroed ring. -/
def zeroRing : Mem := fun _ => 0

/-- The counter word of the slot at `curr`. -/
def syncWord (m : Mem) (curr : Nat) : Nat := m.read64 (curr + slotSize - 8)

/-- The length word of the slot at `curr`. -/
def lenWord (m : Mem) (curr : Nat) : Nat := m.read64 (curr + slotSize - 2 * 8)

theorem syncWord_eq (m : Mem) (curr : Nat) : syncWord m curr = m.read64 (curr + 4088) := by
  rw [syncWord, show curr + slotSize - 8 = curr + 4088 by simp only [slotSize]; omega]

theorem lenWord_eq (m : Mem) (curr : Nat) : lenWord m curr = m.read64 (curr + 4080) := by
  rw [lenWord, show curr + slotSize - 2 * 8 = curr + 4080 by simp only [slotSize]; omega]

theorem syncWord_lt (m : Mem) (curr : Nat) : syncWord m curr < 2 ^ 64 := m.read64_lt _

theorem read64_zeroRing (a : Nat) : zeroRing.read64 a = 0 := by
  simp [Mem.read64, Mem.read, leNat, zeroRing]

@[simp] theorem syncWord_zeroRing (curr : Nat) : syncWord zeroRing curr = 0 := by
  rw [syncWord_eq, read64_zeroRing]

@[simp] theorem lenWord_zeroRing (curr : Nat) : lenWord zeroRing curr = 0 := by
  rw [lenWord_eq, read64_zeroRing]

/-! ## Writes inside one slot -/

/-- A write to the payload area of a slot leaves the words of every slot alone. -/
theorem words_write_payload {m : Mem} {i j off : Nat} {bs : List UInt8}
    (h : off + bs.length ≤ 4080) :
    syncWord (m.write (i * slotSize + off) bs) (j * slotSize) = syncWord m (j * slotSize) ∧
    lenWord (m.write (i * slotSize + off) bs) (j * slotSize) = lenWord m (j * slotSize) := by
  simp only [syncWord_eq, lenWord_eq, slotSize]
  rcases Nat.lt_trichotomy i j with hij | rfl | hij
  · exact ⟨Mem.read64_write_disjoint (by omega), Mem.read64_write_disjoint (by omega)⟩
  · exact ⟨Mem.read64_write_disjoint (by omega), Mem.read64_write_disjoint (by omega)⟩
  · exact ⟨Mem.read64_write_disjoint (by omega), Mem.read64_write_disjoint (by omega)⟩

/-- A write to the payload area of a slot leaves the payload of the others alone,
    and what lies in front of it in its own. -/
theorem read_write_payload {m : Mem} {i j off k : Nat} {bs : List UInt8}
    (h : off + bs.length ≤ 4080) (hk : k ≤ slotSize) (hij : i = j → k ≤ off) :
    (m.write (i * slotSize + off) bs).read (j * slotSize) k = m.read (j * slotSize) k := by
  simp only [slotSize] at *
  apply Mem.read_write_disjoint
  rcases Nat.lt_trichotomy i j with h' | h' | h'
  · omega
  · have := hij h'
    omega
  · omega

/-! ## Message numbers -/

/-- The number of the last message in slot `j` once `n` messages are committed;
    0 if the slot has had none. -/
def lastIn (n j : Nat) : Nat := if n < j + 1 then 0 else n - (n - (j + 1)) % 1024

@[simp] theorem lastIn_zero (j : Nat) : lastIn 0 j = 0 := if_pos (Nat.succ_pos j)

theorem lastIn_le (n j : Nat) : lastIn n j ≤ n := by
  rw [lastIn]
  split <;> omega

/-- A slot that has had a message holds one of the last 1024, of its own residue. -/
theorem lastIn_pos {n j : Nat} (h : lastIn n j ≠ 0) :
    n < lastIn n j + 1024 ∧ lastIn n j % 1024 = (j + 1) % 1024 ∧ j + 1 ≤ lastIn n j := by
  rw [lastIn] at *
  split at h <;> split <;> omega

/-- Committing message `n + 1` updates slot `n % 1024`. -/
theorem lastIn_succ_same (n : Nat) : lastIn (n + 1) (n % 1024) = n + 1 := by
  rw [lastIn]
  split <;> omega

/-- Committing message `n + 1` leaves the other slots alone. -/
theorem lastIn_succ_ne {n j : Nat} (hj : j < 1024) (h : j ≠ n % 1024) :
    lastIn (n + 1) j = lastIn n j := by
  simp only [lastIn]
  split <;> split <;> omega

theorem lastIn_mono (n j : Nat) (hj : j < 1024) : lastIn n j ≤ lastIn (n + 1) j := by
  by_cases h : j = n % 1024
  · subst h
    rw [lastIn_succ_same]
    exact Nat.le_succ_of_le (lastIn_le n _)
  · exact Nat.le_of_eq (lastIn_succ_ne hj h).symm

/-- A message number from the last 1024 is the last one of its slot. -/
theorem lastIn_eq {n m : Nat} (h1 : 1 ≤ m) (hle : m ≤ n) (hlt : n < m + 1024) :
    lastIn n ((m - 1) % 1024) = m := by
  rw [lastIn]
  split <;> omega

/-- A slot has received every committed message of its residue. -/
theorem le_lastIn {n m : Nat} (h1 : 1 ≤ m) (hle : m ≤ n) : m ≤ lastIn n ((m - 1) % 1024) := by
  rw [lastIn]
  split <;> omega

end Camio.Ring
