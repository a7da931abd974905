/-
  Camio.Ring.Capacity

  What fits into a slot.  `start_write` takes off the eight bytes of the counter word,
  `end_write` those of the length word as well: for the eight lengths in between the
  caller is handed a space that reaches into the length word, and committing it ends
  the program.
-/

import Camio.Ring.Reopen

namespace Camio.Ring

open Camio.Lib

variable {file : Mem} {σ : System} {es : List Event} {len p : Nat}

/-- Filling the `len` bytes at `p` changes neither word of the writer's slot, and no
    other slot. -/
def FillsInside (σ : System) (p len : Nat) : Prop :=
  ∀ bytes : List UInt8, bytes.length = len →
    syncWord (σ.mem.write p bytes) σ.writer.curr = syncWord σ.mem σ.writer.curr ∧
    lenWord (σ.mem.write p bytes) σ.writer.curr = lenWord σ.mem σ.writer.curr ∧
    ∀ j ≠ σ.writer.index, (σ.mem.write p bytes).read (j * slotSize) slotSize
      = σ.mem.read (j * slotSize) slotSize

/-- Once they are filled, `end_write` commits any `n` of them: it returns, and the slot
    holds the length, the next counter and the bytes. -/
def Commits (σ : System) (p len : Nat) : Prop :=
  ∀ bytes : List UInt8, bytes.length = len → ∀ n ≤ len,
    ∃ w m, camioOstreamRingEndWrite σ.writer (σ.mem.write p bytes) n = .ok (w, m) ∧
      lenWord m σ.writer.curr = n ∧
      syncWord m σ.writer.curr = (σ.writer.syncCount + 1) % 2 ^ 64 ∧
      m.read σ.writer.curr n = payload σ.writer (σ.mem.write p bytes) n

/-- What `start_write` hands out for `len` bytes has room for them. -/
def HasRoom (σ : System) (len : Nat) : Prop :=
  ∀ p, camioOstreamRingStartWrite σ.writer len = some p → FillsInside σ p len ∧ Commits σ p len

/-- Up to 4080 bytes stay in front of the words of the slot. -/
theorem InSlot.fillsInside (h : InSlot σ) (hlen : len ≤ 4080) :
    FillsInside σ σ.writer.curr len := by
  intro bytes hbytes
  have hle : 0 + bytes.length ≤ 4080 := by omega
  have hwords := words_write_payload (m := σ.mem) (i := σ.writer.index) (j := σ.writer.index) hle
  rw [Nat.add_zero, ← h.curr] at hwords
  refine ⟨hwords.1, hwords.2, fun j hj => ?_⟩
  have hread := read_write_payload (m := σ.mem) (i := σ.writer.index) (j := j) hle
    (Nat.le_refl slotSize) fun heq => absurd heq.symm hj
  rw [Nat.add_zero, ← h.curr] at hread
  exact hread

/-- `end_write` commits up to 4080 bytes. -/
theorem InSlot.commits (h : InSlot σ) (hlen : len ≤ 4080) : Commits σ p len := by
  intro bytes _ n hn
  have hn' : n ≤ 4080 := Nat.le_trans hn hlen
  refine ⟨commitWriter σ.writer, commitMem σ.writer (σ.mem.write p bytes) n, ?_, ?_, ?_, ?_⟩
  · rw [camioOstreamRingEndWrite_eq, if_pos hn']
  · rw [h.curr]
    exact commitMem_lenWord h.curr hn'
  · rw [h.curr]
    exact commitMem_syncWord h.curr
  · exact commitMem_read hn'

/-- In every reachable state, on any ring file, `start_write` and `end_write` agree on
    what fits except for the eight lengths that reach into the length word. -/
theorem start_write_has_room_iff (hrun : run step (opened file) es = some σ) :
    HasRoom σ len ↔ len ≤ 4080 ∨ 4088 < len := by
  have hin := inSlot_of_run hrun
  constructor
  · intro hroom
    by_contra hbetween
    have hgrant : camioOstreamRingStartWrite σ.writer len = some σ.writer.curr := by
      rw [camioOstreamRingStartWrite_eq, if_pos (by omega)]
    -- the length that was asked for is one that `end_write` refuses
    obtain ⟨w, m, hend, -⟩ := (hroom _ hgrant).2 (List.replicate len 0) List.length_replicate len
      (Nat.le_refl len)
    rw [camioOstreamRingEndWrite_eq, if_neg (by omega)] at hend
    cases hend
  · rintro hfits p hgrant
    obtain ⟨hle, rfl⟩ := camioOstreamRingStartWrite_some hgrant
    have hlen : len ≤ 4080 := by omega
    exact ⟨hin.fillsInside hlen, hin.commits hlen⟩

theorem start_write_has_room_iff_full_slot :
    HasRoom init 4080 ↔ 4080 ≤ 4080 ∨ 4088 < 4080 := by
  have hrun : run step (opened zeroRing) [] = some init := rfl
  exact start_write_has_room_iff hrun

/-- A writer that has just opened its ring hands out 4081 bytes, which reach into the
    length word, and which it does not commit. -/
theorem start_write_has_room_fails_4081 :
    ¬ ∀ file es σ len, run step (opened file) es = some σ → HasRoom σ len := by
  intro hall
  have hroom := hall zeroRing [] init 4081 rfl
  obtain ⟨w, m, hend, -⟩ := (hroom 0 rfl).2 (List.replicate 4081 0) List.length_replicate 4081
    (Nat.le_refl 4081)
  rw [camioOstreamRingEndWrite_eq, if_neg (by decide)] at hend
  cases hend

end Camio.Ring
