/-
  Camio.Ring.Invariant

  What holds of writer, ring and reader in every reachable state.

  `Records` ties the writer's counter and index and the bytes of the slots to the list
  of committed payloads, for any number of laps and whatever the ring held at first;
  `WriterInv` adds the two words of all 1024 slots, for a ring that was zeroed.
  `ReaderInv` places the reader: its index is its counter's slot, it is at most
  one message ahead of the writer, and a waiting read belongs to the message the
  reader stands on.  The reader's counter is compared with the slots' as a
  number, so `ReaderInv` is about runs of fewer than 2^64 messages.
-/

import Mathlib.Order.Monotone.Basic
import Camio.Ring.System

namespace Camio.Ring

open Camio.Lib

variable {σ σ' : System}

/-! ## Slots and committed payloads -/

/-- The payload slot `j` last received; empty if it has had none. -/
def lastPayload (committed : List (List UInt8)) (j : Nat) : List UInt8 :=
  if lastIn committed.length j = 0 then [] else committed.getD (lastIn committed.length j - 1) []

/-- The bytes of slot `j` below this offset are as the last commit left them. -/
def System.intact (σ : System) (j : Nat) : Nat :=
  if j = σ.writer.index then σ.untouched else slotSize

/-- The payload of message `m`, counted from 1. -/
def System.message (σ : System) (m : Nat) : List UInt8 := σ.committed.getD (m - 1) []

theorem lastPayload_eq_message {j : Nat} (h : lastIn σ.committed.length j ≠ 0) :
    lastPayload σ.committed j = σ.message (lastIn σ.committed.length j) := by
  rw [lastPayload, if_neg h, System.message]

theorem lastPayload_snoc_same (committed : List (List UInt8)) (p : List UInt8) :
    lastPayload (committed ++ [p]) (committed.length % 1024) = p := by
  rw [lastPayload, List.length_append, List.length_singleton, lastIn_succ_same,
    if_neg (Nat.succ_ne_zero _), Nat.add_sub_cancel, List.getD_append_right _ _ _ _ (le_refl _),
    Nat.sub_self, List.getD_cons_zero]

theorem lastPayload_snoc_ne (committed : List (List UInt8)) (p : List UInt8) {j : Nat}
    (hj : j < 1024) (h : j ≠ committed.length % 1024) :
    lastPayload (committed ++ [p]) j = lastPayload committed j := by
  simp only [lastPayload, List.length_append, List.length_singleton, lastIn_succ_ne hj h]
  by_cases h0 : lastIn committed.length j = 0
  · rw [if_pos h0, if_pos h0]
  · have := lastIn_le committed.length j
    rw [if_neg h0, if_neg h0, List.getD_append _ _ _ _ (by omega)]

/-! ## The writer and the ring -/

/-- The writer's counter and index count the commits, and a slot holds, as far as it is
    intact, the bytes of the message it last received. -/
structure Records (σ : System) : Prop where
  syncCount : σ.writer.syncCount = σ.committed.length % 2 ^ 64
  index : σ.writer.index = σ.committed.length % 1024
  curr : σ.writer.curr = σ.writer.index * slotSize
  granted : ∀ p ∈ σ.granted, p = σ.writer.curr
  lens : ∀ p ∈ σ.committed, p.length ≤ 4080
  data : ∀ j < 1024, ∀ k ≤ (lastPayload σ.committed j).length, k ≤ σ.intact j →
    σ.mem.read (j * slotSize) k = (lastPayload σ.committed j).take k

/-- Every slot has counter and length of that message as well; they are 0 where there has
    been none. -/
structure WriterInv (σ : System) : Prop extends Records σ where
  sync : ∀ j < 1024,
    syncWord σ.mem (j * slotSize) = lastIn σ.committed.length j % 2 ^ 64
  len : ∀ j < 1024, lenWord σ.mem (j * slotSize) = (lastPayload σ.committed j).length

theorem Records.index_lt (h : Records σ) : σ.writer.index < 1024 := by
  rw [h.index]
  omega

theorem Records.lastPayload_length_le (h : Records σ) (j : Nat) :
    (lastPayload σ.committed j).length ≤ 4080 := by
  rw [lastPayload]
  split
  next => simp
  next h0 =>
    have hle := lastIn_le σ.committed.length j
    rw [List.getD_eq_getElem _ _ (by omega)]
    exact h.lens _ (List.getElem_mem _)

/-- A writer that has just opened a ring has committed nothing, whatever the ring holds. -/
theorem records_opened (file : Mem) : Records { init with mem := file } where
  syncCount := by simp [init, camioOstreamRingConstruct]
  index := by simp [init, camioOstreamRingConstruct]
  curr := by simp [init, camioOstreamRingConstruct]
  granted := by simp [init]
  lens := by simp [init]
  data := by
    intro j _ k hk _
    have hk0 : k = 0 := by simpa [init, lastPayload] using hk
    simp [hk0]

theorem writerInv_init : WriterInv init where
  toRecords := records_opened zeroRing
  sync := by
    intro j _
    simp [init]
  len := by
    intro j _
    simp [init, lastPayload]

/-- The space that was handed out is the writer's slot. -/
theorem Records.granted_eq (h : Records σ) {p : Nat} (hp : σ.granted = some p) :
    p = σ.writer.index * slotSize :=
  (h.granted p hp).trans h.curr

/-- Storing into the granted slot lowers what is intact of it and nothing else. -/
theorem Records.fill (h : Records σ) {off : Nat} {bytes : List UInt8}
    (hstep : step σ (.fill off bytes) = some σ') : Records σ' := by
  obtain ⟨p, hp, hle, rfl⟩ := step_fill hstep
  obtain rfl := h.granted_eq hp
  refine { h with data := ?_ }
  intro j hj k hk hintact
  have hk4080 : k ≤ 4080 := Nat.le_trans hk (h.lastPayload_length_le j)
  by_cases hempty : bytes = []
  · subst hempty
    simp only [Mem.write_nil]
    exact h.data j hj k hk hintact
  · -- the store is behind what is still intact of its own slot
    simp only [System.intact, if_neg hempty] at hintact
    have hk' : k ≤ σ.intact j := by
      rw [System.intact]
      split <;> split at hintact <;> omega
    have hoff : σ.writer.index = j → k ≤ off := fun hj' => by
      rw [if_pos hj'.symm] at hintact
      omega
    rw [read_write_payload hle (by simp only [slotSize]; omega) hoff]
    exact h.data j hj k hk hk'

theorem WriterInv.fill (h : WriterInv σ) {off : Nat} {bytes : List UInt8}
    (hstep : step σ (.fill off bytes) = some σ') : WriterInv σ' := by
  have hrecords := h.toRecords.fill hstep
  obtain ⟨p, hp, hle, rfl⟩ := step_fill hstep
  obtain rfl := h.granted_eq hp
  -- the store stays in front of the words of its slot
  refine { hrecords with sync := ?_, len := ?_ }
  · intro j hj
    rw [(words_write_payload hle).1]
    exact h.sync j hj
  · intro j hj
    rw [(words_write_payload hle).2]
    exact h.len j hj

theorem length_snoc_payload (σ : System) (len : Nat) :
    (σ.committed ++ [payload σ.writer σ.mem len]).length = σ.committed.length + 1 := by
  simp

/-- Committing moves the writer to the next message, and puts the payload into the slot that
    it leaves. -/
theorem Records.endWrite (h : Records σ) {len : Nat}
    (hstep : step σ (.endWrite len) = some σ') : Records σ' := by
  obtain ⟨hlen, rfl⟩ := step_endWrite hstep
  constructor
  case syncCount =>
    rw [length_snoc_payload]
    show (σ.writer.syncCount + 1) % 2 ^ 64 = _
    rw [h.syncCount]
    omega
  case index =>
    rw [length_snoc_payload]
    show (σ.writer.index + 1) % 1024 = _
    rw [h.index]
    omega
  case curr => rfl
  case granted => simp
  case lens =>
    intro p hp
    rcases List.mem_append.mp hp with hp | hp
    · exact h.lens p hp
    · rw [List.mem_singleton.mp hp, payload_length]
      exact hlen
  case data =>
    intro j hj k hk _
    by_cases hj' : j = σ.writer.index
    · subst hj'
      have hlast : lastPayload (σ.committed ++ [payload σ.writer σ.mem len]) σ.writer.index
          = payload σ.writer σ.mem len := by
        rw [h.index, lastPayload_snoc_same]
      rw [hlast, payload_length] at hk
      rw [hlast, ← commitMem_read hlen, Mem.read_take _ _ hk, h.curr]
    · -- another slot, and so intact before as well
      rw [lastPayload_snoc_ne _ _ hj (h.index ▸ hj')] at hk ⊢
      have hle := h.lastPayload_length_le j
      rw [commitMem_read_ne h.curr hlen hj' (by simp only [slotSize]; omega)]
      refine h.data j hj k hk ?_
      rw [System.intact, if_neg hj', slotSize]
      omega

/-- The words of the slot that is committed are those of its message; the other slots keep
    theirs. -/
theorem WriterInv.endWrite (h : WriterInv σ) {len : Nat}
    (hstep : step σ (.endWrite len) = some σ') : WriterInv σ' := by
  have hrecords := h.toRecords.endWrite hstep
  obtain ⟨hlen, rfl⟩ := step_endWrite hstep
  refine { hrecords with sync := ?_, len := ?_ }
  · intro j hj
    rw [length_snoc_payload]
    by_cases hj' : j = σ.writer.index
    · subst hj'
      rw [commitMem_syncWord h.curr, h.index, lastIn_succ_same, h.syncCount]
      omega
    · rw [(commitMem_words_ne h.curr hlen hj').1, h.sync j hj,
        lastIn_succ_ne hj (h.index ▸ hj')]
  · intro j hj
    by_cases hj' : j = σ.writer.index
    · subst hj'
      -- only the right side: the writer's index occurs on the left as well
      rw [commitMem_lenWord h.curr hlen]
      conv_rhs => rw [h.index, lastPayload_snoc_same, payload_length]
    · rw [(commitMem_words_ne h.curr hlen hj').2, h.len j hj,
        lastPayload_snoc_ne _ _ hj (h.index ▸ hj')]

theorem Records.step {e : Event} (h : Records σ) (hstep : step σ e = some σ') : Records σ' := by
  cases e with
  | startWrite len =>
      cases hstep
      refine { h with granted := ?_ }
      intro p hp
      exact (camioOstreamRingStartWrite_some hp).2
  | fill off bytes => exact h.fill hstep
  | assignWrite buffer len =>
      obtain ⟨b, -, rfl⟩ := step_assignWrite hstep
      exact { h with }
  | endWrite len => exact h.endWrite hstep
  | openReader | ready | startRead | endRead =>
      -- the reader touches neither the ring nor the writer
      obtain ⟨_, _, _, rfl⟩ := step_byReader rfl hstep
      exact { h with }

theorem WriterInv.step {e : Event} (h : WriterInv σ) (hstep : step σ e = some σ') :
    WriterInv σ' := by
  have hrecords := h.toRecords.step hstep
  cases e with
  | startWrite len =>
      cases hstep
      exact { hrecords with sync := h.sync, len := h.len }
  | fill off bytes => exact h.fill hstep
  | assignWrite buffer len =>
      obtain ⟨b, -, rfl⟩ := step_assignWrite hstep
      exact { hrecords with sync := h.sync, len := h.len }
  | endWrite len => exact h.endWrite hstep
  | openReader | ready | startRead | endRead =>
      obtain ⟨_, _, _, rfl⟩ := step_byReader rfl hstep
      exact { hrecords with sync := h.sync, len := h.len }

/-- The ring holds what was committed, in every reachable state. -/
theorem writerInv_of_run {es : List Event} (hrun : run step init es = some σ) : WriterInv σ :=
  run_invariant WriterInv (fun _ _ _ h hstep => WriterInv.step h hstep) writerInv_init hrun

/-! ## The reader -/

/-- The reader stands on message `syncCounter` or, having read everything, one
    behind the last; a waiting read is that of the message it stands on, which
    its slot has received. -/
structure Placed (σ : System) (r : IstreamRing) : Prop where
  isOpen : r.isClosed = false
  curr : r.curr = r.index * slotSize
  index : r.index = (r.syncCounter + 1023) % 1024
  sync_lt : r.syncCounter < 2 ^ 64
  sync_le : r.syncCounter ≤ σ.committed.length + 1
  sync_pos : σ.committed.length + 1 < 2 ^ 64 → 1 ≤ r.syncCounter
  waiting : r.readSize ≠ 0 → 1 ≤ r.syncCounter ∧
    r.syncCounter ≤ lastIn σ.committed.length r.index ∧
    r.readSize = (σ.message r.syncCounter).length

/-- The bytes handed out by `start_read`: as long as the slot has received no
    later message and is intact, they are the message's. -/
structure HandedOut (σ : System) (r : IstreamRing) (bytes : List UInt8) : Prop where
  waiting : r.readSize ≠ 0
  length : bytes.length = r.readSize
  stable : r.syncCounter = lastIn σ.committed.length r.index →
    ∀ k ≤ bytes.length, k ≤ σ.intact r.index → bytes.take k = (σ.message r.syncCounter).take k

structure ReaderInv (σ : System) : Prop where
  closed : σ.reader = none → σ.pending = none
  placed : ∀ r, σ.reader = some r → Placed σ r
  handedOut : ∀ r bytes, σ.reader = some r → σ.pending = some bytes → HandedOut σ r bytes

theorem Placed.index_lt {r : IstreamRing} (h : Placed σ r) : r.index < 1024 := by
  rw [h.index]
  omega

/-- The counter of the reader's slot is the number of the message it last received. -/
theorem Placed.syncWord_eq {r : IstreamRing} (h : Placed σ r) (hw : WriterInv σ)
    (hN : σ.committed.length < 2 ^ 64) :
    syncWord σ.mem r.curr = lastIn σ.committed.length r.index := by
  have hle := lastIn_le σ.committed.length r.index
  rw [h.curr, hw.sync r.index h.index_lt, Nat.mod_eq_of_lt (by omega)]

theorem Placed.lenWord_eq {r : IstreamRing} (h : Placed σ r) (hw : WriterInv σ) :
    lenWord σ.mem r.curr = (lastPayload σ.committed r.index).length := by
  rw [h.curr, hw.len r.index h.index_lt]

theorem message_of_extends (h : σ.committed <+: σ'.committed) {m : Nat} (h1 : 1 ≤ m)
    (hle : m ≤ σ.committed.length) : σ'.message m = σ.message m := by
  obtain ⟨rest, hrest⟩ := h
  rw [System.message, System.message, ← hrest, List.getD_append _ _ _ _ (by omega)]

theorem lastIn_mono_of_extends (h : σ.committed <+: σ'.committed) {j : Nat} (hj : j < 1024) :
    lastIn σ.committed.length j ≤ lastIn σ'.committed.length j :=
  monotone_nat_of_le_succ (f := fun n => lastIn n j) (fun n => lastIn_mono n j hj) h.length_le

/-- A step of the writer's leaves the reader where it is. -/
theorem Placed.mono {r : IstreamRing} (h : Placed σ r) (hle : σ.committed <+: σ'.committed) :
    Placed σ' r where
  isOpen := h.isOpen
  curr := h.curr
  index := h.index
  sync_lt := h.sync_lt
  sync_le := Nat.le_trans h.sync_le (Nat.succ_le_succ hle.length_le)
  sync_pos := fun hN => h.sync_pos (Nat.lt_of_le_of_lt (Nat.succ_le_succ hle.length_le) hN)
  waiting := by
    intro hread
    obtain ⟨h1, hlast, hsize⟩ := h.waiting hread
    have hN := lastIn_le σ.committed.length r.index
    refine ⟨h1, Nat.le_trans hlast (lastIn_mono_of_extends hle h.index_lt), ?_⟩
    rw [message_of_extends hle h1 (by omega)]
    exact hsize

theorem HandedOut.mono {r : IstreamRing} {bytes : List UInt8} (h : HandedOut σ r bytes)
    (hp : Placed σ r) (hle : σ.committed <+: σ'.committed)
    (hintact : r.syncCounter = lastIn σ'.committed.length r.index →
      σ'.intact r.index ≤ σ.intact r.index) : HandedOut σ' r bytes where
  waiting := h.waiting
  length := h.length
  stable := by
    intro hlast k hk hki
    obtain ⟨h1, hlast', -⟩ := hp.waiting h.waiting
    have hmono := lastIn_mono_of_extends hle hp.index_lt
    have hN := lastIn_le σ.committed.length r.index
    rw [message_of_extends hle h1 (by omega)]
    exact h.stable (by omega) k hk (Nat.le_trans hki (hintact hlast))

/-- The writer's steps preserve what was handed out: a store into the reader's slot lowers
    what is intact of it, and a commit to it makes its message a later one. -/
theorem HandedOut.byWriter {e : Event} {r : IstreamRing} {bytes : List UInt8}
    (h : HandedOut σ r bytes) (hp : Placed σ r) (hw : Records σ) (he : e.byReader = false)
    (hstep : step σ e = some σ') : HandedOut σ' r bytes := by
  refine h.mono hp (step_committed hstep) fun hlast => ?_
  obtain ⟨h1, hlast', -⟩ := hp.waiting h.waiting
  have hN := lastIn_le σ.committed.length r.index
  cases e with
  | startWrite len =>
      cases hstep
      exact Nat.le_refl _
  | fill off bytes =>
      obtain ⟨p, -, -, rfl⟩ := step_fill hstep
      simp only [System.intact]
      split <;> [split; skip] <;> omega
  | assignWrite buffer len =>
      obtain ⟨b, -, rfl⟩ := step_assignWrite hstep
      exact Nat.le_refl _
  | endWrite len =>
      obtain ⟨-, rfl⟩ := step_endWrite hstep
      have hne : r.index ≠ σ.writer.index := by
        rintro hidx
        rw [List.length_append, List.length_singleton, hidx, hw.index,
          lastIn_succ_same] at hlast
        omega
      simp only [System.intact, if_neg hne]
      split <;> exact Nat.le_refl _
  | openReader | ready | startRead | endRead => cases he

/-- The writer's steps preserve the reader's part. -/
theorem ReaderInv.byWriter {e : Event} (h : ReaderInv σ) (hw : Records σ)
    (he : e.byReader = false) (hstep : step σ e = some σ') : ReaderInv σ' := by
  obtain ⟨hreader, hpending, -⟩ := step_byWriter he hstep
  have hle := step_committed hstep
  refine ⟨fun hr => ?_, fun r hr => (h.placed r (hreader ▸ hr)).mono hle, ?_⟩
  · rw [hpending]
    exact h.closed (hreader ▸ hr)
  · intro r bytes hr hbytes
    have hp := h.placed r (hreader ▸ hr)
    have hh := h.handedOut r bytes (hreader ▸ hr) (hpending ▸ hbytes)
    exact hh.byWriter hp hw he hstep

/-- Taking the slot's payload puts the reader on the slot's message. -/
theorem Placed.takeSlot {r : IstreamRing} (h : Placed σ r) (hw : WriterInv σ)
    (hN : σ.committed.length < 2 ^ 64) (hle : r.syncCounter ≤ syncWord σ.mem r.curr) :
    Placed σ (takeSlot r σ.mem) := by
  have hlast := lastIn_le σ.committed.length r.index
  have hidx := h.index
  simp only [Ring.takeSlot, h.syncWord_eq hw hN, h.lenWord_eq hw] at hle ⊢
  constructor
  case isOpen => exact h.isOpen
  case curr => exact h.curr
  case index =>
    -- the messages of a slot have the slot's residue
    dsimp only
    by_cases h0 : lastIn σ.committed.length r.index = 0
    · omega
    · have := (lastIn_pos h0).2.1
      omega
  case sync_lt => exact Nat.lt_of_le_of_lt hlast hN
  case sync_le => exact Nat.le_succ_of_le hlast
  case sync_pos => exact fun hN' => Nat.le_trans (h.sync_pos hN') hle
  case waiting =>
    dsimp only
    intro hne
    have h0 : lastIn σ.committed.length r.index ≠ 0 := by
      intro h0
      rw [lastPayload, if_pos h0] at hne
      exact hne rfl
    exact ⟨Nat.one_le_iff_ne_zero.mpr h0, Nat.le_refl _, by rw [lastPayload_eq_message h0]⟩

/-- `prepare_next` keeps the reader in place. -/
theorem Placed.prepareNext {r : IstreamRing} (h : Placed σ r) (hw : WriterInv σ)
    (hN : σ.committed.length < 2 ^ 64) : Placed σ (prepareNext r σ.mem).2 := by
  obtain hsame | ⟨-, hle, htake⟩ := prepareNext_snd_cases r σ.mem
  · rw [hsame]
    exact h
  · rw [htake]
    exact h.takeSlot hw hN hle

/-- The slot's message is the one that is waiting, if the slot has received no later
    one. -/
theorem Placed.lastPayload_eq {r : IstreamRing} (h : Placed σ r) (hread : r.readSize ≠ 0)
    (hlast : r.syncCounter = lastIn σ.committed.length r.index) :
    lastPayload σ.committed r.index = σ.message r.syncCounter := by
  obtain ⟨h1, -, -⟩ := h.waiting hread
  rw [hlast]
  apply lastPayload_eq_message
  omega

/-- What `start_read` hands out is read from the slot the reader stands on. -/
theorem handedOut_read {r : IstreamRing} (h : Placed σ r) (hw : Records σ)
    (hread : r.readSize ≠ 0) : HandedOut σ r (σ.mem.read r.curr r.readSize) where
  waiting := hread
  length := Mem.read_length _ _ _
  stable := by
    intro hlast k hk hki
    obtain ⟨-, -, hsize⟩ := h.waiting hread
    have hpayload := h.lastPayload_eq hread hlast
    rw [Mem.read_length] at hk
    rw [Mem.read_take _ _ hk, h.curr, ← hpayload]
    exact hw.data r.index h.index_lt k (by rw [hpayload]; omega) hki

/-- The slot of the message that is being read holds its payload, as far as it is
    intact. -/
theorem Placed.read_eq {r : IstreamRing} (h : Placed σ r) (hw : Records σ)
    (hread : r.readSize ≠ 0) (hlast : r.syncCounter = lastIn σ.committed.length r.index)
    (hintact : r.readSize ≤ σ.intact r.index) :
    σ.mem.read r.curr r.readSize = σ.message r.syncCounter := by
  obtain ⟨-, -, hsize⟩ := h.waiting hread
  have hpayload := h.lastPayload_eq hread hlast
  rw [h.curr, hw.data r.index h.index_lt r.readSize (by rw [hpayload, hsize]) hintact, hpayload,
    hsize, List.take_length]

/-- What was handed out is the message, if the slot has been intact since. -/
theorem HandedOut.eq_message {r : IstreamRing} {bytes : List UInt8} (h : HandedOut σ r bytes)
    (hp : Placed σ r) (hlast : r.syncCounter = lastIn σ.committed.length r.index)
    (hintact : r.readSize ≤ σ.intact r.index) : bytes = σ.message r.syncCounter := by
  obtain ⟨-, -, hsize⟩ := hp.waiting h.waiting
  have hlen := h.length
  have htake := h.stable hlast bytes.length (Nat.le_refl _) (hlen ▸ hintact)
  rwa [List.take_length, hlen, hsize, List.take_length] at htake

/-- A waiting payload fits its slot. -/
theorem Placed.readSize_le {r : IstreamRing} (h : Placed σ r) (hw : Records σ)
    (hread : r.readSize ≠ 0) : r.readSize ≤ 4080 := by
  obtain ⟨h1, hlast, hsize⟩ := h.waiting hread
  have hle := lastIn_le σ.committed.length r.index
  rw [hsize, System.message, List.getD_eq_getElem _ _ (by omega)]
  exact hw.lens _ (List.getElem_mem _)

theorem Placed.lenWord_le {r : IstreamRing} (h : Placed σ r) (hw : WriterInv σ) :
    lenWord σ.mem r.curr ≤ 4080 := by
  rw [h.lenWord_eq hw]
  exact hw.lastPayload_length_le r.index

theorem placed_openedReader : Placed σ openedReader where
  isOpen := rfl
  curr := rfl
  index := rfl
  sync_lt := by decide
  sync_le := Nat.le_add_left 1 _
  sync_pos := fun _ => Nat.le_refl 1
  waiting := fun h => absurd rfl h

/-- While a payload is waiting, `prepare_next` is a no-op. -/
theorem prepareNext_waiting {r : IstreamRing} (m : Mem) (h : r.readSize ≠ 0) :
    (prepareNext r m).2 = r := by
  rw [prepareNext_eq, if_pos h]

/-- A successful `end_read` moves the reader one message on; a failed one puts it
    on the message that has overwritten the one it read. -/
theorem Placed.endRead {r : IstreamRing} (h : Placed σ r) (hw : WriterInv σ)
    (hN : σ.committed.length < 2 ^ 64) (hread : r.readSize ≠ 0) :
    Placed σ (camioIstreamRingEndRead r σ.mem).2 := by
  obtain ⟨h1, hlast, -⟩ := h.waiting hread
  have hle := lastIn_le σ.committed.length r.index
  have hidx := h.index
  rw [camioIstreamRingEndRead_eq, h.syncWord_eq hw hN]
  by_cases heq : lastIn σ.committed.length r.index = r.syncCounter
  · rw [if_pos heq]
    refine ⟨h.isOpen, rfl, ?_, ?_, ?_, ?_, fun hne => absurd rfl hne⟩ <;> dsimp only <;> omega
  · rw [if_neg heq]
    -- the later message has the slot's residue, so the index still fits the counter
    have hres := (lastIn_pos (n := σ.committed.length) (j := r.index) (by omega)).2.1
    refine ⟨h.isOpen, h.curr, ?_, ?_, ?_, ?_, fun hne => absurd rfl hne⟩ <;> dsimp only <;> omega

/-- What the calls of a reader find in the ring: each of them leaves it in its place, and
    what `start_read` hands out is the waiting payload. -/
structure Finds (σ : System) (r : IstreamRing) : Prop where
  prepared : Placed σ (Ring.prepareNext r σ.mem).2
  handed : ∀ {out size}, (camioIstreamRingStartRead r σ.mem).1 = .data out size →
    out = (Ring.prepareNext r σ.mem).2.curr ∧ size = (Ring.prepareNext r σ.mem).2.readSize ∧
      (Ring.prepareNext r σ.mem).2.readSize ≠ 0
  ended : r.readSize ≠ 0 → Placed σ (camioIstreamRingEndRead r σ.mem).2

theorem Placed.finds {r : IstreamRing} (h : Placed σ r) (hw : WriterInv σ)
    (hN : σ.committed.length < 2 ^ 64) : Finds σ r where
  prepared := h.prepareNext hw hN
  handed := by
    intro out size hdata
    rw [← camioIstreamRingStartRead_snd σ.mem h.isOpen]
    exact camioIstreamRingStartRead_fst (h.lenWord_le hw) hdata
  ended := h.endRead hw hN

/-- A turn of `prepare_next` that hands nothing out: a payload that was handed out before
    is waiting, and the turn does nothing. -/
theorem ReaderInv.prepareNext {r : IstreamRing} (h : ReaderInv σ) (hr : σ.reader = some r)
    (hf : Finds σ r) :
    ReaderInv { σ with reader := some (Ring.prepareNext r σ.mem).2 } := by
  refine ⟨nofun, ?_, ?_⟩
  · rintro r' ⟨⟩
    exact hf.prepared.mono List.prefix_rfl
  · rintro r' bytes ⟨⟩ hbytes
    have hh := h.handedOut r bytes hr hbytes
    rw [prepareNext_waiting _ hh.waiting]
    exact hh.mono (h.placed r hr) List.prefix_rfl fun _ => Nat.le_refl _

/-- The reader's steps preserve the reader's part. -/
theorem ReaderInv.byReader {e : Event} (h : ReaderInv σ) (hw : Records σ)
    (hf : ∀ r, σ.reader = some r → Finds σ r) (he : e.byReader = true)
    (hstep : step σ e = some σ') : ReaderInv σ' := by
  cases e with
  | startWrite _ | fill _ _ | assignWrite _ _ | endWrite _ => cases he
  | openReader =>
      obtain ⟨hnone, rfl⟩ := step_openReader hstep
      have hpending := h.closed hnone
      refine ⟨fun hr => ?_, ?_, ?_⟩
      · cases hr
      · rintro r ⟨⟩
        exact placed_openedReader
      · intro r bytes _ hbytes
        rw [show _ = none from hpending] at hbytes
        cases hbytes
  | ready =>
      obtain ⟨r, hr, rfl⟩ := step_ready hstep
      rw [camioIstreamRingReady_snd σ.mem (h.placed r hr).isOpen]
      exact h.prepareNext hr (hf r hr)
  | startRead =>
      obtain ⟨r, hr, ⟨out, size, hdata, rfl⟩ | ⟨hnodata, rfl⟩⟩ := step_startRead hstep
      · -- the bytes handed out are those of the slot, as they are now
        have hp' := (hf r hr).prepared
        obtain ⟨rfl, rfl, hsize⟩ := (hf r hr).handed hdata
        rw [camioIstreamRingStartRead_snd σ.mem (h.placed r hr).isOpen] at *
        refine ⟨fun hr' => ?_, ?_, ?_⟩
        · cases hr'
        · rintro r' ⟨⟩
          exact hp'.mono List.prefix_rfl
        · rintro r' bytes ⟨⟩ ⟨⟩
          exact (handedOut_read hp' hw hsize).mono hp' List.prefix_rfl fun _ => Nat.le_refl _
      · -- the call is spinning, so there was no payload waiting
        rw [camioIstreamRingStartRead_snd σ.mem (h.placed r hr).isOpen]
        exact h.prepareNext hr (hf r hr)
  | endRead =>
      obtain ⟨r, bytes, hr, hbytes, rfl⟩ := step_endRead hstep
      have hh := h.handedOut r bytes hr hbytes
      refine ⟨fun hr' => ?_, ?_, ?_⟩
      · cases hr'
      · intro r' hr'
        obtain rfl := Option.some.inj hr'
        exact ((hf r hr).ended hh.waiting).mono List.prefix_rfl
      · rintro r' bytes' _ hbytes'
        cases hbytes'

theorem readerInv_init : ReaderInv init :=
  ⟨fun _ => rfl, nofun, nofun⟩

theorem ReaderInv.step {e : Event} (h : ReaderInv σ) (hw : Records σ)
    (hf : ∀ r, σ.reader = some r → Finds σ r) (hstep : step σ e = some σ') : ReaderInv σ' := by
  cases he : e.byReader with
  | true => exact h.byReader hw hf he hstep
  | false => exact h.byWriter hw he hstep

theorem ReaderInv.finds {r : IstreamRing} (h : ReaderInv σ) (hw : WriterInv σ)
    (hN : σ.committed.length < 2 ^ 64) (hr : σ.reader = some r) : Finds σ r :=
  (h.placed r hr).finds hw hN

/-- The reader is where `ReaderInv` says in every state that a run reaches, as long
    as the counter has not wrapped. -/
theorem readerInv_of_run {es : List Event} (hrun : run step init es = some σ)
    (hN : σ.committed.length < 2 ^ 64) : ReaderInv σ := by
  refine (run_invariant
    (fun σ => WriterInv σ ∧ (σ.committed.length < 2 ^ 64 → ReaderInv σ))
    ?_ ⟨writerInv_init, fun _ => readerInv_init⟩ hrun).2 hN
  rintro σ e σ' ⟨hw, hr⟩ hstep
  refine ⟨hw.step hstep, fun hN' => ?_⟩
  have hN : σ.committed.length < 2 ^ 64 :=
    Nat.lt_of_le_of_lt (step_committed hstep).length_le hN'
  exact (hr hN).step hw.toRecords (fun _ => (hr hN).finds hw hN) hstep

/-- What the steps keep that meet `P`, with writer and reader in their place and no
    counter wrapped, holds at the end of every run whose steps meet `P`. -/
theorem inv_of_run (Inv : System → Prop) {P : System → Event → Prop} {es : List Event}
    (hinit : Inv init)
    (hstep : ∀ {σ e σ'}, WriterInv σ → ReaderInv σ → σ.committed.length + 1 < 2 ^ 64 → Inv σ →
      P σ e → step σ e = some σ' → Inv σ')
    (hP : Along step P init es) (hrun : run step init es = some σ)
    (hN : σ.committed.length + 1 < 2 ^ 64) : Inv σ := by
  refine ((run_invariant_along
    (fun σ => WriterInv σ ∧ (σ.committed.length + 1 < 2 ^ 64 → ReaderInv σ ∧ Inv σ))
    ?_ ⟨writerInv_init, fun _ => ⟨readerInv_init, hinit⟩⟩ hP hrun).2 hN).2
  rintro σ e σ' ⟨hw, h⟩ hP hs
  refine ⟨hw.step hs, fun hN' => ?_⟩
  -- a run never takes a commit back, so the bound held before the step
  have hN : σ.committed.length + 1 < 2 ^ 64 := by
    have hle := (step_committed hs).length_le
    omega
  obtain ⟨hr, hinv⟩ := h hN
  have hf := fun r => hr.finds (r := r) hw (by omega)
  exact ⟨hr.step hw.toRecords hf hs, hstep hw hr hN hinv hP hs⟩

end Camio.Ring
