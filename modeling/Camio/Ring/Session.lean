/-
  Camio.Ring.Session

  A session on a ring file that an earlier writer left behind.  Writer and reader both
  start over, but the slots still carry the counters of the earlier session, and the
  reader takes a slot whose counter is up to the one it expects or beyond.

  `Mirrors` sets the session beside one on a fresh ring.  As long as the reader finds
  nothing in a slot that its own writer has not reached, the two cannot be told apart;
  that is so in every run exactly if the file is `Quiet`.
-/

import Camio.Ring.Overrun
import Camio.Ring.Reopen
import Camio.Ring.StableRead

namespace Camio.Ring

open Camio.Lib

variable {file : Mem} {σ τ σ' : System} {r : IstreamRing}

/-! ## What a left-over slot holds -/

/-- The two words of a slot. -/
def slotWords (m : Mem) (j : Nat) : Nat × Nat :=
  (syncWord m (j * slotSize), lenWord m (j * slotSize))

/-- A reader that waits for message `j + 1` finds nothing in slot `j`: the counter is an
    earlier one, or that of an empty payload. -/
def QuietSlot (file : Mem) (j : Nat) : Prop :=
  syncWord file (j * slotSize) ≤ j + 1 ∧
    (syncWord file (j * slotSize) = j + 1 → lenWord file (j * slotSize) = 0)

/-- No slot has anything for a reader that starts over. -/
def Quiet (file : Mem) : Prop := ∀ j < 1024, QuietSlot file j

theorem quiet_zeroRing : Quiet zeroRing := by
  intro j _
  exact ⟨by simp, fun _ => lenWord_zeroRing _⟩

/-! ## The session by itself -/

/-- The read is of a message that the writer of this session committed: its counter, and
    its bytes. -/
def OwnMessage (σ : System) (counter : Nat) (bytes : List UInt8) : Prop :=
  ∃ m, 1 ≤ m ∧ m ≤ σ.committed.length ∧ counter = m % 2 ^ 64 ∧ bytes = σ.message m

/-- An `end_read` that returns 0 accepts a message of this session: the bytes that were
    handed out are its bytes, and the slot still holds them. -/
def AcceptsOwn (σ : System) : Prop :=
  ∀ r bytes, σ.reader = some r → σ.pending = some bytes →
    (camioIstreamRingEndRead r σ.mem).1 = 0 →
      OwnMessage σ r.syncCounter bytes ∧ σ.mem.read r.curr r.readSize = bytes

/-- The reader sees only its own session: where an `end_read` may be called, it accepts
    nothing but messages that the new writer committed, and whatever the same calls have a
    reader of a fresh ring accept this one accepts too. -/
def OwnSession (MayEnd : System → Prop) (file : Mem) : Prop :=
  (∀ es σ, run step (opened file) es = some σ → MayEnd σ → AcceptsOwn σ) ∧
  ∀ es σ, run step init es = some σ → ∃ σ', run step (opened file) es = some σ' ∧
    ∀ m ∈ σ.accepted.map Prod.fst, m ∈ σ'.accepted.map Prod.fst

/-- No counter has wrapped, and the slot that is being read is not being filled again:
    what `end_read` leaves to its caller on any ring. -/
def SlotKept (σ : System) : Prop :=
  σ.committed.length < 2 ^ 64 ∧ ∀ r, σ.reader = some r → Unfilled σ r

/-! ## The reader on a fresh ring

The reader's place for any number of messages: `Placed` compares counters as numbers and
so stops where they wrap. -/

/-- A reader in front of the writer waits for the first message of its slot; a waiting read
    is of a committed message. -/
structure Stands (σ : System) (r : IstreamRing) : Prop where
  isOpen : r.isClosed = false
  curr : r.curr = r.index * slotSize
  index_lt : r.index < 1024
  unwritten : σ.committed.length ≤ r.index → r.syncCounter = r.index + 1 ∧ r.readSize = 0
  waiting : r.readSize ≠ 0 → ∃ m, 1 ≤ m ∧ m ≤ σ.committed.length ∧
    r.syncCounter = m % 2 ^ 64 ∧ r.readSize = (σ.message m).length

structure FreshInv (σ : System) : Prop where
  writer : WriterInv σ
  stands : ∀ r, σ.reader = some r → Stands σ r
  pending : ∀ bytes, σ.pending = some bytes →
    ∃ r, σ.reader = some r ∧ r.readSize ≠ 0 ∧ bytes.length = r.readSize

theorem freshInv_init : FreshInv init where
  writer := writerInv_init
  stands := nofun
  pending := nofun

theorem Stands.mono (h : Stands σ r) (hle : σ.committed <+: σ'.committed) : Stands σ' r := by
  -- the writer only ever adds messages, so those that were there keep their numbers
  refine { h with unwritten := ?_, waiting := ?_ }
  · exact fun hN => h.unwritten (Nat.le_trans hle.length_le hN)
  · intro hread
    obtain ⟨m, h1, hm, hsync, hlen⟩ := h.waiting hread
    refine ⟨m, h1, Nat.le_trans hm hle.length_le, hsync, ?_⟩
    rw [message_of_extends hle h1 hm]
    exact hlen

/-- A waiting read is of a slot that the writer has reached. -/
theorem Stands.index_lt_of_waiting (h : Stands σ r) (hread : r.readSize ≠ 0) :
    r.index < σ.committed.length := by
  by_contra hN
  exact hread (h.unwritten (Nat.le_of_not_lt hN)).2

/-- The slots that the writer has reached have had a message. -/
theorem lastIn_ne_zero {n j : Nat} (hj : j < 1024) (h : j < n) : lastIn n j ≠ 0 := by
  have hle := le_lastIn (n := n) (m := j + 1) (by omega) h
  rw [show (j + 1 - 1) % 1024 = j by omega] at hle
  omega

/-- The counter word of a slot that the writer has not reached is still 0. -/
theorem WriterInv.syncWord_unwritten (h : WriterInv σ) {j : Nat} (hj : j < 1024)
    (hN : σ.committed.length ≤ j) : syncWord σ.mem (j * slotSize) = 0 := by
  rw [h.sync j hj, lastIn, if_pos (by omega), Nat.zero_mod]

theorem Stands.prepareNext (h : Stands σ r) (hw : WriterInv σ) :
    Stands σ (prepareNext r σ.mem).2 := by
  obtain hsame | ⟨-, hle, htake⟩ := prepareNext_snd_cases r σ.mem
  · rw [hsame]
    exact h
  · rw [htake]
    rw [h.curr] at hle
    -- the counter of a slot in front of the writer is below the one the reader expects
    have hN : r.index < σ.committed.length := by
      by_contra hN
      rw [hw.syncWord_unwritten h.index_lt (by omega), (h.unwritten (by omega)).1] at hle
      omega
    have h0 := lastIn_ne_zero h.index_lt hN
    have hsync := hw.sync r.index h.index_lt
    have hlen := hw.len r.index h.index_lt
    rw [lastPayload_eq_message h0] at hlen
    rw [← h.curr] at hsync hlen
    rw [takeSlot, hsync, hlen]
    constructor
    case isOpen => exact h.isOpen
    case curr => exact h.curr
    case index_lt => exact h.index_lt
    case unwritten => exact fun hN' => absurd hN (Nat.not_lt_of_le hN')
    case waiting =>
      intro _
      refine ⟨lastIn σ.committed.length r.index, ?_, lastIn_le _ _, rfl, rfl⟩
      exact Nat.one_le_iff_ne_zero.mpr h0

/-- After a read the reader is in front of the writer only if it has just read the
    writer's last message. -/
theorem Stands.endRead (h : Stands σ r) (hw : WriterInv σ) (hread : r.readSize ≠ 0) :
    Stands σ (camioIstreamRingEndRead r σ.mem).2 := by
  have hN := h.index_lt_of_waiting hread
  have hidx := h.index_lt
  rw [camioIstreamRingEndRead_eq, h.curr, hw.sync r.index h.index_lt]
  -- the counter is all that `end_read` compares
  by_cases heq : lastIn σ.committed.length r.index % 2 ^ 64 = r.syncCounter
  · rw [if_pos heq]
    refine ⟨h.isOpen, rfl, Nat.mod_lt _ (by decide), ?_, fun hne => absurd rfl hne⟩
    dsimp only
    intro hnext
    have hlast : lastIn σ.committed.length r.index = r.index + 1 := by
      rw [lastIn, if_neg (by omega)]
      omega
    rw [hlast] at heq
    exact ⟨by omega, rfl⟩
  · rw [if_neg heq]
    exact ⟨h.isOpen, rfl, h.index_lt, fun hN' => absurd hN (Nat.not_lt_of_le hN'),
      fun hne => absurd rfl hne⟩

theorem Stands.lenWord_le (h : Stands σ r) (hw : WriterInv σ) : lenWord σ.mem r.curr ≤ 4080 := by
  rw [h.curr, hw.len r.index h.index_lt]
  exact hw.lastPayload_length_le r.index

theorem FreshInv.byWriter {e : Event} (h : FreshInv σ) (he : e.byReader = false)
    (hstep : step σ e = some σ') : FreshInv σ' := by
  obtain ⟨hreader, hpending, -⟩ := step_byWriter he hstep
  have hle := step_committed hstep
  constructor
  case writer => exact h.writer.step hstep
  case stands =>
    rw [hreader]
    exact fun r hr => (h.stands r hr).mono hle
  case pending =>
    rw [hreader, hpending]
    exact h.pending

/-- A turn of `prepare_next`, with what it leaves handed out. -/
theorem FreshInv.prepareNext (h : FreshInv σ) (hr : σ.reader = some r)
    {pending : Option (List UInt8)}
    (hpending : ∀ bytes, pending = some bytes → (prepareNext r σ.mem).2.readSize ≠ 0 ∧
      bytes.length = (prepareNext r σ.mem).2.readSize) :
    FreshInv { σ with reader := some (prepareNext r σ.mem).2, pending := pending } where
  writer := { h.writer with }
  pending := fun bytes hbytes => ⟨_, rfl, hpending bytes hbytes⟩
  stands := by
    rintro r' ⟨⟩
    exact ((h.stands r hr).prepareNext h.writer).mono List.prefix_rfl

/-- What was handed out before is still waiting after it. -/
theorem FreshInv.pending_prepareNext (h : FreshInv σ) (hr : σ.reader = some r)
    {bytes : List UInt8} (hbytes : σ.pending = some bytes) :
    (Ring.prepareNext r σ.mem).2.readSize ≠ 0 ∧
      bytes.length = (Ring.prepareNext r σ.mem).2.readSize := by
  obtain ⟨r', hr', hread, hlen⟩ := h.pending bytes hbytes
  obtain rfl := Option.some.inj (hr.symm.trans hr')
  rw [prepareNext_waiting _ hread]
  exact ⟨hread, hlen⟩

theorem FreshInv.byReader {e : Event} (h : FreshInv σ) (he : e.byReader = true)
    (hstep : step σ e = some σ') : FreshInv σ' := by
  cases e with
  | startWrite _ | fill _ _ | assignWrite _ _ | endWrite _ => cases he
  | openReader =>
      obtain ⟨hnone, rfl⟩ := step_openReader hstep
      constructor
      case writer => exact { h.writer with }
      case stands =>
        rintro r ⟨⟩
        exact ⟨rfl, rfl, Nat.succ_pos 1023, fun _ => ⟨rfl, rfl⟩, fun hread => absurd rfl hread⟩
      case pending =>
        intro bytes hbytes
        obtain ⟨r, hr, -⟩ := h.pending bytes hbytes
        rw [hnone] at hr
        cases hr
  | ready =>
      obtain ⟨r, hr, rfl⟩ := step_ready hstep
      rw [camioIstreamRingReady_snd σ.mem (h.stands r hr).isOpen]
      exact h.prepareNext hr fun bytes => h.pending_prepareNext hr
  | startRead =>
      obtain ⟨r, hr, ⟨out, size, hdata, rfl⟩ | ⟨-, rfl⟩⟩ := step_startRead hstep
      · -- what is handed out is as long as the message that waits there
        have hs := h.stands r hr
        obtain ⟨rfl, rfl, hsize⟩ := camioIstreamRingStartRead_fst (hs.lenWord_le h.writer) hdata
        rw [camioIstreamRingStartRead_snd σ.mem hs.isOpen] at *
        refine h.prepareNext hr fun bytes hbytes => ⟨hsize, ?_⟩
        rw [← Option.some.inj hbytes, Mem.read_length]
      · rw [camioIstreamRingStartRead_snd σ.mem (h.stands r hr).isOpen]
        exact h.prepareNext hr fun bytes => h.pending_prepareNext hr
  | endRead =>
      obtain ⟨r, bytes, hr, hbytes, rfl⟩ := step_endRead hstep
      have hs := h.stands r hr
      obtain ⟨r', hr', hread, -⟩ := h.pending bytes hbytes
      obtain rfl := Option.some.inj (hr.symm.trans hr')
      constructor
      case writer => exact { h.writer with }
      case pending => exact nofun
      case stands =>
        intro r' hr'
        obtain rfl := Option.some.inj hr'
        exact (hs.endRead h.writer hread).mono List.prefix_rfl

theorem FreshInv.step {e : Event} (h : FreshInv σ) (hstep : step σ e = some σ') :
    FreshInv σ' := by
  cases he : e.byReader with
  | true => exact h.byReader he hstep
  | false => exact h.byWriter he hstep

end Camio.Ring
