/-
  Camio.Ring.Fifo

  The ring as a queue.  As long as the writer starts on message `n` only once the
  reader has finished message `n - 1024`, nothing is lost: the reader never catches
  up, every `end_read` returns 0, and what it accepts are the committed payloads
  in their order.
-/

import Camio.Ring.Overrun

namespace Camio.Ring

open Camio.Lib

variable {σ σ' : System} {r : IstreamRing}

/-! ## Flow control -/

/-- The reader has finished message `m`. -/
def Finished (σ : System) (m : Nat) : Prop := m ∈ σ.accepted.map Prod.fst

/-- The slot of the next message is free: it has had no message yet, or the reader
    has finished the one it holds. -/
def Room (σ : System) : Prop :=
  σ.committed.length + 1 ≤ 1024 ∨ Finished σ (σ.committed.length + 1 - 1024)

/-- The writer stores into its slot and commits only when there is room, and it
    commits no empty message. -/
def FlowControlled (σ : System) : Event → Prop
  | .fill _ bytes => bytes ≠ [] → Room σ
  | .endWrite len => len ≠ 0 ∧ Room σ
  | _ => True

/-! ## The queue -/

/-- The reader stands on the first message it has not accepted, and the writer is at
    most a lap ahead of it. -/
structure FifoInv (σ : System) : Prop where
  closed : σ.reader = none → σ.accepted = []
  numbers : σ.accepted.map Prod.fst = List.range' 1 σ.accepted.length
  payloads : σ.accepted.map Prod.snd <+: σ.committed
  room : σ.committed.length ≤ σ.accepted.length + 1024
  unfilled : σ.committed.length = σ.accepted.length + 1024 → σ.untouched = slotSize
  next : ∀ r, σ.reader = some r → r.syncCounter = σ.accepted.length + 1

theorem fifoInv_init : FifoInv init where
  closed := fun _ => rfl
  numbers := rfl
  payloads := List.nil_prefix
  room := by decide
  unfilled := fun _ => rfl
  next := nofun

/-- With room, the writer is not yet a full lap ahead. -/
theorem FifoInv.lt_of_room (h : FifoInv σ) (hroom : Room σ) :
    σ.committed.length < σ.accepted.length + 1024 := by
  rcases hroom with hfresh | hfinished
  · omega
  · rw [Finished, h.numbers, List.mem_range'_1] at hfinished
    omega

theorem FifoInv.byWriter {e : Event} (h : FifoInv σ) (hP : FlowControlled σ e)
    (he : e.byReader = false) (hstep : step σ e = some σ') : FifoInv σ' := by
  obtain ⟨hreader, -, haccepted⟩ := step_byWriter he hstep
  have hprefix := step_committed hstep
  constructor
  case closed => rw [hreader, haccepted]; exact h.closed
  case numbers => rw [haccepted]; exact h.numbers
  case payloads => rw [haccepted]; exact h.payloads.trans hprefix
  case next => rw [hreader, haccepted]; exact h.next
  case room =>
    rw [haccepted]
    by_cases hcommit : ∃ len, e = .endWrite len
    · -- a commit uses the room there was
      obtain ⟨len, rfl⟩ := hcommit
      have hlt := h.lt_of_room hP.2
      obtain ⟨-, rfl⟩ := step_endWrite hstep
      rw [List.length_append, List.length_singleton]
      exact hlt
    · rw [step_committed_eq (fun len hlen => hcommit ⟨len, hlen⟩) hstep]
      exact h.room
  case unfilled =>
    cases e with
    | startWrite len =>
        cases hstep
        exact h.unfilled
    | fill off bytes =>
        obtain ⟨p, -, -, rfl⟩ := step_fill hstep
        dsimp only
        intro hfull
        by_cases hempty : bytes = []
        · rw [if_pos hempty]
          exact h.unfilled hfull
        · -- a full ring leaves no room to fill
          have := h.lt_of_room (hP hempty)
          omega
    | assignWrite buffer len =>
        obtain ⟨b, -, rfl⟩ := step_assignWrite hstep
        exact h.unfilled
    | endWrite len =>
        obtain ⟨-, rfl⟩ := step_endWrite hstep
        exact fun _ => rfl
    | openReader | ready | startRead | endRead => cases he

/-- A slot that has the reader's message has no later one. -/
theorem FifoInv.lastIn_eq (h : FifoInv σ) (hp : Placed σ r) (hr : σ.reader = some r)
    (hle : r.syncCounter ≤ lastIn σ.committed.length r.index) :
    lastIn σ.committed.length r.index = r.syncCounter := by
  have hnext := h.next r hr
  have hroom := h.room
  have hN := lastIn_le σ.committed.length r.index
  have hidx : r.index = (r.syncCounter - 1) % 1024 := by
    rw [hp.index]
    omega
  rw [hidx]
  exact Ring.lastIn_eq (by omega) (by omega) (by omega)

/-- The writer is not filling the slot of a message that is being read. -/
theorem FifoInv.intact (h : FifoInv σ) (hw : WriterInv σ) (hp : Placed σ r)
    (hr : σ.reader = some r) (hle : r.syncCounter ≤ σ.committed.length) :
    σ.intact r.index = slotSize := by
  have hnext := h.next r hr
  have hroom := h.room
  have hidx := hp.index
  have hwidx := hw.index
  rw [System.intact]
  split
  next heq => exact h.unfilled (by omega)
  next => rfl

/-- What `start_read` handed out is the message the reader stands on, and still what
    the slot holds. -/
theorem FifoInv.handedOut_eq {bytes : List UInt8} (h : FifoInv σ) (hw : WriterInv σ)
    (hri : ReaderInv σ) (hr : σ.reader = some r) (hbytes : σ.pending = some bytes) :
    r.syncCounter = lastIn σ.committed.length r.index ∧ bytes = σ.message r.syncCounter ∧
      σ.mem.read r.curr r.readSize = bytes := by
  have hp := hri.placed r hr
  have hh := hri.handedOut r bytes hr hbytes
  have hlast := (h.lastIn_eq hp hr (hp.waiting hh.waiting).2.1).symm
  have hle := lastIn_le σ.committed.length r.index
  have h4080 := hp.readSize_le hw.toRecords hh.waiting
  have hintact : r.readSize ≤ σ.intact r.index := by
    rw [h.intact hw hp hr (by omega), slotSize]
    omega
  have hmessage := hh.eq_message hp hlast hintact
  exact ⟨hlast, hmessage, (hp.read_eq hw.toRecords hh.waiting hlast hintact).trans hmessage.symm⟩

/-- Short of an `end_read`, the reader stays on its message: there is nothing to
    catch up with. -/
theorem FifoInv.prepareNext_sync (h : FifoInv σ) (hw : WriterInv σ) (hp : Placed σ r)
    (hN : σ.committed.length < 2 ^ 64) (hr : σ.reader = some r) :
    (prepareNext r σ.mem).2.syncCounter = r.syncCounter := by
  rw [prepareNext_eq]
  by_cases hread : r.readSize ≠ 0
  · rw [if_pos hread]
  · rw [if_neg hread]
    by_cases hle : r.syncCounter ≤ syncWord σ.mem r.curr
    · rw [if_pos hle]
      rw [hp.syncWord_eq hw hN] at hle
      dsimp only [takeSlot]
      rw [hp.syncWord_eq hw hN, h.lastIn_eq hp hr hle]
    · rw [if_neg hle]

/-- A reader that stays on its message without an `end_read` keeps the queue. -/
theorem FifoInv.forward {r' : IstreamRing} (h : FifoInv σ) (hr : σ.reader = some r)
    (hsync : r'.syncCounter = r.syncCounter) (pending : Option (List UInt8)) :
    FifoInv { σ with reader := some r', pending := pending } := by
  refine { h with closed := nofun, next := ?_ }
  rintro _ ⟨⟩
  exact hsync.trans (h.next r hr)

/-- Every `end_read` succeeds and accepts the next message. -/
theorem FifoInv.endRead (h : FifoInv σ) (hw : WriterInv σ) (hri : ReaderInv σ)
    (hN : σ.committed.length + 1 < 2 ^ 64) (hstep : step σ .endRead = some σ') :
    FifoInv σ' := by
  obtain ⟨r, bytes, hr, hbytes, rfl⟩ := step_endRead hstep
  have hp := hri.placed r hr
  obtain ⟨hlast, rfl, -⟩ := h.handedOut_eq hw hri hr hbytes
  have hnext := h.next r hr
  have hle := lastIn_le σ.committed.length r.index
  have hroom := h.room
  rw [camioIstreamRingEndRead_eq, hp.syncWord_eq hw (by omega), if_pos hlast.symm]
  simp only [if_true]
  constructor
  case closed => exact nofun
  case numbers =>
    -- the reader stood on the number behind those accepted
    rw [List.map_append, h.numbers, List.length_append, List.length_singleton,
      List.range'_1_concat, hnext, Nat.add_comm 1]
    rfl
  case payloads =>
    -- the accepted payloads were the first ones, and this is the next
    obtain ⟨rest, hrest⟩ := h.payloads
    have hlen : (σ.accepted.map Prod.snd).length = σ.accepted.length := List.length_map _
    have hget : σ.message r.syncCounter = rest.getD 0 [] := by
      rw [System.message, ← hrest, hnext, Nat.add_sub_cancel,
        List.getD_append_right _ _ _ _ (by omega), hlen, Nat.sub_self]
    cases rest with
    | nil =>
        -- the message being read has been committed, so not all were accepted
        have := congrArg List.length hrest
        rw [List.append_nil] at this
        omega
    | cons p rest =>
        refine ⟨rest, ?_⟩
        rw [List.map_append, hget, ← hrest]
        simp
  case room =>
    rw [List.length_append, List.length_singleton]
    show σ.committed.length ≤ _
    omega
  case unfilled =>
    rw [List.length_append, List.length_singleton]
    show σ.committed.length = _ → σ.untouched = slotSize
    omega
  case next =>
    intro r' hr'
    obtain rfl := Option.some.inj hr'
    rw [List.length_append, List.length_singleton]
    show (r.syncCounter + 1) % 2 ^ 64 = _
    omega

theorem FifoInv.step {e : Event} (h : FifoInv σ) (hw : WriterInv σ) (hri : ReaderInv σ)
    (hN : σ.committed.length + 1 < 2 ^ 64) (hP : FlowControlled σ e)
    (hstep : step σ e = some σ') : FifoInv σ' := by
  cases e with
  | startWrite _ | fill _ _ | assignWrite _ _ | endWrite _ => exact h.byWriter hP rfl hstep
  | openReader =>
      -- a reader starts at message 1, with nothing accepted before
      obtain ⟨hnone, rfl⟩ := step_openReader hstep
      have haccepted := h.closed hnone
      refine { h with closed := nofun, next := ?_ }
      intro r hr
      obtain rfl := Option.some.inj hr
      show 1 = σ.accepted.length + 1
      rw [haccepted]
      rfl
  | ready =>
      obtain ⟨r, hr, rfl⟩ := step_ready hstep
      have hp := hri.placed r hr
      rw [camioIstreamRingReady_snd σ.mem hp.isOpen]
      exact h.forward hr (h.prepareNext_sync hw hp (by omega) hr) σ.pending
  | startRead =>
      obtain ⟨r, hr, ⟨out, size, -, rfl⟩ | ⟨-, rfl⟩⟩ := step_startRead hstep
      all_goals
        have hp := hri.placed r hr
        rw [camioIstreamRingStartRead_snd σ.mem hp.isOpen]
        exact h.forward hr (h.prepareNext_sync hw hp (by omega) hr) _
  | endRead => exact h.endRead hw hri hN hstep

theorem fifoInv_of_run {es : List Event} (hP : Along step FlowControlled init es)
    (hrun : run step init es = some σ) (hN : σ.committed.length + 1 < 2 ^ 64) : FifoInv σ := by
  apply inv_of_run FifoInv fifoInv_init ?_ hP hrun hN
  intro σ e σ' hw hri hN h hP hstep
  exact h.step hw hri hN hP hstep

/-- Nothing is lost: the accepted messages are the first ones, in order; a read in
    progress is that of the next one, will succeed and still sees its payload; and
    the reader's slot is never ahead of it. -/
def Lossless (σ : System) : Prop :=
  σ.accepted.map Prod.fst = List.range' 1 σ.accepted.length ∧
  σ.accepted.map Prod.snd <+: σ.committed ∧
  (∀ r bytes, σ.reader = some r → σ.pending = some bytes →
    (camioIstreamRingEndRead r σ.mem).1 = 0 ∧ bytes = σ.message (σ.accepted.length + 1) ∧
    σ.mem.read r.curr r.readSize = bytes) ∧
  ∀ r, σ.reader = some r → r.readSize = 0 → syncWord σ.mem r.curr ≤ r.syncCounter

/-- Below capacity the ring is a queue. -/
theorem lossless_of_flowControlled {es : List Event} (hP : Along step FlowControlled init es)
    (hrun : run step init es = some σ) (hN : σ.committed.length + 1 < 2 ^ 64) : Lossless σ := by
  have hf := fifoInv_of_run hP hrun hN
  have hw := writerInv_of_run hrun
  have hri := readerInv_of_run hrun (by omega)
  refine ⟨hf.numbers, hf.payloads, ?_, ?_⟩
  -- a read in progress
  · intro r bytes hr hbytes
    obtain ⟨hlast, hmessage, hread⟩ := hf.handedOut_eq hw hri hr hbytes
    refine ⟨?_, hf.next r hr ▸ hmessage, hread⟩
    rw [camioIstreamRingEndRead_eq_zero_iff, (hri.placed r hr).syncWord_eq hw (by omega), hlast]
  -- no overflow: the slot holds the message the reader waits for, or an earlier one
  · intro r hr _
    have hp := hri.placed r hr
    rw [hp.syncWord_eq hw (by omega)]
    by_cases hle : r.syncCounter ≤ lastIn σ.committed.length r.index
    · exact (hf.lastIn_eq hp hr hle).le
    · exact Nat.le_of_not_le hle

/-- With everything read there is room. -/
theorem AllRead.room {n : Nat} (h : AllRead n σ) : Room σ := by
  have hlen : σ.committed.length = n := by rw [h.committed, List.length_replicate]
  rw [Room, Finished, h.accepted, List.mem_range'_1, hlen]
  omega

theorem AllRead.along_round {n : Nat} (h : AllRead n σ) :
    Along step FlowControlled σ round := by
  have hroom := h.room
  refine ⟨trivial, fun σ₁ hstart => ⟨fun _ => ?_, fun σ₂ hfill => ⟨⟨by decide, ?_⟩, fun σ₃ _ =>
    ⟨trivial, fun σ₄ _ => ⟨trivial, fun σ₅ _ => trivial⟩⟩⟩⟩⟩
  · cases hstart
    exact hroom
  · cases hstart
    obtain ⟨p, -, -, rfl⟩ := step_fill hfill
    exact hroom

theorem along_rounds {n : Nat} (hn : n < 2 ^ 64) :
    Along step FlowControlled init (rounds n) := by
  induction n with
  | zero => exact ⟨trivial, fun _ _ => trivial⟩
  | succ n ih =>
      obtain ⟨σ, hrun, h⟩ := run_rounds (Nat.lt_of_succ_lt hn)
      rw [rounds_succ]
      exact (ih (Nat.lt_of_succ_lt hn)).append hrun h.along_round

theorem lossless_of_flowControlled_two :
    ∃ σ, run step init (rounds 2) = some σ ∧ σ.committed = [[7], [7]] ∧ Lossless σ := by
  obtain ⟨σ, hrun, h⟩ := run_rounds (n := 2) (by omega)
  refine ⟨σ, hrun, h.committed, lossless_of_flowControlled (along_rounds (by omega)) hrun ?_⟩
  rw [h.committed, List.length_replicate]
  omega

/-- Without a bound on the number of messages the ring is no queue: after 2^64 - 1 of
    them, one at a time, the reader takes an old one again. -/
theorem lossless_of_flowControlled_fails_wrapped :
    ¬ ∀ es σ, Along step FlowControlled init es → run step init es = some σ → Lossless σ := by
  intro hall
  obtain ⟨n, hn⟩ : ∃ n, n + 1 = 2 ^ 64 := ⟨2 ^ 64 - 1, rfl⟩
  obtain ⟨σ, hrun, h⟩ := run_rounds (n := n) (by omega)
  obtain ⟨σ', hwrap, hcommitted, haccepted⟩ := h.wrap hn
  have hread : Along step FlowControlled σ [.startRead, .endRead] :=
    ⟨trivial, fun _ _ => ⟨trivial, fun _ _ => trivial⟩⟩
  have halong := (along_rounds (by omega)).append hrun hread
  -- one more message is accepted than was committed
  have hle := (hall _ σ' halong (run_trans hrun hwrap)).2.1.length_le
  have hlen := congrArg List.length haccepted
  rw [List.length_map, List.length_append, List.length_range', List.length_singleton] at hlen
  rw [List.length_map, hlen, hcommitted, h.committed, List.length_replicate] at hle
  omega

end Camio.Ring
