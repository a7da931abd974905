/-
  Camio.Ring.Overrun

  The reader when the writer may lap it: messages get lost, but the numbers that
  `end_read` returns 0 for only ever go up, and each is the number of a message
  of the length `start_read` gave.

  The reader's counter wraps to 0 after message 2^64 - 1, so this is about runs of
  fewer messages than that.
-/

import Camio.Ring.Invariant

namespace Camio.Ring

open Camio.Lib

variable {σ σ' : System}

/-! ## Accepted messages -/

/-- The accepted numbers go up and stay behind the reader's counter, and each is
    that of a committed message of the accepted length. -/
structure AcceptedInv (σ : System) : Prop where
  closed : σ.reader = none → σ.accepted = []
  increasing : (σ.accepted.map Prod.fst).Pairwise (· < ·)
  committed : ∀ a ∈ σ.accepted, 1 ≤ a.1 ∧ a.1 ≤ σ.committed.length ∧
    a.2.length = (σ.message a.1).length
  behind : ∀ r, σ.reader = some r → ∀ a ∈ σ.accepted, a.1 < r.syncCounter

theorem acceptedInv_init : AcceptedInv init where
  closed := fun _ => rfl
  increasing := List.Pairwise.nil
  committed := nofun
  behind := nofun

/-- `prepare_next` never moves the reader back. -/
theorem prepareNext_syncCounter_le (r : IstreamRing) (m : Mem) :
    r.syncCounter ≤ (prepareNext r m).2.syncCounter := by
  obtain hsame | ⟨-, hle, htake⟩ := prepareNext_snd_cases r m
  · rw [hsame]
  · rw [htake]
    exact hle

theorem AcceptedInv.byWriter {e : Event} (h : AcceptedInv σ) (he : e.byReader = false)
    (hstep : step σ e = some σ') : AcceptedInv σ' := by
  obtain ⟨hreader, -, haccepted⟩ := step_byWriter he hstep
  have hprefix := step_committed hstep
  constructor
  case closed => rw [hreader, haccepted]; exact h.closed
  case increasing => rw [haccepted]; exact h.increasing
  case committed =>
    intro a ha
    obtain ⟨h1, hle, hlen⟩ := h.committed a (haccepted ▸ ha)
    refine ⟨h1, Nat.le_trans hle hprefix.length_le, ?_⟩
    rw [message_of_extends hprefix h1 hle]
    exact hlen
  case behind => rw [hreader, haccepted]; exact h.behind

/-- A reader that moves forward without an `end_read` leaves the numbers alone. -/
theorem AcceptedInv.forward {r r' : IstreamRing} (h : AcceptedInv σ) (hr : σ.reader = some r)
    (hle : r.syncCounter ≤ r'.syncCounter) (pending : Option (List UInt8)) :
    AcceptedInv { σ with reader := some r', pending := pending } where
  closed := nofun
  increasing := h.increasing
  committed := h.committed
  behind := by
    rintro _ ⟨⟩ a ha
    exact Nat.lt_of_lt_of_le (h.behind r hr a ha) hle

/-- A successful `end_read` accepts the message the reader stands on, a failed one
    skips ahead to the one that has overwritten it. -/
theorem AcceptedInv.endRead (h : AcceptedInv σ) (hw : WriterInv σ) (hr : ReaderInv σ)
    (hN : σ.committed.length + 1 < 2 ^ 64) (hstep : step σ .endRead = some σ') :
    AcceptedInv σ' := by
  obtain ⟨r, bytes, hreader, hpending, rfl⟩ := step_endRead hstep
  have hp := hr.placed r hreader
  have hh := hr.handedOut r bytes hreader hpending
  obtain ⟨h1, hlast, hsize⟩ := hp.waiting hh.waiting
  have hle := lastIn_le σ.committed.length r.index
  rw [camioIstreamRingEndRead_eq, hp.syncWord_eq hw (by omega)]
  by_cases heq : lastIn σ.committed.length r.index = r.syncCounter
  · simp only [if_pos heq, if_true]
    -- the counter does not wrap: the message is a committed one
    have hnext : (r.syncCounter + 1) % 2 ^ 64 = r.syncCounter + 1 := Nat.mod_eq_of_lt (by omega)
    constructor
    case closed => exact nofun
    case increasing =>
      -- what was accepted before is behind the reader
      rw [List.map_append, List.map_singleton, List.pairwise_append]
      refine ⟨h.increasing, List.pairwise_singleton _ _, ?_⟩
      intro n hn n' hn'
      obtain ⟨a, ha, rfl⟩ := List.mem_map.mp hn
      rw [List.mem_singleton.mp hn']
      exact h.behind r hreader a ha
    case committed =>
      intro a ha
      rcases List.mem_append.mp ha with ha | ha
      · exact h.committed a ha
      · rw [List.mem_singleton.mp ha]
        exact ⟨h1, heq ▸ hle, hh.length.trans hsize⟩
    case behind =>
      rintro _ ⟨⟩ a ha
      show a.1 < (r.syncCounter + 1) % 2 ^ 64
      rw [hnext]
      rcases List.mem_append.mp ha with ha | ha
      · exact Nat.lt_succ_of_lt (h.behind r hreader a ha)
      · rw [List.mem_singleton.mp ha]
        exact Nat.lt_succ_self _
  · -- refused: the reader is on a later message now
    have hfail : ¬ ((-1 : Int) = 0) := by decide
    simp only [if_neg heq, if_neg hfail]
    exact h.forward hreader hlast none

theorem AcceptedInv.step {e : Event} (h : AcceptedInv σ) (hw : WriterInv σ) (hr : ReaderInv σ)
    (hN : σ.committed.length + 1 < 2 ^ 64) (hstep : step σ e = some σ') : AcceptedInv σ' := by
  cases e with
  | startWrite _ | fill _ _ | assignWrite _ _ | endWrite _ => exact h.byWriter rfl hstep
  | openReader =>
      -- nothing has been accepted before there is a reader
      obtain ⟨hnone, rfl⟩ := step_openReader hstep
      have haccepted := h.closed hnone
      refine { h with closed := nofun, behind := ?_ }
      intro r _ a ha
      rw [show _ = [] from haccepted] at ha
      cases ha
  | ready =>
      obtain ⟨r, hreader, rfl⟩ := step_ready hstep
      rw [camioIstreamRingReady_snd σ.mem (hr.placed r hreader).isOpen]
      exact h.forward hreader (prepareNext_syncCounter_le r σ.mem) σ.pending
  | startRead =>
      obtain ⟨r, hreader, ⟨out, size, -, rfl⟩ | ⟨-, rfl⟩⟩ := step_startRead hstep
      all_goals
        rw [camioIstreamRingStartRead_snd σ.mem (hr.placed r hreader).isOpen]
        exact h.forward hreader (prepareNext_syncCounter_le r σ.mem) _
  | endRead => exact h.endRead hw hr hN hstep

theorem acceptedInv_of_run {es : List Event} (hrun : run step init es = some σ)
    (hN : σ.committed.length + 1 < 2 ^ 64) : AcceptedInv σ := by
  have hany : Along step (fun _ _ => True) init es := along_of_forall fun _ _ _ => trivial
  apply inv_of_run AcceptedInv acceptedInv_init ?_ hany hrun hN
  intro σ e σ' hw hr hN h _ hstep
  exact h.step hw hr hN hstep

/-- The accepted messages are committed ones, of the length `start_read` gave, in
    strictly increasing order; the reader's index is that of its counter's slot,
    in 64-bit arithmetic. -/
def AcceptedInOrder (σ : System) : Prop :=
  (σ.accepted.map Prod.fst).Pairwise (· < ·) ∧
  (∀ a ∈ σ.accepted, 1 ≤ a.1 ∧ a.1 ≤ σ.committed.length ∧
    a.2.length = (σ.message a.1).length) ∧
  ∀ r, σ.reader = some r → r.index = (r.syncCounter + (2 ^ 64 - 1)) % 2 ^ 64 % 1024

/-! ## Rounds: one message written, then read -/

/-- The events of one round. -/
def round : List Event := putInPlace [7] ++ [.startRead, .endRead]

/-- Open the reader and take `n` rounds. -/
def rounds (n : Nat) : List Event := .openReader :: (List.replicate n round).flatten

/-- Everything written has been read. -/
structure AllRead (n : Nat) (σ : System) : Prop where
  writer : WriterInv σ
  unassigned : σ.writer.assignedBuffer = none
  committed : σ.committed = List.replicate n [7]
  untouched : σ.untouched = slotSize
  reader : σ.reader = some
    { isClosed := false, curr := n % 1024 * slotSize, readSize := 0
      syncCounter := (n + 1) % 2 ^ 64, index := n % 1024 }
  accepted : σ.accepted.map Prod.fst = List.range' 1 n

theorem allRead_zero : ∃ σ, run step init (rounds 0) = some σ ∧ AllRead 0 σ := by
  refine ⟨_, rfl, ⟨{ writerInv_init with }, rfl, rfl, rfl, rfl, rfl⟩⟩

/-- A message that has just been committed is there for a reader that has read
    everything before. -/
theorem AllRead.run_round {n : Nat} (h : AllRead n σ) (hn : n + 1 < 2 ^ 64) :
    ∃ σ', run step σ round = some σ' ∧ AllRead (n + 1) σ' := by
  obtain ⟨σ₁, hput, hcommitted, hwriter, huntouched, hreader, hpending, haccepted⟩ :=
    run_putInPlace (σ := σ) (p := [7]) (by decide) h.unassigned
  have hw₁ : WriterInv σ₁ :=
    run_invariant WriterInv (fun _ _ _ h hstep => WriterInv.step h hstep) h.writer hput
  -- the message is the last one of the slot both stand on
  have hlen₁ : σ₁.committed.length = n + 1 := by
    rw [hcommitted, h.committed, List.length_append, List.length_replicate]
    rfl
  have hlast : lastIn σ₁.committed.length (n % 1024) = n + 1 := by
    rw [hlen₁, lastIn_succ_same]
  have hmod : (n + 1) % 2 ^ 64 = n + 1 := Nat.mod_eq_of_lt hn
  -- the two words of the reader's slot
  have hsync : syncWord σ₁.mem (n % 1024 * slotSize) = n + 1 := by
    rw [hw₁.sync _ (by omega), hlast, hmod]
  have hlen : lenWord σ₁.mem (n % 1024 * slotSize) = 1 := by
    rw [hw₁.len _ (by omega), lastPayload_eq_message (by omega), hlast, System.message, hcommitted,
      h.committed, List.getD_append_right _ _ _ _ (by simp)]
    simp
  rw [h.reader] at hreader
  refine ⟨_, run_trans hput (run_read hreader rfl rfl ?_ ?_ ?_), ?_⟩
  · dsimp only
    omega
  · dsimp only
    omega
  · dsimp only
    omega
  constructor
  case writer => exact { hw₁ with }
  case unassigned =>
    show σ₁.writer.assignedBuffer = none
    rw [hwriter]
    rfl
  case committed =>
    show σ₁.committed = _
    rw [hcommitted, h.committed, List.replicate_succ']
  case untouched => exact huntouched
  case reader =>
    dsimp only
    rw [hsync, Nat.mod_add_mod]
  case accepted =>
    show List.map Prod.fst (σ₁.accepted ++ _) = _
    rw [List.map_append, haccepted, h.accepted, hsync, List.range'_1_concat]
    simp [Nat.add_comm]

theorem rounds_succ (n : Nat) : rounds (n + 1) = rounds n ++ round := by
  simp [rounds, List.replicate_succ']

/-- Any number of rounds goes through. -/
theorem run_rounds {n : Nat} (hn : n < 2 ^ 64) :
    ∃ σ, run step init (rounds n) = some σ ∧ AllRead n σ := by
  induction n with
  | zero => exact allRead_zero
  | succ n ih =>
      obtain ⟨σ, hrun, h⟩ := ih (Nat.lt_of_succ_lt hn)
      obtain ⟨σ', hround, h'⟩ := h.run_round hn
      exact ⟨σ', by rw [rounds_succ]; exact run_trans hrun hround, h'⟩

/-- After message 2^64 - 1 the reader's counter is 0, and the reader catches up
    with a message 1023 back that it has read before. -/
theorem AllRead.wrap {n : Nat} (h : AllRead n σ) (hn : n + 1 = 2 ^ 64) :
    ∃ σ', run step σ [.startRead, .endRead] = some σ' ∧ σ'.committed = σ.committed ∧
      σ'.accepted.map Prod.fst = List.range' 1 n ++ [n - 1023] := by
  have hlen : σ.committed.length = n := by rw [h.committed, List.length_replicate]
  -- the slot of message n + 1 holds the one a lap before
  have hlast : lastIn σ.committed.length (n % 1024) = n - 1023 := by
    rw [hlen, lastIn, if_neg (by omega)]
    omega
  have hsync : syncWord σ.mem (n % 1024 * slotSize) = n - 1023 := by
    rw [h.writer.sync _ (by omega), hlast, Nat.mod_eq_of_lt (by omega)]
  have hword : lenWord σ.mem (n % 1024 * slotSize) = 1 := by
    rw [h.writer.len _ (by omega), lastPayload_eq_message (by omega), hlast, System.message,
      h.committed, List.getD_replicate _ (by omega)]
    rfl
  refine ⟨_, run_read h.reader rfl rfl ?_ ?_ ?_, rfl, ?_⟩
  · dsimp only
    omega
  · dsimp only
    omega
  · dsimp only
    omega
  · rw [List.map_append, h.accepted, hsync]
    rfl

/-! ## The order of the accepted messages -/

/-- With the writer free to lap the reader any number of times, the messages that
    `end_read` accepts are committed ones in strictly increasing order. -/
theorem accepted_increasing {es : List Event} (hrun : run step init es = some σ)
    (hN : σ.committed.length + 1 < 2 ^ 64) : AcceptedInOrder σ := by
  have ha := acceptedInv_of_run hrun hN
  refine ⟨ha.increasing, ha.committed, fun r hr => ?_⟩
  have := ((readerInv_of_run hrun (by omega)).placed r hr).index
  omega

theorem accepted_increasing_two :
    ∃ σ, run step init (rounds 2) = some σ ∧ σ.accepted.map Prod.fst = [1, 2] ∧
      AcceptedInOrder σ := by
  obtain ⟨σ, hrun, h⟩ := run_rounds (n := 2) (by omega)
  refine ⟨σ, hrun, h.accepted, accepted_increasing hrun ?_⟩
  rw [h.committed, List.length_replicate]
  omega

/-- The bound is exact: a reader that has read 2^64 - 1 messages accepts an old one
    again. -/
theorem accepted_increasing_fails_wrapped :
    ¬ ∀ es σ, run step init es = some σ → σ.committed.length < 2 ^ 64 → AcceptedInOrder σ := by
  intro hall
  obtain ⟨n, hn⟩ : ∃ n, n + 1 = 2 ^ 64 := ⟨2 ^ 64 - 1, rfl⟩
  obtain ⟨σ, hrun, h⟩ := run_rounds (n := n) (by omega)
  obtain ⟨σ', hwrap, hcommitted, haccepted⟩ := h.wrap hn
  have hN : σ'.committed.length < 2 ^ 64 := by
    rw [hcommitted, h.committed, List.length_replicate]
    omega
  have hinc := (hall _ σ' (run_trans hrun hwrap) hN).1
  rw [haccepted, List.pairwise_append] at hinc
  -- the last message read in order is beyond the one accepted after it
  have := hinc.2.2 n (List.mem_range'_1.mpr (by omega)) (n - 1023) (List.mem_singleton.mpr rfl)
  omega

end Camio.Ring
