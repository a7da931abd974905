/-
  Camio.Ring.Drained

  When a `ready` that returns 0 means that the reader has seen everything.
  `prepare_next` returns the length of the payload it finds, so an empty payload
  looks like no payload: the reader stays on its slot until a later message of
  that slot is not empty.
-/

import Camio.Ring.Overrun

namespace Camio.Ring

open Camio.Lib

variable {σ σ' : System} {r : IstreamRing}

/-- The reader's slot holds the message the reader expects or a later one, and that
    message is empty. -/
def HoldsEmpty (σ : System) (r : IstreamRing) : Prop :=
  r.syncCounter ≤ lastIn σ.committed.length r.index ∧ lastPayload σ.committed r.index = []

/-! ## Runs without empty messages -/

/-- The step commits no empty payload. -/
def CommitsData (_ : System) (e : Event) : Prop := e ≠ .endWrite 0

theorem committed_ne_nil_step {e : Event} (hP : CommitsData σ e) (hstep : step σ e = some σ')
    (h : ∀ p ∈ σ.committed, p ≠ []) : ∀ p ∈ σ'.committed, p ≠ [] := by
  by_cases he : ∃ len, e = .endWrite len
  · obtain ⟨len, rfl⟩ := he
    obtain ⟨-, rfl⟩ := step_endWrite hstep
    intro p hp
    rcases List.mem_append.mp hp with hp | hp
    · exact h p hp
    · rw [List.mem_singleton.mp hp]
      intro hnil
      have hlen := payload_length σ.writer σ.mem len
      rw [hnil] at hlen
      exact hP (by rw [← hlen]; rfl)
  · rw [step_committed_eq (fun len hlen => he ⟨len, hlen⟩) hstep]
    exact h

theorem committed_ne_nil_of_run {es : List Event} (hP : Along step CommitsData init es)
    (hrun : run step init es = some σ) : ∀ p ∈ σ.committed, p ≠ [] :=
  run_invariant_along (fun σ => ∀ p ∈ σ.committed, p ≠ [])
    (fun _ _ _ h hP hstep => committed_ne_nil_step hP hstep h) (by simp [init]) hP hrun

/-- Without empty messages no slot holds one. -/
theorem not_holdsEmpty (h : ∀ p ∈ σ.committed, p ≠ []) (h1 : 1 ≤ r.syncCounter) :
    ¬ HoldsEmpty σ r := by
  rintro ⟨hlast, hempty⟩
  have hle := lastIn_le σ.committed.length r.index
  rw [lastPayload_eq_message (by omega), System.message, List.getD_eq_getElem _ _ (by omega)]
    at hempty
  exact h _ (List.getElem_mem _) hempty

/-! ## The reader's counter fits its word -/

theorem prepareNext_sync_lt {m : Mem} (h : r.syncCounter < 2 ^ 64) :
    (prepareNext r m).2.syncCounter < 2 ^ 64 := by
  obtain hsame | ⟨-, -, htake⟩ := prepareNext_snd_cases r m
  · rw [hsame]
    exact h
  · rw [htake]
    exact syncWord_lt m r.curr

theorem reader_sync_lt_step {e : Event} (hstep : step σ e = some σ')
    (h : ∀ r, σ.reader = some r → r.syncCounter < 2 ^ 64) :
    ∀ r, σ'.reader = some r → r.syncCounter < 2 ^ 64 := by
  cases e with
  | startWrite _ | fill _ _ | assignWrite _ _ | endWrite _ =>
      rw [(step_byWriter rfl hstep).1]
      exact h
  | openReader =>
      obtain ⟨-, rfl⟩ := step_openReader hstep
      rintro r ⟨⟩
      decide
  | ready =>
      obtain ⟨r, hr, rfl⟩ := step_ready hstep
      rintro _ ⟨⟩
      rw [camioIstreamRingReady]
      split
      next => exact h r hr
      next => exact prepareNext_sync_lt (h r hr)
  | startRead =>
      obtain ⟨r, hr, ⟨out, size, -, rfl⟩ | ⟨-, rfl⟩⟩ := step_startRead hstep
      all_goals
        rintro _ ⟨⟩
        rw [camioIstreamRingStartRead]
        split
        next => exact h r hr
        next =>
          split
          next => exact h r hr
          next =>
            dsimp only
            split <;> exact prepareNext_sync_lt (h r hr)
  | endRead =>
      -- one on, wrapping around, or the word of the slot
      obtain ⟨r, bytes, hr, -, rfl⟩ := step_endRead hstep
      intro r' hr'
      obtain rfl := Option.some.inj hr'
      rw [camioIstreamRingEndRead_eq]
      split
      next => exact Nat.mod_lt _ (by decide)
      next => exact syncWord_lt σ.mem r.curr

/-- The reader's counter is a 64-bit value, however many messages there are. -/
theorem reader_sync_lt_of_run {es : List Event} (hrun : run step init es = some σ)
    (hr : σ.reader = some r) : r.syncCounter < 2 ^ 64 :=
  run_invariant (fun σ => ∀ r, σ.reader = some r → r.syncCounter < 2 ^ 64)
    (fun _ _ _ h hstep => reader_sync_lt_step hstep h) nofun hrun r hr

/-! ## Drained -/

/-- With nothing waiting, nothing is ready exactly if the slot's message is an earlier
    one or an empty one. -/
theorem ready_eq_zero_iff {m : Mem} (hopen : r.isClosed = false) (hread : r.readSize = 0)
    (hlen : lenWord m r.curr ≤ 4080) :
    (camioIstreamRingReady r m).1 = 0 ↔
      syncWord m r.curr < r.syncCounter ∨ lenWord m r.curr = 0 := by
  have hcall : camioIstreamRingReady r m = prepareNext r m := by
    rw [camioIstreamRingReady, if_neg (by simp [hopen, hread])]
  rw [hcall, prepareNext_eq, if_neg (not_not_intro hread)]
  by_cases hle : r.syncCounter ≤ syncWord m r.curr
  · rw [if_pos hle, toInt_eq_zero_iff hlen]
    exact ⟨Or.inr, fun h => h.resolve_left (Nat.not_lt_of_le hle)⟩
  · rw [if_neg hle]
    exact iff_of_true rfl (Or.inl (Nat.lt_of_not_le hle))

/-- A reader that is ahead of its slot has passed every message. -/
theorem Placed.drained (hp : Placed σ r) (hlt : lastIn σ.committed.length r.index < r.syncCounter) :
    r.syncCounter = σ.committed.length + 1 := by
  refine Nat.le_antisymm hp.sync_le (Nat.le_of_not_lt fun hle => ?_)
  -- message `syncCounter` would be a committed one of the reader's slot
  have hlast := le_lastIn (n := σ.committed.length) (m := r.syncCounter) (by omega) (by omega)
  have hidx : r.index = (r.syncCounter - 1) % 1024 := by
    rw [hp.index]
    omega
  rw [← hidx] at hlast
  omega

/-- Nothing waiting and nothing ready means that every message has been passed
    exactly if the counter has not wrapped and the reader is not held up by an empty
    message, and so in every run that commits no empty message. -/
theorem ready_zero_drained {es : List Event} (hrun : run step init es = some σ)
    (hr : σ.reader = some r) (hread : r.readSize = 0)
    (hready : (camioIstreamRingReady r σ.mem).1 = 0) :
    (r.syncCounter = σ.committed.length + 1 ↔
      σ.committed.length + 1 < 2 ^ 64 ∧ ¬ HoldsEmpty σ r) ∧
    (Along step CommitsData init es → σ.committed.length + 1 < 2 ^ 64 →
      r.syncCounter = σ.committed.length + 1) := by
  have hw := writerInv_of_run hrun
  have hiff : r.syncCounter = σ.committed.length + 1 ↔
      σ.committed.length + 1 < 2 ^ 64 ∧ ¬ HoldsEmpty σ r := by
    constructor
    · -- a counter that has passed every message has not wrapped, and no slot is up to it
      intro hsync
      have hlt := reader_sync_lt_of_run hrun hr
      have hle := lastIn_le σ.committed.length r.index
      exact ⟨by omega, fun hempty => by have := hempty.1; omega⟩
    · rintro ⟨hN, hempty⟩
      have hp := (readerInv_of_run hrun (by omega)).placed r hr
      rw [ready_eq_zero_iff hp.isOpen hread (hp.lenWord_le hw), hp.syncWord_eq hw (by omega),
        hp.lenWord_eq hw] at hready
      by_cases hlt : lastIn σ.committed.length r.index < r.syncCounter
      · exact hp.drained hlt
      · -- the slot's message is not an earlier one, so it is an empty one
        have hlen := hready.resolve_left hlt
        exact absurd ⟨Nat.le_of_not_lt hlt, List.eq_nil_of_length_eq_zero hlen⟩ hempty
  refine ⟨hiff, fun hP hN => hiff.mpr ⟨hN, fun hempty => ?_⟩⟩
  have hp := (readerInv_of_run hrun (by omega)).placed r hr
  exact not_holdsEmpty (committed_ne_nil_of_run hP hrun) (hp.sync_pos hN) hempty

/-- Two messages, committed and read. -/
theorem ready_zero_drained_two :
    ∃ σ r, run step init (rounds 2) = some σ ∧ σ.committed = [[7], [7]] ∧
      σ.accepted.map Prod.fst = [1, 2] ∧ σ.reader = some r ∧
      (camioIstreamRingReady r σ.mem).1 = 0 ∧ r.syncCounter = σ.committed.length + 1 := by
  obtain ⟨σ, hrun, h⟩ := run_rounds (n := 2) (by omega)
  have hlen : σ.committed.length = 2 := by rw [h.committed, List.length_replicate]
  -- nothing has been committed to slot 2, which the reader stands on
  have hsync : syncWord σ.mem (2 * slotSize) = 0 := by
    rw [h.writer.sync 2 (by omega), hlen]
    decide
  have hword : lenWord σ.mem (2 * slotSize) = 0 := by
    rw [h.writer.len 2 (by omega), lastPayload, hlen, if_pos (by decide), List.length_nil]
  have hready : (camioIstreamRingReady
      { isClosed := false, curr := 2 * slotSize, readSize := 0, syncCounter := 3, index := 2 }
      σ.mem).1 = 0 := by
    rw [ready_eq_zero_iff (by simp) (by simp) (by simp [hword])]
    left
    dsimp only
    omega
  have hdata : Along step CommitsData init (rounds 2) := by
    apply along_of_forall
    simp [rounds, round, putInPlace, CommitsData]
  refine ⟨σ, _, hrun, h.committed, h.accepted, h.reader, hready, ?_⟩
  apply (ready_zero_drained hrun h.reader (by simp) hready).2 hdata
  omega

/-- An empty message holds the reader up: `ready` returns 0 although the message has
    not been passed. -/
theorem ready_zero_drained_fails_empty :
    ¬ ∀ es σ r, run step init es = some σ → σ.reader = some r → r.readSize = 0 →
      (camioIstreamRingReady r σ.mem).1 = 0 → r.syncCounter = σ.committed.length + 1 := by
  intro hall
  -- the ring with the empty message, which leaves the length word of slot 0 at zero
  obtain ⟨σ, hcommit, hreader, hcommitted⟩ :
      ∃ σ, step init (.endWrite 0) = some σ ∧ σ.reader = none ∧ σ.committed = [[]] :=
    ⟨_, step_endWrite_of_le (Nat.zero_le 4080), rfl, rfl⟩
  have hlen : lenWord σ.mem openedReader.curr = 0 := by
    have hword := (writerInv_init.step hcommit).len 0 (by decide)
    rw [hcommitted] at hword
    exact hword
  have hopen : step σ .openReader = some { σ with reader := some openedReader } := by
    simp only [step, hreader]
  have hready : (camioIstreamRingReady openedReader σ.mem).1 = 0 :=
    (ready_eq_zero_iff rfl rfl (by rw [hlen]; decide)).mpr (Or.inr hlen)
  have hsync := hall [.endWrite 0, .openReader] _ _
    (run_cons_eq_some.mpr ⟨_, hcommit, run_cons_eq_some.mpr ⟨_, hopen, rfl⟩⟩) rfl rfl hready
  rw [show openedReader.syncCounter = 1 from rfl, hcommitted] at hsync
  exact absurd hsync (by decide)

end Camio.Ring
