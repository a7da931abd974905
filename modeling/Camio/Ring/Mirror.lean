/-
  Camio.Ring.Mirror

  Which left-over ring files give a reader nothing but its own session.

  `Mirrors` sets a session on the file beside one on a fresh ring that takes the same
  calls.  The slots that the writer has reached carry the same words in both, the others
  what the file left in them.  As long as the reader finds nothing in the latter, the two
  sessions cannot be told apart; on a file with a slot that is not quiet, a reader that
  has followed its writer up to this slot takes what the earlier session left there.

  `Carries` adds the bytes.  They need not be those of the session on the fresh ring: a
  commit of more than its caller has stored takes along what was in the slot.  But they are
  those of the session's own messages.
-/

import Mathlib.Data.Nat.Find
import Camio.Ring.Session

namespace Camio.Ring

open Camio.Lib

variable {file : Mem} {σ τ σ' : System} {r : IstreamRing}

/-- The session `τ` on the file, beside `σ` on a fresh ring. -/
structure Mirrors (file : Mem) (σ τ : System) : Prop where
  fresh : FreshInv σ
  writer : τ.writer = σ.writer
  granted : τ.granted = σ.granted
  untouched : τ.untouched = σ.untouched
  lens : τ.committed.map List.length = σ.committed.map List.length
  reader : τ.reader = σ.reader
  pending : τ.pending.map List.length = σ.pending.map List.length
  accepted : τ.accepted.map (Prod.map id List.length) = σ.accepted.map (Prod.map id List.length)
  reached : ∀ j < 1024, j < σ.committed.length → slotWords τ.mem j = slotWords σ.mem j
  rest : ∀ j < 1024, σ.committed.length ≤ j → slotWords τ.mem j = slotWords file j

theorem mirrors_opened (file : Mem) : Mirrors file init (opened file) where
  fresh := freshInv_init
  writer := rfl
  granted := rfl
  untouched := rfl
  lens := rfl
  reader := rfl
  pending := rfl
  accepted := rfl
  reached := fun _ _ h => absurd h (Nat.not_lt_zero _)
  rest := fun _ _ _ => rfl

/-- The reader finds nothing in a slot that its writer has not reached. -/
def SeesNothing (file : Mem) (σ : System) : Prop :=
  ∀ r, σ.reader = some r → σ.committed.length ≤ r.index → QuietSlot file r.index

/-- `prepare_next` goes by the two words of the reader's slot. -/
theorem prepareNext_congr {m m' : Mem} (hcurr : r.curr = r.index * slotSize)
    (h : slotWords m r.index = slotWords m' r.index) : prepareNext r m = prepareNext r m' := by
  obtain ⟨hsync, hlen⟩ := Prod.mk.inj h
  rw [← hcurr] at hsync hlen
  simp only [prepareNext_eq, takeSlot, hsync, hlen]

/-- There is nothing in a quiet slot for the reader that waits for its first message. -/
theorem prepareNext_quiet {m : Mem} (hs : Stands σ r) (hN : σ.committed.length ≤ r.index)
    (hwords : slotWords m r.index = slotWords file r.index) (hquiet : QuietSlot file r.index) :
    prepareNext r m = (0, r) := by
  obtain ⟨hsync, hread⟩ := hs.unwritten hN
  rw [prepareNext_congr hs.curr hwords, prepareNext_eq, if_neg (not_not_intro hread)]
  by_cases hle : r.syncCounter ≤ syncWord file r.curr
  · -- the counter of an empty payload: taking it changes nothing
    rw [hs.curr] at hle
    have heq : syncWord file (r.index * slotSize) = r.syncCounter := by
      have := hquiet.1
      omega
    have hlen := hquiet.2 (heq.trans hsync)
    have htaken : takeSlot r file = r := by
      rw [takeSlot, hs.curr, heq, hlen, ← hread, ← hs.curr]
    rw [htaken, hs.curr, if_pos (Nat.le_of_eq heq.symm), hlen]
    rfl
  · rw [if_neg hle]

/-- So the reader does the same in both sessions. -/
theorem Mirrors.prepareNext_eq (h : Mirrors file σ τ) (hr : σ.reader = some r)
    (hquiet : SeesNothing file σ) : prepareNext r τ.mem = prepareNext r σ.mem := by
  have hs := h.fresh.stands r hr
  by_cases hN : r.index < σ.committed.length
  · exact prepareNext_congr hs.curr (h.reached r.index hs.index_lt hN)
  · have hN' := Nat.le_of_not_lt hN
    have hzero : QuietSlot zeroRing r.index := quiet_zeroRing r.index hs.index_lt
    have hnone : lastIn σ.committed.length r.index = 0 := if_pos (by omega)
    have hfresh : slotWords σ.mem r.index = slotWords zeroRing r.index := by
      rw [slotWords, h.fresh.writer.syncWord_unwritten hs.index_lt hN',
        h.fresh.writer.len r.index hs.index_lt, lastPayload, if_pos hnone]
      simp [slotWords]
    rw [prepareNext_quiet hs hN' (h.rest r.index hs.index_lt hN') (hquiet r hr hN'),
      prepareNext_quiet hs hN' hfresh hzero]

theorem Mirrors.startRead_eq (h : Mirrors file σ τ) (hr : σ.reader = some r)
    (hquiet : SeesNothing file σ) :
    camioIstreamRingStartRead r τ.mem = camioIstreamRingStartRead r σ.mem := by
  rw [camioIstreamRingStartRead, h.prepareNext_eq hr hquiet, camioIstreamRingStartRead]

/-- The slot of a waiting read is one that the writer has reached. -/
theorem Mirrors.words_of_waiting (h : Mirrors file σ τ) (hr : σ.reader = some r)
    (hread : r.readSize ≠ 0) : slotWords τ.mem r.index = slotWords σ.mem r.index := by
  have hs := h.fresh.stands r hr
  exact h.reached r.index hs.index_lt (hs.index_lt_of_waiting hread)

theorem Mirrors.endRead_eq (h : Mirrors file σ τ) (hr : σ.reader = some r)
    (hread : r.readSize ≠ 0) :
    camioIstreamRingEndRead r τ.mem = camioIstreamRingEndRead r σ.mem := by
  have hwords := h.words_of_waiting hr hread
  simp only [camioIstreamRingEndRead_eq, (h.fresh.stands r hr).curr, (Prod.mk.inj hwords).1]

/-! ## One step of both sessions -/

theorem slotWords_write {m : Mem} {i off : Nat} {bytes : List UInt8}
    (h : off + bytes.length ≤ 4080) (j : Nat) :
    slotWords (m.write (i * slotSize + off) bytes) j = slotWords m j :=
  Prod.ext (words_write_payload h).1 (words_write_payload h).2

theorem slotWords_commitMem_ne {w : OstreamRing} {m : Mem} {len : Nat}
    (hcurr : w.curr = w.index * slotSize) (hlen : len ≤ 4080) {j : Nat} (hj : j ≠ w.index) :
    slotWords (commitMem w m len) j = slotWords m j :=
  Prod.ext (commitMem_words_ne hcurr hlen hj).1 (commitMem_words_ne hcurr hlen hj).2

theorem slotWords_commitMem {w : OstreamRing} {m : Mem} {len : Nat}
    (hcurr : w.curr = w.index * slotSize) (hlen : len ≤ 4080) :
    slotWords (commitMem w m len) w.index = ((w.syncCount + 1) % 2 ^ 64, len) :=
  Prod.ext (commitMem_syncWord hcurr) (commitMem_lenWord hcurr hlen)

/-- The caller's stores stay in front of the words of its slot. -/
theorem Mirrors.fill (h : Mirrors file σ τ) (off : Nat) (bytes : List UInt8) :
    Option.Rel (Mirrors file) (step σ (.fill off bytes)) (step τ (.fill off bytes)) := by
  cases hg : σ.granted with
  | none =>
      simp only [step, hg, h.granted.trans hg]
      exact .none
  | some p =>
      by_cases hle : off + bytes.length ≤ 4080
      · have hp : p = σ.writer.index * slotSize :=
          (h.fresh.writer.granted p hg).trans h.fresh.writer.curr
        have hstep : step σ (.fill off bytes) = some { σ with
            mem := σ.mem.write (p + off) bytes
            untouched := if bytes = [] then σ.untouched else min σ.untouched off } := by
          simp only [step, hg, if_pos hle]
        have hfresh := h.fresh.step hstep
        rw [hstep]
        simp only [step, h.granted.trans hg, if_pos hle]
        -- neither memory has its words changed
        subst hp
        refine .some { h with fresh := hfresh, granted := hg.symm, untouched := ?_
                              reached := ?_, rest := ?_ }
        · simp only [h.untouched]
        · intro j hj hN
          rw [slotWords_write hle, slotWords_write hle]
          exact h.reached j hj hN
        · intro j hj hN
          rw [slotWords_write hle]
          exact h.rest j hj hN
      · simp only [step, hg, h.granted.trans hg, if_neg hle]
        exact .none

/-- A commit writes the same two words in both. -/
theorem Mirrors.endWrite (h : Mirrors file σ τ) (len : Nat) :
    Option.Rel (Mirrors file) (step σ (.endWrite len)) (step τ (.endWrite len)) := by
  by_cases hlen : len ≤ 4080
  · have hstep := step_endWrite_of_le (σ := σ) hlen
    have hfresh := h.fresh.step hstep
    have hcurr := h.fresh.writer.curr
    have hindex := h.fresh.writer.index
    rw [hstep, step_endWrite_of_le hlen]
    refine .some { h with fresh := hfresh, writer := ?_, granted := rfl, untouched := rfl
                          lens := ?_, reached := ?_, rest := ?_ }
    · show commitWriter τ.writer = commitWriter σ.writer
      rw [h.writer]
    · simp [h.lens]
    · -- the slot that is committed is reached now, and has the same words in both
      intro j hj hN
      simp only [List.length_append, List.length_singleton] at hN
      rw [h.writer]
      by_cases hj' : j = σ.writer.index
      · subst hj'
        rw [slotWords_commitMem hcurr hlen, slotWords_commitMem hcurr hlen]
      · rw [slotWords_commitMem_ne hcurr hlen hj', slotWords_commitMem_ne hcurr hlen hj']
        exact h.reached j hj (by omega)
    · intro j hj hN
      simp only [List.length_append, List.length_singleton] at hN
      rw [h.writer]
      show slotWords (commitMem σ.writer τ.mem len) j = _
      rw [slotWords_commitMem_ne hcurr hlen (by omega)]
      exact h.rest j hj (by omega)
  · simp only [step, camioOstreamRingEndWrite_eq, if_neg hlen]
    exact .none

theorem Mirrors.byWriter {e : Event} (h : Mirrors file σ τ) (he : e.byReader = false) :
    Option.Rel (Mirrors file) (step σ e) (step τ e) := by
  cases e with
  | startWrite len =>
      have hstep : step σ (.startWrite len)
          = some { σ with granted := camioOstreamRingStartWrite σ.writer len } := rfl
      refine .some { h with fresh := h.fresh.step hstep, granted := ?_ }
      show camioOstreamRingStartWrite τ.writer len = _
      rw [h.writer]
  | fill off bytes => exact h.fill off bytes
  | assignWrite buffer len =>
      cases buffer with
      | none => exact .none
      | some b =>
          have hstep : step σ (.assignWrite (some b) len) = some { σ with
            writer := { σ.writer with assignedBuffer := some b, assignedBufferSz := len } } := rfl
          refine .some { h with fresh := h.fresh.step hstep, writer := ?_ }
          show { τ.writer with assignedBuffer := some b, assignedBufferSz := len } = _
          rw [h.writer]
  | endWrite len => exact h.endWrite len
  | openReader | ready | startRead | endRead => cases he

/-- The reader's steps leave the ring and the writer alone. -/
theorem Mirrors.withReader (h : Mirrors file σ τ) {reader : Option IstreamRing}
    {pending pending' : Option (List UInt8)} {accepted accepted' : List (Nat × List UInt8)}
    (hfresh : FreshInv { σ with reader := reader, pending := pending, accepted := accepted })
    (hpending : pending'.map List.length = pending.map List.length)
    (haccepted : accepted'.map (Prod.map id List.length)
      = accepted.map (Prod.map id List.length)) :
    Mirrors file { σ with reader := reader, pending := pending, accepted := accepted }
      { τ with reader := reader, pending := pending', accepted := accepted' } :=
  { h with fresh := hfresh, reader := rfl, pending := hpending, accepted := haccepted }

theorem Mirrors.byReader {e : Event} (h : Mirrors file σ τ) (hquiet : SeesNothing file σ)
    (he : e.byReader = true) : Option.Rel (Mirrors file) (step σ e) (step τ e) := by
  cases e with
  | startWrite _ | fill _ _ | assignWrite _ _ | endWrite _ => cases he
  | openReader =>
      cases hr : σ.reader with
      | none =>
          have hstep : step σ .openReader = some { σ with reader := some openedReader } := by
            simp only [step, hr]
          have hfresh := h.fresh.step hstep
          rw [hstep]
          simp only [step, h.reader.trans hr]
          exact .some (h.withReader hfresh h.pending h.accepted)
      | some r =>
          simp only [step, hr, h.reader.trans hr]
          exact .none
  | ready =>
      cases hr : σ.reader with
      | none =>
          simp only [step, hr, h.reader.trans hr]
          exact .none
      | some r =>
          have hcall : camioIstreamRingReady r τ.mem = camioIstreamRingReady r σ.mem := by
            rw [camioIstreamRingReady, h.prepareNext_eq hr hquiet, camioIstreamRingReady]
          have hstep : step σ .ready
              = some { σ with reader := some (camioIstreamRingReady r σ.mem).2 } := by
            simp only [step, hr, Option.map_some]
          have hfresh := h.fresh.step hstep
          rw [hstep]
          simp only [step, h.reader.trans hr, Option.map_some, hcall]
          exact .some (h.withReader hfresh h.pending h.accepted)
  | startRead =>
      cases hr : σ.reader with
      | none =>
          simp only [step, hr, h.reader.trans hr]
          exact .none
      | some r =>
          have hcall := h.startRead_eq hr hquiet
          cases hstep : step σ .startRead with
          | none => simp [step, hr] at hstep
          | some σ₁ =>
              have hfresh := h.fresh.step hstep
              simp only [step, hr, Option.map_some, Option.some.injEq] at hstep
              simp only [step, h.reader.trans hr, Option.map_some, hcall]
              subst hstep
              -- the bytes handed out may differ, their number does not
              cases hresult : camioIstreamRingStartRead r σ.mem with
              | mk result r' =>
                  rw [hresult] at hfresh
                  cases result with
                  | data out size => exact .some (h.withReader hfresh (by simp) h.accepted)
                  | closed => exact .some (h.withReader hfresh h.pending h.accepted)
                  | spinning => exact .some (h.withReader hfresh h.pending h.accepted)
  | endRead =>
      cases hbytes : σ.pending with
      | none =>
          have hbytes' : τ.pending = none := by
            have := h.pending
            rw [hbytes] at this
            exact Option.map_eq_none_iff.mp this
          cases hr : σ.reader with
          | none =>
              simp only [step, hr, h.reader.trans hr]
              exact .none
          | some r =>
              simp only [step, hr, h.reader.trans hr, hbytes, hbytes']
              exact .none
      | some bytes =>
          obtain ⟨bytes', hbytes', hlen⟩ : ∃ b, τ.pending = some b ∧ b.length = bytes.length := by
            have := h.pending
            rw [hbytes] at this
            exact Option.map_eq_some_iff.mp this
          obtain ⟨r, hr, hread, -⟩ := h.fresh.pending bytes hbytes
          have hcall := h.endRead_eq hr hread
          have hstep : step σ .endRead = some { σ with
              reader := some (camioIstreamRingEndRead r σ.mem).2
              pending := none
              accepted := if (camioIstreamRingEndRead r σ.mem).1 = 0
                then σ.accepted ++ [(r.syncCounter, bytes)] else σ.accepted } := by
            simp only [step, hr, hbytes]
          have hfresh := h.fresh.step hstep
          rw [hstep]
          simp only [step, h.reader.trans hr, hbytes', hcall]
          refine .some (h.withReader hfresh rfl ?_)
          split
          next => simp [h.accepted, hlen]
          next => exact h.accepted

theorem Mirrors.step {e : Event} (h : Mirrors file σ τ) (hquiet : SeesNothing file σ) :
    Option.Rel (Mirrors file) (Ring.step σ e) (Ring.step τ e) := by
  cases he : e.byReader with
  | true => exact h.byReader hquiet he
  | false => exact h.byWriter he

/-- Runs of the same calls mirror each other as long as the reader finds nothing that the
    file left. -/
theorem mirrors_of_run {es : List Event}
    (hquiet : Along Ring.step (fun σ _ => SeesNothing file σ) init es) :
    Option.Rel (Mirrors file) (run Ring.step init es) (run Ring.step (opened file) es) :=
  run_lockstep (fun _ _ _ h hP => h.step hP) (mirrors_opened file) hquiet

/-! ## The bytes of the session -/

theorem Mirrors.count (h : Mirrors file σ τ) : τ.committed.length = σ.committed.length := by
  simpa using congrArg List.length h.lens

theorem Mirrors.message_length (h : Mirrors file σ τ) (m : Nat) :
    (τ.message m).length = (σ.message m).length := by
  rw [System.message, System.message, ← List.getD_map _ _ List.length, h.lens, List.getD_map]

/-- The reader's place is a matter of counters and lengths. -/
theorem Mirrors.placed (h : Mirrors file σ τ) (hp : Placed σ r) : Placed τ r := by
  refine { hp with sync_le := ?_, sync_pos := ?_, waiting := ?_ }
  · rw [h.count]
    exact hp.sync_le
  · rw [h.count]
    exact hp.sync_pos
  · rw [h.count, h.message_length]
    exact hp.waiting

/-- The reader's calls find on the file what they find on a fresh ring. -/
theorem Mirrors.finds (h : Mirrors file σ τ) (hquiet : SeesNothing file σ)
    (hr : σ.reader = some r) (hf : Finds σ r) : Finds τ r where
  prepared := by
    rw [h.prepareNext_eq hr hquiet]
    exact h.placed hf.prepared
  handed := by
    rw [h.prepareNext_eq hr hquiet, h.startRead_eq hr hquiet]
    exact hf.handed
  ended := by
    intro hread
    rw [h.endRead_eq hr hread]
    exact h.placed (hf.ended hread)

/-- The session on the file keeps its own messages in the slots, and its reader is in its
    place among them. -/
structure Carries (file : Mem) (σ τ : System) : Prop extends Mirrors file σ τ where
  records : Records τ
  readers : σ.committed.length < 2 ^ 64 → ReaderInv σ ∧ ReaderInv τ

theorem carries_opened (file : Mem) : Carries file init (opened file) where
  toMirrors := mirrors_opened file
  records := records_opened file
  readers := fun _ => ⟨readerInv_init, fun _ => rfl, nofun, nofun⟩

theorem Carries.step {e : Event} (h : Carries file σ τ) (hquiet : SeesNothing file σ) :
    Option.Rel (Carries file) (Ring.step σ e) (Ring.step τ e) := by
  have hrel := h.toMirrors.step (e := e) hquiet
  generalize hσ : Ring.step σ e = a, hτ : Ring.step τ e = b at hrel
  cases hrel with
  | none => exact .none
  | some hm =>
      refine .some { hm with records := h.records.step hτ, readers := fun hN' => ?_ }
      -- a step never takes a commit back
      have hN := Nat.lt_of_le_of_lt (step_committed hσ).length_le hN'
      obtain ⟨hri, hri'⟩ := h.readers hN
      have hw := h.fresh.writer
      constructor
      · exact hri.step hw.toRecords (fun _ => hri.finds hw hN) hσ
      · refine hri'.step h.records (fun r hr => ?_) hτ
        rw [h.reader] at hr
        exact h.finds hquiet hr (hri.finds hw hN hr)

/-- What `end_read` accepts is a message of the session, if its slot is not being filled. -/
theorem Carries.acceptsOwn (h : Carries file σ τ) (hkept : SlotKept τ) : AcceptsOwn τ := by
  obtain ⟨hN, hfill⟩ := hkept
  obtain ⟨-, hri⟩ := h.readers (h.count ▸ hN)
  intro r bytes hr hbytes hzero
  have hp := hri.placed r hr
  have hread := (hri.handedOut r bytes hr hbytes).waiting
  have hle := lastIn_le τ.committed.length r.index
  -- the counter of the slot is that of the last message it received in this session
  have hlast : r.syncCounter = lastIn τ.committed.length r.index := by
    have hwords := h.words_of_waiting (h.reader ▸ hr) hread
    rw [← (camioIstreamRingEndRead_eq_zero_iff r τ.mem).mp hzero, hp.curr,
      (Prod.mk.inj hwords).1, h.fresh.writer.sync r.index hp.index_lt, ← h.count]
    exact Nat.mod_eq_of_lt (by omega)
  obtain ⟨hslot, hmessage⟩ := hri.stableRead h.records hr hbytes (hfill r hr) hlast
  obtain ⟨h1, -, -⟩ := hp.waiting hread
  refine ⟨⟨r.syncCounter, h1, by omega, ?_, hmessage⟩, hslot⟩
  exact (Nat.mod_eq_of_lt hp.sync_lt).symm

/-! ## Quiet files -/

theorem Quiet.seesNothing (h : Quiet file) (es : List Event) :
    Along Ring.step (fun σ _ => SeesNothing file σ) init es := by
  have hany : Along Ring.step (fun _ _ => True) init es := along_of_forall fun _ _ _ => trivial
  refine hany.of_invariant FreshInv (fun _ _ _ hinv _ hstep => hinv.step hstep) ?_ freshInv_init
  exact fun σ e hinv _ r hr _ => h r.index (hinv.stands r hr).index_lt

/-- Each run on a quiet file has its mirror on a fresh ring, and the other way round. -/
theorem Quiet.carries (h : Quiet file) (es : List Event) :
    Option.Rel (Carries file) (run Ring.step init es) (run Ring.step (opened file) es) :=
  run_lockstep (fun _ _ _ h hP => h.step hP) (carries_opened file) (h.seesNothing es)

/-- On a quiet file the session is one on a fresh ring. -/
theorem Quiet.ownSession (h : Quiet file) : OwnSession SlotKept file := by
  constructor
  · intro es τ hτ hkept
    have hrel := h.carries es
    rw [hτ] at hrel
    generalize run Ring.step init es = a at hrel
    cases hrel with
    | some hc => exact hc.acceptsOwn hkept
  · intro es σ hσ
    have hrel := h.carries es
    rw [hσ] at hrel
    generalize hτ : run Ring.step (opened file) es = b at hrel
    cases hrel with
    | @some _ τ hc =>
        refine ⟨τ, rfl, fun n hn => ?_⟩
        have hnumbers := congrArg (List.map Prod.fst) hc.accepted
        simp only [List.map_map] at hnumbers
        have heq : τ.accepted.map Prod.fst = σ.accepted.map Prod.fst := hnumbers
        exact heq ▸ hn

/-! ## Following the writer to a slot that is not quiet -/

theorem prepareNext_stays (r : IstreamRing) (m : Mem) :
    (prepareNext r m).2.isClosed = r.isClosed ∧ (prepareNext r m).2.index = r.index := by
  obtain hsame | ⟨-, -, htake⟩ := prepareNext_snd_cases r m
  · rw [hsame]
    exact ⟨rfl, rfl⟩
  · rw [htake, takeSlot]
    exact ⟨rfl, rfl⟩

/-- The reader is open and on slot `n`. -/
def ReaderOn (n : Nat) (σ : System) : Prop :=
  ∀ r, σ.reader = some r → r.isClosed = false ∧ r.index = n

theorem ReaderOn.byWriter {n : Nat} {e : Event} (h : ReaderOn n σ) (he : e.byReader = false)
    (hstep : Ring.step σ e = some σ') : ReaderOn n σ' := by
  rw [ReaderOn, (step_byWriter he hstep).1]
  exact h

theorem ReaderOn.startRead {n : Nat} (h : ReaderOn n σ)
    (hstep : Ring.step σ .startRead = some σ') : ReaderOn n σ' := by
  obtain ⟨r, hr, ⟨out, size, -, rfl⟩ | ⟨-, rfl⟩⟩ := step_startRead hstep
  all_goals
    rintro r' ⟨⟩
    rw [camioIstreamRingStartRead_snd σ.mem (h r hr).1, (prepareNext_stays r σ.mem).1,
      (prepareNext_stays r σ.mem).2]
    exact h r hr

theorem ReaderOn.seesNothing {n : Nat} (h : ReaderOn n σ) (hquiet : QuietSlot file n) :
    SeesNothing file σ := by
  intro r hr _
  rw [(h r hr).2]
  exact hquiet

/-- A reader that has read everything sees nothing in the next slot until it is done with
    the message that comes there. -/
theorem AllRead.seesNothing_round {n : Nat} (h : AllRead n σ) (hn : n < 1024)
    (hquiet : QuietSlot file n) : Along Ring.step (fun σ _ => SeesNothing file σ) σ round := by
  have hon : ReaderOn n σ := by
    intro r hr
    rw [h.reader] at hr
    obtain rfl := Option.some.inj hr
    exact ⟨rfl, Nat.mod_eq_of_lt hn⟩
  refine ⟨hon.seesNothing hquiet, fun σ₁ h₁ => ?_⟩
  have hon₁ := hon.byWriter rfl h₁
  refine ⟨hon₁.seesNothing hquiet, fun σ₂ h₂ => ?_⟩
  have hon₂ := hon₁.byWriter rfl h₂
  refine ⟨hon₂.seesNothing hquiet, fun σ₃ h₃ => ?_⟩
  have hon₃ := hon₂.byWriter rfl h₃
  refine ⟨hon₃.seesNothing hquiet, fun σ₄ h₄ => ?_⟩
  exact ⟨(hon₃.startRead h₄).seesNothing hquiet, fun _ _ => trivial⟩

theorem seesNothing_rounds {n : Nat} (hn : n ≤ 1024) (hquiet : ∀ k < n, QuietSlot file k) :
    Along Ring.step (fun σ _ => SeesNothing file σ) init (rounds n) := by
  induction n with
  | zero => exact ⟨nofun, fun _ _ => trivial⟩
  | succ n ih =>
      have hn' : n < 2 ^ 64 := Nat.lt_of_lt_of_le hn (by decide)
      obtain ⟨σ, hrun, h⟩ := run_rounds hn'
      have halong := ih (Nat.le_of_succ_le hn) fun k hk => hquiet k (Nat.lt_succ_of_lt hk)
      rw [rounds_succ]
      exact halong.append hrun (h.seesNothing_round hn (hquiet n (Nat.lt_succ_self n)))

/-- Over quiet slots the reader follows its writer as on a fresh ring. -/
theorem follow {n : Nat} (hn : n ≤ 1024) (hquiet : ∀ k < n, QuietSlot file k) :
    ∃ σ τ, run Ring.step init (rounds n) = some σ ∧
      run Ring.step (opened file) (rounds n) = some τ ∧ AllRead n σ ∧ Mirrors file σ τ := by
  obtain ⟨σ, hσ, hread⟩ := run_rounds (n := n) (by omega)
  have hrel := mirrors_of_run (seesNothing_rounds hn hquiet)
  rw [hσ] at hrel
  cases hτ : run Ring.step (opened file) (rounds n) with
  | none => rw [hτ] at hrel; cases hrel
  | some τ =>
      rw [hτ] at hrel
      cases hrel with
      | some hm => exact ⟨σ, τ, hσ, rfl, hread, hm⟩

/-- On a fresh ring there is nothing in that slot yet. -/
theorem AllRead.step_ready {n : Nat} (h : AllRead n σ) (hn : n < 1024) :
    Ring.step σ .ready = some σ := by
  have hlen : σ.committed.length = n := by rw [h.committed, List.length_replicate]
  have hreader := h.reader
  rw [Nat.mod_eq_of_lt hn, Nat.mod_eq_of_lt (by omega)] at hreader
  have hword : syncWord σ.mem (n * slotSize) = 0 :=
    h.writer.syncWord_unwritten hn (Nat.le_of_eq hlen)
  simp only [Ring.step, hreader, Option.map_some]
  rw [camioIstreamRingReady_snd σ.mem rfl, Ring.prepareNext_eq, if_neg (by simp),
    if_neg (by dsimp only; omega), ← hreader]

/-- The reader at the end: it stands on slot `n`, which is as the file left it, and has
    nothing in hand. -/
theorem AllRead.mirrored {n : Nat} (h : AllRead n σ) (hm : Mirrors file σ τ) (hn : n < 1024) :
    τ.reader = some { isClosed := false, curr := n * slotSize, readSize := 0
                      syncCounter := n + 1, index := n } ∧
      τ.pending = none ∧ τ.committed.length = n ∧ τ.untouched = slotSize ∧
      slotWords τ.mem n = slotWords file n := by
  have hlen : σ.committed.length = n := by rw [h.committed, List.length_replicate]
  have hreader := h.reader
  rw [Nat.mod_eq_of_lt hn, Nat.mod_eq_of_lt (by omega)] at hreader
  refine ⟨hm.reader.trans hreader, ?_, hm.count.trans hlen, hm.untouched.trans h.untouched,
    hm.rest n hn (Nat.le_of_eq hlen)⟩
  have hnone : σ.pending = none := by
    cases hbytes : σ.pending with
    | none => rfl
    | some bytes =>
        obtain ⟨r, hr, hread, -⟩ := hm.fresh.pending bytes hbytes
        obtain rfl := Option.some.inj (hreader.symm.trans hr)
        exact absurd rfl hread
  have hpending := hm.pending
  rw [hnone] at hpending
  exact Option.map_eq_none_iff.mp hpending

/-- A counter that is up to the reader's and beyond the writer's, with a payload: the reader
    is handed, and would accept, what its writer never committed. -/
theorem step_startRead_leftOver (hr : σ.reader = some r) (hopen : r.isClosed = false)
    (hread : r.readSize = 0) (hle : r.syncCounter ≤ syncWord σ.mem r.curr)
    (hc : σ.committed.length < syncWord σ.mem r.curr) (hlen : lenWord σ.mem r.curr ≠ 0)
    (hlen' : lenWord σ.mem r.curr ≤ 4080) :
    ∃ σ', Ring.step σ .startRead = some σ' ∧ ¬ AcceptsOwn σ' ∧
      σ'.committed = σ.committed ∧ σ'.untouched = σ.untouched ∧
      ∀ r', σ'.reader = some r' → r'.readSize ≤ 4080 := by
  refine ⟨_, step_startRead_of_le hr hopen hread hle hlen hlen', fun hown => ?_, rfl, rfl, ?_⟩
  · have hzero : (camioIstreamRingEndRead (takeSlot r σ.mem) σ.mem).1 = 0 := by
      rw [camioIstreamRingEndRead_eq_zero_iff]
      dsimp only [takeSlot]
    obtain ⟨⟨m, -, hm, hsync, -⟩, -⟩ := hown _ _ rfl rfl hzero
    -- the number of a committed message is not beyond the writer's counter
    have hmod : m % 2 ^ 64 ≤ m := Nat.mod_le _ _
    dsimp only [takeSlot] at hm hsync
    omega
  · rintro r' ⟨⟩
    exact hlen'

/-- Nothing has been stored into the writer's slot since the last commit. -/
theorem slotKept_of_untouched (hN : σ.committed.length < 2 ^ 64) (h : σ.untouched = slotSize)
    (hsize : ∀ r, σ.reader = some r → r.readSize ≤ 4080) : SlotKept σ := by
  refine ⟨hN, fun r hr _ => ?_⟩
  rw [h]
  exact Nat.le_trans (hsize r hr) (by decide)

/-- A counter beyond the reader's, without a payload: the reader takes the counter over
    and waits while its writer's message goes by. -/
theorem run_ready_round {n : Nat} (hr : τ.reader = some { isClosed := false, curr := n * slotSize
                                                          readSize := 0, syncCounter := n + 1
                                                          index := n })
    (hpending : τ.pending = none) (hbuf : τ.writer.assignedBuffer = none)
    (hcurr : τ.writer.curr = n * slotSize) (hindex : τ.writer.index = n)
    (hsync : τ.writer.syncCount = n) (hn : n < 1024)
    (hc : n + 1 < syncWord τ.mem (n * slotSize)) (hlen : lenWord τ.mem (n * slotSize) = 0) :
    run Ring.step τ (.ready :: round) = none := by
  have hready : Ring.step τ .ready = some { τ with
      reader := some { isClosed := false, curr := n * slotSize, readSize := 0
                       syncCounter := syncWord τ.mem (n * slotSize), index := n } } := by
    simp only [Ring.step, hr, Option.map_some]
    rw [camioIstreamRingReady_snd τ.mem rfl, Ring.prepareNext_eq, if_neg (by simp),
      if_pos (Nat.le_of_lt hc), takeSlot, hlen]
  have hput := run_putInPlace_eq (σ := { τ with
      reader := some { isClosed := false, curr := n * slotSize, readSize := 0
                       syncCounter := syncWord τ.mem (n * slotSize), index := n } })
    (p := [7]) (by decide) hbuf
  -- the writer's message carries the lower counter
  have hword : syncWord (commitMem τ.writer (τ.mem.write τ.writer.curr [7]) 1) (n * slotSize)
      = n + 1 := by
    rw [← hindex, commitMem_syncWord (by rw [hcurr, hindex]), hsync, hindex,
      Nat.mod_eq_of_lt (by omega)]
  rw [run_cons, hready, Option.bind_some, round, run_append, hput, Option.bind_some, run_cons,
    step_startRead_of_lt rfl rfl rfl (by dsimp only; rw [List.length_singleton, hword]; exact hc),
    Option.bind_some, run_cons]
  simp only [Ring.step, hpending, Option.bind_none]

/-- So a file that gives the reader only its own session is quiet. -/
theorem OwnSession.quiet (h : OwnSession SlotKept file) (hfit : LensFit file) : Quiet file := by
  classical
  by_contra hnot
  -- the first slot that is not quiet
  have hex : ∃ j, j < 1024 ∧ ¬ QuietSlot file j := by
    simpa [Quiet] using hnot
  obtain ⟨hj, hslot⟩ := Nat.find_spec hex
  have hmin : ∀ k < Nat.find hex, QuietSlot file k := fun k hk => by
    by_contra hk'
    exact Nat.find_min hex hk ⟨Nat.lt_trans hk hj, hk'⟩
  generalize Nat.find hex = j at hj hslot hmin
  obtain ⟨σ, τ, hσ, hτ, hread, hm⟩ := follow (Nat.le_of_lt hj) hmin
  obtain ⟨hr, hpending, hcount, huntouched, hwords⟩ := hread.mirrored hm hj
  obtain ⟨hsyncWord, hlenWord⟩ := Prod.mk.inj hwords
  have hfits := hfit j hj
  by_cases hlen : lenWord file (j * slotSize) = 0
  · -- the reader's writer is overlooked
    have hc : j + 1 < syncWord file (j * slotSize) := by
      by_contra hle
      exact hslot ⟨Nat.le_of_not_lt hle, fun _ => hlen⟩
    have hlen' : σ.committed.length = j := by rw [hread.committed, List.length_replicate]
    have hw := hm.fresh.writer
    have hindex : σ.writer.index = j := by rw [hw.index, hlen', Nat.mod_eq_of_lt hj]
    have hnone : run Ring.step τ (.ready :: round) = none := by
      apply run_ready_round hr hpending
      · rw [hm.writer]
        exact hread.unassigned
      · rw [hm.writer, hw.curr, hindex]
      · rw [hm.writer, hindex]
      · rw [hm.writer, hw.syncCount, hlen', Nat.mod_eq_of_lt (by omega)]
      · exact hj
      · rw [hsyncWord]
        exact hc
      · rw [hlenWord]
        exact hlen
    -- on a fresh ring the same calls have the reader accept its message
    obtain ⟨σ', hround, hread'⟩ := hread.run_round (by omega)
    have hrun := run_trans hσ (run_cons_eq_some.mpr ⟨σ, hread.step_ready hj, hround⟩)
    obtain ⟨τ', hτ', -⟩ := h.2 _ _ hrun
    rw [run_append, hτ, Option.bind_some, hnone] at hτ'
    cases hτ'
  · have hc : j < syncWord file (j * slotSize) := by
      by_contra hle
      exact hslot ⟨by omega, fun heq => by omega⟩
    obtain ⟨τ', hstart, hnot, hcommitted, huntouched', hsize⟩ :=
      step_startRead_leftOver hr rfl rfl (by rw [hsyncWord]; exact hc)
        (by rw [hsyncWord, hcount]; exact hc) (by rw [hlenWord]; exact hlen)
        (by rw [hlenWord]; exact hfits)
    have hrun : run Ring.step (opened file) (rounds j ++ [.startRead]) = some τ' :=
      run_trans hτ (run_cons_eq_some.mpr ⟨τ', hstart, rfl⟩)
    apply hnot
    apply h.1 _ τ' hrun
    apply slotKept_of_untouched
    · rw [hcommitted, hcount]
      omega
    · exact huntouched'.trans huntouched
    · exact hsize

/-- A left-over ring file gives a reader nothing but its own session, in every run, exactly
    if it is quiet; this is for calls of `end_read` while the slot is kept. -/
theorem own_session_iff_quiet (h : LeftOver file) : OwnSession SlotKept file ↔ Quiet file :=
  ⟨fun hown => hown.quiet h.lensFit, Quiet.ownSession⟩

/-- For a file that one writer created: it is quiet if this writer committed at most a lap
    of messages, all of them empty. -/
theorem quiet_iff_of_run {es : List Event} (hrun : run Ring.step init es = some σ)
    (hN : σ.committed.length < 2 ^ 64) :
    Quiet σ.mem ↔ σ.committed.length ≤ 1024 ∧ ∀ p ∈ σ.committed, p = [] := by
  have hw := writerInv_of_run hrun
  have hsync : ∀ j < 1024, syncWord σ.mem (j * slotSize) = lastIn σ.committed.length j := by
    intro j hj
    have hle := lastIn_le σ.committed.length j
    rw [hw.sync j hj, Nat.mod_eq_of_lt (by omega)]
  constructor
  · intro hquiet
    -- beyond a lap, slot 0 would have been written again
    have hlap : σ.committed.length ≤ 1024 := by
      have h0 := (hquiet 0 (by decide)).1
      rw [hsync 0 (by decide), lastIn] at h0
      split at h0 <;> omega
    refine ⟨hlap, fun p hp => ?_⟩
    obtain ⟨i, hi, rfl⟩ := List.getElem_of_mem hp
    have hlast : lastIn σ.committed.length i = i + 1 := by
      rw [lastIn, if_neg (by omega)]
      omega
    have hlen := (hquiet i (by omega)).2 ((hsync i (by omega)).trans hlast)
    rw [hw.len i (by omega), lastPayload, if_neg (by omega), hlast, Nat.add_sub_cancel,
      List.getD_eq_getElem _ _ hi] at hlen
    exact List.eq_nil_of_length_eq_zero hlen
  · rintro ⟨hlap, hempty⟩ j hj
    constructor
    · rw [hsync j hj, lastIn]
      split <;> omega
    · intro heq
      rw [hsync j hj] at heq
      rw [hw.len j hj, lastPayload, if_neg (by omega), heq, Nat.add_sub_cancel,
        List.getD_eq_getElem _ _ (by have := lastIn_le σ.committed.length j; omega),
        hempty _ (List.getElem_mem _), List.length_nil]

/-- A message that is written before the reader looks at its slot replaces what the file has
    there. -/
theorem run_opened_round (file : Mem) :
    ∃ τ, run Ring.step (opened file) (.openReader :: round) = some τ ∧
      τ.committed = [[7]] ∧ τ.accepted = [(1, [7])] := by
  have hput := run_putInPlace_eq (σ := { opened file with reader := some openedReader })
    (p := [7]) (by decide) rfl
  generalize hm : commitMem (opened file).writer
    ((opened file).mem.write (opened file).writer.curr [7]) [7].length = m at hput
  -- the counter, the length and the byte of slot 0
  have hsync : syncWord m openedReader.curr = 1 := by
    rw [← hm]
    exact commitMem_syncWord (w := init.writer) rfl
  have hlen : lenWord m openedReader.curr = 1 := by
    rw [← hm]
    exact commitMem_lenWord (w := init.writer) rfl (by decide)
  have hdata : m.read openedReader.curr 1 = [7] := by
    rw [← hm]
    exact (commitMem_read (w := init.writer) (show 1 ≤ 4080 by decide)).trans
      (file.read_write_same _ _)
  have hread := run_read (σ := { opened file with
      reader := some openedReader, writer := commitWriter init.writer, mem := m
      untouched := slotSize, committed := [[7]] }) rfl rfl rfl (Nat.le_of_eq hsync.symm)
    (ne_of_eq_of_ne hlen Nat.one_ne_zero) (Nat.le_trans (Nat.le_of_eq hlen) (by decide))
  have hopen : Ring.step (opened file) .openReader
      = some { opened file with reader := some openedReader } := rfl
  refine ⟨_, run_cons_eq_some.mpr ⟨_, hopen, run_trans hput hread⟩, rfl, ?_⟩
  dsimp only
  rw [hsync, hlen, hdata]
  rfl

/-- The ring that a writer leaves behind after one message of no bytes; and a session on it
    whose reader accepts a message. -/
theorem own_session_iff_quiet_empty_message :
    ∃ σ τ, run Ring.step init [.endWrite 0] = some σ ∧ OwnSession SlotKept σ.mem ∧
      run Ring.step (opened σ.mem) (.openReader :: round) = some τ ∧
      τ.committed = [[7]] ∧ τ.accepted = [(1, [7])] := by
  obtain ⟨σ, hrun, hold⟩ : ∃ σ, run Ring.step init [.endWrite 0] = some σ ∧
      σ.committed = [payload init.writer init.mem 0] :=
    ⟨_, run_cons_eq_some.mpr ⟨_, step_endWrite_of_le (Nat.zero_le 4080), rfl⟩, rfl⟩
  obtain ⟨τ, hround, hcommitted, haccepted⟩ := run_opened_round σ.mem
  refine ⟨σ, τ, hrun, ?_, hround, hcommitted, haccepted⟩
  apply (own_session_iff_quiet (LeftOver.session .created hrun)).mpr
  apply (quiet_iff_of_run hrun ?_).mpr ⟨?_, ?_⟩
  · simp [hold]
  · simp [hold]
  · intro p hp
    rw [hold, List.mem_singleton] at hp
    rw [hp]
    exact List.eq_nil_of_length_eq_zero (payload_length _ _ _)

/-- After a writer that committed one byte, a new reader is handed the old message before
    its own writer has written anything. -/
theorem own_session_fails_one_byte :
    ¬ ∀ file, LeftOver file → OwnSession (fun _ => True) file := by
  intro hall
  have hput := run_putInPlace_eq (σ := init) (p := [7]) (by decide) rfl
  have hown := hall _ (LeftOver.session .created hput)
  generalize hfile : commitMem init.writer (init.mem.write init.writer.curr [7]) [7].length = file
    at hown
  have hsync : syncWord file openedReader.curr = 1 := by
    rw [← hfile]
    exact commitMem_syncWord (w := init.writer) rfl
  have hlen : lenWord file openedReader.curr = 1 := by
    rw [← hfile]
    exact commitMem_lenWord (w := init.writer) rfl (by decide)
  have hopen : Ring.step (opened file) .openReader
      = some { opened file with reader := some openedReader } := rfl
  obtain ⟨σ, hstart, hnot, -⟩ := step_startRead_leftOver
    (σ := { opened file with reader := some openedReader }) rfl rfl rfl
    (Nat.le_of_eq hsync.symm) (Nat.lt_of_lt_of_eq Nat.one_pos hsync.symm)
    (ne_of_eq_of_ne hlen Nat.one_ne_zero) (Nat.le_trans (Nat.le_of_eq hlen) (by decide))
  apply hnot
  apply hown.1 [.openReader, .startRead] σ ?_ trivial
  exact run_cons_eq_some.mpr ⟨_, hopen, run_cons_eq_some.mpr ⟨σ, hstart, rfl⟩⟩

end Camio.Ring
