/-
  Camio.Ring.Reopen

  A writer that opens a ring file which is there already.  `open` maps such a file as
  it is, so the slots keep the counters, lengths and bytes of whoever wrote them last,
  while the writer starts over with its own counter.

  A file is left over if it is the ring of a session, of any number of calls, whose
  writer never closed it (closing deletes the file).
-/

import Camio.Ring.System

namespace Camio.Ring

open Camio.Lib Camio.Descr

variable {file : Mem} {σ σ' : System}

/-- A writer that has just opened the ring file; no reader yet. -/
def opened (file : Mem) : System := { init with mem := file }

/-- This is what construction and `open` on the existing file leave. -/
theorem opened_eq (descr : CamioDescr) (hquery : descr.query.isSome)
    (hopts : descr.optHead = none) (file : Mem) :
    camioOstreamRingOpen camioOstreamRingConstruct descr (some file)
      = .ok ((opened file).writer, (opened file).mem) := by
  have h1 := Option.not_isSome_iff_eq_none.mpr hopts
  have h2 := CamioDescr.not_isNone_query hquery
  rw [camioOstreamRingOpen, if_neg h1, if_neg h2]
  rfl

/-- The ring files that sessions leave behind whose writers never close them: the first
    one creates the file, each of the others finds what the one before has left. -/
inductive LeftOver : Mem → Prop where
  | created : LeftOver zeroRing
  | session {file : Mem} {es : List Event} {σ : System} :
      LeftOver file → run step (opened file) es = some σ → LeftOver σ.mem

/-! ## The writer stays in its slot -/

/-- The writer's pointer is that of its slot, and so is the one it handed out. -/
structure InSlot (σ : System) : Prop where
  curr : σ.writer.curr = σ.writer.index * slotSize
  index_lt : σ.writer.index < 1024
  granted : ∀ p ∈ σ.granted, p = σ.writer.curr

theorem inSlot_opened (file : Mem) : InSlot (opened file) :=
  ⟨(Nat.zero_mul slotSize).symm, Nat.zero_lt_of_lt (Nat.lt_succ_self 1023),
    fun p hp => by cases hp⟩

theorem InSlot.step {e : Event} (h : InSlot σ) (hstep : step σ e = some σ') : InSlot σ' := by
  cases e with
  | startWrite len =>
      cases hstep
      refine { h with granted := ?_ }
      intro p hp
      exact (camioOstreamRingStartWrite_some hp).2
  | fill off bytes =>
      obtain ⟨p, -, -, rfl⟩ := step_fill hstep
      exact { h with }
  | assignWrite buffer len =>
      obtain ⟨b, -, rfl⟩ := step_assignWrite hstep
      exact { h with }
  | endWrite len =>
      obtain ⟨-, rfl⟩ := step_endWrite hstep
      exact ⟨rfl, Nat.mod_lt _ (by decide), by simp⟩
  | openReader | ready | startRead | endRead =>
      obtain ⟨_, _, _, rfl⟩ := step_byReader rfl hstep
      exact { h with }

/-- In every reachable state of a writer, whatever the file held before. -/
theorem inSlot_of_run {es : List Event} (hrun : run step (opened file) es = some σ) : InSlot σ :=
  run_invariant InSlot (fun _ _ _ h hstep => InSlot.step h hstep) (inSlot_opened file) hrun

/-- The words of a slot after the caller has stored into the space it was handed. -/
theorem InSlot.fill_words (h : InSlot σ) {off : Nat} {bytes : List UInt8}
    (hstep : Ring.step σ (.fill off bytes) = some σ') (j : Nat) :
    syncWord σ'.mem (j * slotSize) = syncWord σ.mem (j * slotSize) ∧
    lenWord σ'.mem (j * slotSize) = lenWord σ.mem (j * slotSize) := by
  obtain ⟨p, hp, hle, rfl⟩ := step_fill hstep
  have hcurr : p = σ.writer.index * slotSize := (h.granted p hp).trans h.curr
  subst hcurr
  exact words_write_payload hle

/-! ## The lengths of a file that was left over -/

/-- No slot claims more than it can hold. -/
def LensFit (file : Mem) : Prop := ∀ j < 1024, lenWord file (j * slotSize) ≤ 4080

theorem lensFit_step {e : Event} (hin : InSlot σ) (hstep : step σ e = some σ')
    (h : LensFit σ.mem) : LensFit σ'.mem := by
  cases e with
  | startWrite len =>
      cases hstep
      exact h
  | fill off bytes =>
      intro j hj
      rw [(hin.fill_words hstep j).2]
      exact h j hj
  | assignWrite buffer len =>
      obtain ⟨b, -, rfl⟩ := step_assignWrite hstep
      exact h
  | endWrite len =>
      obtain ⟨hlen, rfl⟩ := step_endWrite hstep
      intro j hj
      -- the length word of the slot that is committed, and those of the others
      by_cases hj' : j = σ.writer.index
      · subst hj'
        show lenWord (commitMem σ.writer σ.mem len) _ ≤ 4080
        rw [commitMem_lenWord hin.curr hlen]
        exact hlen
      · show lenWord (commitMem σ.writer σ.mem len) _ ≤ 4080
        rw [(commitMem_words_ne hin.curr hlen hj').2]
        exact h j hj
  | openReader | ready | startRead | endRead =>
      obtain ⟨_, _, _, rfl⟩ := step_byReader rfl hstep
      exact h

theorem LeftOver.lensFit (h : LeftOver file) : LensFit file := by
  induction h with
  | created =>
      intro j _
      rw [lenWord_zeroRing]
      exact Nat.zero_le 4080
  | session _ hrun ih =>
      refine (run_invariant (fun σ => InSlot σ ∧ LensFit σ.mem) ?_ ⟨inSlot_opened _, ih⟩ hrun).2
      rintro σ e σ' ⟨hin, hfit⟩ hstep
      exact ⟨hin.step hstep, lensFit_step hin hstep hfit⟩

end Camio.Ring
