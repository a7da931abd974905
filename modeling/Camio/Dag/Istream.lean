/-
  Camio.Dag.Istream

  `camio_istream_dag.c` on a DAG stream: what `start_read` hands out while the card writes.
-/

import Camio.Dag.Fifo
import Camio.Erf.Dag

namespace Camio.Dag

open Camio.Lib Camio.Erf

/-- An open stream and the DAG stream under it. -/
structure Reader where
  istream : IstreamDag
  session : Session
  /-- how many records `end_read` has ended -/
  ended : Nat
  /-- what `start_read` has handed out, with `ended` at that time -/
  handedOut : List (Nat × List UInt8)

/-- What the card writes during a call of the library. -/
abbrev Writing := Nat × Bool

inductive Call where
  | arrive (w : Writing)
  | ready (w : Writing)
  /-- `polls` are the rounds of the loop that spins -/
  | startRead (polls : List Writing)
  | endRead

/-- `prepare_next`. -/
def Reader.prepareNext (ρ : Reader) (w : Writing) : Option (Nat × Reader) :=
  if ρ.istream.dagData.isSome then some (ρ.istream.dataSize, ρ)
  else
    (step ρ.session (.next w.1 w.2)).map fun session =>
      let (found, istream) := dagPrepareNext ρ.istream
        { mem := session.view, record := session.held.map Prod.fst }
      (found, { ρ with istream := istream, session := session })

/-- `camio_istream_dag_ready`. -/
def Reader.ready (ρ : Reader) (w : Writing) : Option (Nat × Reader) :=
  if ρ.istream.dataSize ≠ 0 ∨ ρ.istream.isClosed then some (1, ρ) else ρ.prepareNext w

/-- The loop of `start_read`, with 0 if it is not at its end. -/
def Reader.spin : Reader → List Writing → Option (Nat × Reader)
  | ρ, [] => some (0, ρ)
  | ρ, w :: polls =>
      (ρ.prepareNext w).bind fun (found, ρ) =>
        if found = 0 then Reader.spin ρ polls else some (found, ρ)

/-- `start_read` hands out `dag_data` and `data_size`. -/
def Reader.handOut (ρ : Reader) : Reader :=
  match ρ.istream.dagData with
  | none => ρ
  | some p => { ρ with
      handedOut := ρ.handedOut ++ [(ρ.ended, ρ.session.view.read p ρ.istream.dataSize)] }

/-- `camio_istream_dag_start_read`.  If the loop is not at its end nothing is handed out yet. -/
def Reader.startRead (ρ : Reader) (polls : List Writing) : Option Reader :=
  if ρ.istream.isClosed then some ρ
  else
    (if ρ.istream.dataSize = 0 then ρ.spin polls else some (ρ.istream.dataSize, ρ)).map
      fun (found, ρ) => if found = 0 then ρ else ρ.handOut

/-- `camio_istream_dag_end_read`. -/
def Reader.endRead (ρ : Reader) : Reader :=
  { ρ with
    istream := (camioIstreamDagEndRead ρ.istream).2
    ended := if ρ.istream.dagData.isSome then ρ.ended + 1 else ρ.ended }

def call (ρ : Reader) : Call → Option Reader
  | .arrive w => (step ρ.session (.arrive w.1 w.2)).map fun session => { ρ with session := session }
  | .ready w => (ρ.ready w).map Prod.snd
  | .startRead polls => ρ.startRead polls
  | .endRead => some ρ.endRead

section Stream

variable {ρ ρ' : Reader} {found : Nat}

theorem Reader.prepareNext_eq {w : Writing} (h : ρ.prepareNext w = some (found, ρ')) :
    ∃ next, dagPrepareNext ρ.istream next = (found, ρ'.istream) := by
  rw [Reader.prepareNext] at h
  split_ifs at h with hdata
  · obtain ⟨rfl, rfl⟩ := Prod.mk.inj (Option.some.inj h)
    exact ⟨⟨fun _ => 0, none⟩, by rw [dagPrepareNext, if_pos hdata]⟩
  · obtain ⟨session, -, heq⟩ := Option.map_eq_some_iff.mp h
    obtain ⟨rfl, rfl⟩ := Prod.mk.inj heq
    exact ⟨_, rfl⟩

theorem Reader.spin_eq {polls : List Writing} (h : ρ.spin polls = some (found, ρ'))
    (hfound : found ≠ 0) : ∃ nexts, dagSpin ρ.istream nexts = some ρ'.istream := by
  induction polls generalizing ρ with
  | nil =>
      obtain ⟨rfl, rfl⟩ := Prod.mk.inj (Option.some.inj h)
      exact absurd rfl hfound
  | cons w polls ih =>
      obtain ⟨⟨found₁, ρ₁⟩, hprepare, hrest⟩ := Option.bind_eq_some_iff.mp h
      obtain ⟨next, hnext⟩ := Reader.prepareNext_eq hprepare
      dsimp only at hrest
      split_ifs at hrest with hzero
      · obtain ⟨nexts, hspin⟩ := ih hrest
        refine ⟨next :: nexts, ?_⟩
        rw [dagSpin, hnext, if_pos hzero]
        exact hspin
      · obtain ⟨rfl, rfl⟩ := Prod.mk.inj (Option.some.inj hrest)
        refine ⟨[next], ?_⟩
        rw [dagSpin, hnext, if_neg hzero]

/-- What `start_read` hands out is what the stream returns. -/
theorem Reader.startRead_eq {polls : List Writing} {p : Nat} (hopen : ρ.istream.isClosed = false)
    (hempty : ρ.istream.dataSize = 0) (h : ρ.spin polls = some (found, ρ')) (hfound : found ≠ 0)
    (hp : ρ'.istream.dagData = some p) :
    ∃ nexts, camioIstreamDagStartRead ρ.istream nexts
        = some (some (some p, ρ'.istream.dataSize), ρ'.istream) ∧
      ρ.startRead polls = some { ρ' with handedOut :=
        ρ'.handedOut ++ [(ρ'.ended, ρ'.session.view.read p ρ'.istream.dataSize)] } := by
  obtain ⟨nexts, hspin⟩ := Reader.spin_eq h hfound
  refine ⟨nexts, ?_, ?_⟩
  · rw [camioIstreamDagStartRead, if_neg (by simp [hopen]), if_pos hempty, hspin, Option.map_some,
      hp]
  · rw [Reader.startRead, if_neg (by simp [hopen]), if_pos hempty, h, Option.map_some]
    dsimp only
    rw [if_neg hfound, Reader.handOut, hp]

end Stream

/-- What the stream has found and not ended yet: nothing, or the record that comes next. -/
inductive Pending (records : List (List UInt8)) (ρ : Reader) : Prop where
  | nothing (hdata : ρ.istream.dagData = none) (hsize : ρ.istream.dataSize = 0)
      (htaken : ρ.session.taken.length = ρ.ended)
  | record {p : Nat} {r : List UInt8} (hdata : ρ.istream.dagData = some p)
      (hsize : ρ.istream.dataSize = r.length) (htaken : ρ.session.taken.length = ρ.ended + 1)
      (hr : records[ρ.ended]? = some r) (hheld : ρ.session.held = some (p, r.length))

/-- A state that the stream and the card may reach. -/
structure Reader.Inv (records : List (List UInt8)) (size : Nat) (ρ : Reader) : Prop where
  session : ρ.session.Inv records size
  isOpen : ρ.istream.isClosed = false
  pending : Pending records ρ
  handedOut : ∀ j bytes, (j, bytes) ∈ ρ.handedOut → records[j]? = some bytes

section Calls

variable {records : List (List UInt8)} {size : Nat} {ρ : Reader}

/-- The library has checked the type already. -/
theorem recordType_ne_zero {m : Mem} {p : Nat} (h : TypeOk m p) : recordType m p ≠ 0 := by
  intro hzero
  rw [TypeOk, hzero] at h
  exact absurd h.1 (by decide)

/-- A record that the library returns is one to `prepare_next`. -/
theorem dagPrepareNext_returned {s : IstreamDag} {st : StreamT} {c : Card} {n p : Nat}
    {r : List UInt8} (hrecord : IsRecord r) (hret : Returns records size n p r st c)
    (hdata : s.dagData = none) :
    dagPrepareNext s { mem := twice size c.hole, record := some p }
      = (r.length, { s with dagData := some p, dataSize := r.length }) := by
  have htype : recordType (twice size c.hole) p ≠ 0 :=
    recordType_ne_zero (hret.header hrecord).2
  rw [dagPrepareNext, hdata, if_neg (by simp)]
  dsimp only
  rw [if_neg htype, (hret.header hrecord).1]

/-- `prepare_next` finds the next record, or nothing yet. -/
theorem Reader.Inv.prepareNext (hsize : HoleSize size) (hrecords : ∀ r ∈ records, IsRecord r)
    (h : ρ.Inv records size) (w : Writing) :
    ∃ ρ', ρ.prepareNext w = some (ρ'.istream.dataSize, ρ') ∧ ρ'.Inv records size := by
  cases h.pending with
  | record hdata hrest htaken hr hheld =>
      exact ⟨ρ, by rw [Reader.prepareNext, hdata, if_pos (by simp)], h⟩
  | nothing hdata hnone htaken =>
      rw [Reader.prepareNext, hdata, if_neg (by simp)]
      obtain ⟨s, c, -, ⟨p, r, hret, heq⟩ | ⟨e, hfail, heq⟩⟩ :=
        h.session.step_cases hsize hrecords w.1 w.2
      · have hsession := h.session.returned hret
        have hr := hret.record
        rw [htaken] at hr
        have hprepare := dagPrepareNext_returned (hrecords r (List.mem_of_getElem? hret.record))
          hret hdata
        rw [heq, Option.map_some]
        dsimp only [Session.view, Option.map_some]
        rw [hsession.size_eq, hprepare]
        exact ⟨{ ρ with
          istream := { ρ.istream with dagData := some p, dataSize := r.length }
          session := ⟨s, c, ρ.session.taken ++ [r], some (p, r.length)⟩ }, rfl, hsession, h.isOpen,
          .record rfl rfl (by simp [htaken]) hr rfl, h.handedOut⟩
      · have hsession := h.session.failed hfail
        rw [heq, Option.map_some]
        dsimp only [Option.map_none]
        rw [dagPrepareNext, hdata, if_neg (by simp)]
        exact ⟨{ ρ with session := ⟨s, c, ρ.session.taken, none⟩ }, by simp [hnone], hsession,
          h.isOpen, .nothing hdata hnone htaken, h.handedOut⟩

theorem Reader.Inv.spin (hsize : HoleSize size) (hrecords : ∀ r ∈ records, IsRecord r)
    (h : ρ.Inv records size) (polls : List Writing) :
    ∃ found ρ', ρ.spin polls = some (found, ρ') ∧ ρ'.Inv records size := by
  induction polls generalizing ρ with
  | nil => exact ⟨0, ρ, rfl, h⟩
  | cons w polls ih =>
      obtain ⟨ρ₁, hprepare, h₁⟩ := h.prepareNext hsize hrecords w
      rw [Reader.spin, hprepare, Option.bind_some]
      dsimp only
      by_cases hfound : ρ₁.istream.dataSize = 0
      · rw [if_pos hfound]
        exact ih h₁
      · rw [if_neg hfound]
        exact ⟨_, ρ₁, rfl, h₁⟩

/-- What is found is in the memory of the card as it was written. -/
theorem Reader.Inv.found (h : ρ.Inv records size) {p : Nat} (hp : ρ.istream.dagData = some p) :
    p + ρ.istream.dataSize ≤ 2 * size ∧
      records[ρ.ended]? = some (ρ.session.view.read p ρ.istream.dataSize) := by
  cases h.pending with
  | nothing hdata _ _ => simp [hdata] at hp
  | record hdata hrest htaken hr hheld =>
      obtain rfl := Option.some.inj (hdata.symm.trans hp)
      obtain ⟨hmapped, r', hlast, hview⟩ := h.session.held hheld
      rw [h.session.taken, htaken, List.take_add_one, hr, Option.toList_some,
        List.getLast?_concat, Option.some.injEq] at hlast
      rw [hrest, hview, ← hlast]
      exact ⟨hmapped, hr⟩

theorem Reader.Inv.handOut (h : ρ.Inv records size) : ρ.handOut.Inv records size := by
  rw [Reader.handOut]
  cases hdata : ρ.istream.dagData with
  | none => exact h
  | some p =>
      refine ⟨h.session, h.isOpen, ?_, ?_⟩
      · cases h.pending with
        | nothing hnone _ _ => simp [hdata] at hnone
        | record hdata' hrest htaken hr hheld => exact .record hdata' hrest htaken hr hheld
      · intro j bytes hmem
        rcases List.mem_append.mp hmem with hold | hnew
        · exact h.handedOut j bytes hold
        · obtain ⟨rfl, rfl⟩ := Prod.mk.inj (List.mem_singleton.mp hnew)
          exact (h.found hdata).2

theorem Reader.Inv.endRead (h : ρ.Inv records size) : ρ.endRead.Inv records size := by
  refine ⟨h.session, h.isOpen, .nothing rfl rfl ?_, h.handedOut⟩
  cases h.pending with
  | nothing hdata _ htaken => simp [Reader.endRead, hdata, htaken]
  | record hdata _ htaken _ _ => simp [Reader.endRead, hdata, htaken]

/-- No call leaves the mapping or skips a record. -/
theorem Reader.Inv.call (hsize : HoleSize size) (hrecords : ∀ r ∈ records, IsRecord r)
    (h : ρ.Inv records size) (e : Call) :
    ∃ ρ', Dag.call ρ e = some ρ' ∧ ρ'.Inv records size := by
  cases e with
  | arrive w =>
      obtain ⟨session, hstep, hsession, -⟩ := h.session.step hsize hrecords (.arrive w.1 w.2)
      rw [Dag.call, hstep, Option.map_some]
      rw [step, Option.some.injEq] at hstep
      refine ⟨_, rfl, hsession, h.isOpen, ?_, h.handedOut⟩
      cases h.pending with
      | nothing hdata hnone htaken => exact .nothing hdata hnone (hstep ▸ htaken)
      | record hdata hrest htaken hr hheld =>
          exact .record hdata hrest (hstep ▸ htaken) hr (hstep ▸ hheld)
  | ready w =>
      rw [Dag.call, Reader.ready]
      split_ifs with hthere
      · exact ⟨ρ, rfl, h⟩
      · obtain ⟨ρ₁, hprepare, h₁⟩ := h.prepareNext hsize hrecords w
        exact ⟨ρ₁, by rw [hprepare, Option.map_some], h₁⟩
  | startRead polls =>
      rw [Dag.call, Reader.startRead, h.isOpen, if_neg (by simp)]
      have hfound : ∃ found ρ₁, (if ρ.istream.dataSize = 0 then ρ.spin polls
          else some (ρ.istream.dataSize, ρ)) = some (found, ρ₁) ∧ ρ₁.Inv records size := by
        split_ifs
        · exact h.spin hsize hrecords polls
        · exact ⟨_, ρ, rfl, h⟩
      obtain ⟨found, ρ₁, heq, h₁⟩ := hfound
      rw [heq, Option.map_some]
      dsimp only
      split_ifs
      · exact ⟨ρ₁, rfl, h₁⟩
      · exact ⟨_, rfl, h₁.handOut⟩
  | endRead => exact ⟨_, rfl, h.endRead⟩

theorem Reader.Inv.calls (hsize : HoleSize size) (hrecords : ∀ r ∈ records, IsRecord r)
    (h : ρ.Inv records size) (es : List Call) :
    ∃ ρ', run Dag.call ρ es = some ρ' ∧ ρ'.Inv records size := by
  induction es generalizing ρ with
  | nil => exact ⟨ρ, rfl, h⟩
  | cons e es ih =>
      obtain ⟨ρ₁, hcall, h₁⟩ := h.call hsize hrecords e
      obtain ⟨ρ₂, hrun, h₂⟩ := ih h₁
      exact ⟨ρ₂, run_cons_eq_some.mpr ⟨ρ₁, hcall, hrun⟩, h₂⟩

end Calls

end Camio.Dag
