/-
  Camio.Erf.Dag

  `camio_istream_dag.c`: the records that a DAG card puts into its memory are handed out
  where they are, with the length they declare.
-/

import Camio.Erf.Record

namespace Camio.Erf

open Camio.Lib

/-- `camio_istream_dag_t`, of which `dag_stream` is always 0. -/
structure IstreamDag where
  isClosed : Bool
  dagData : Option Nat
  dataSize : Nat
deriving DecidableEq

/-- What `dag_rx_stream_next_record` comes to: a record in the memory of the card, or none. -/
structure NextRecord where
  mem : Mem
  record : Option Nat

/-- `prepare_next` of the DAG stream. -/
def dagPrepareNext (s : IstreamDag) (next : NextRecord) : Nat × IstreamDag :=
  if s.dagData.isSome then (s.dataSize, s)
  else
    match next.record with
    | none => (0, s)
    | some p =>
      if recordType next.mem p = 0 then (0, s) -- "Not ERF payload", a warning
      else
        let size := recordRlen next.mem p
        (size, { s with dagData := some p, dataSize := size })

/-- `camio_istream_dag_ready`. -/
def camioIstreamDagReady (s : IstreamDag) (next : NextRecord) : Nat × IstreamDag :=
  if s.dataSize ≠ 0 ∨ s.isClosed then (1, s) else dagPrepareNext s next

/-- The loop that spins until there is data. -/
def dagSpin : IstreamDag → List NextRecord → Option IstreamDag
  | _, [] => none
  | s, next :: nexts =>
      if (dagPrepareNext s next).1 = 0 then dagSpin (dagPrepareNext s next).2 nexts
      else some (dagPrepareNext s next).2

/-- `camio_istream_dag_start_read`: the pointer and the length it returns.  The time that it
    takes from the record goes nowhere. -/
def camioIstreamDagStartRead (s : IstreamDag) (nexts : List NextRecord) :
    Option (Option (Option Nat × Nat) × IstreamDag) :=
  if s.isClosed then some (none, s)
  else
    (if s.dataSize = 0 then dagSpin s nexts else some s).map fun s =>
      (some (s.dagData, s.dataSize), s)

/-- `camio_istream_dag_end_read`. -/
def camioIstreamDagEndRead (s : IstreamDag) : Nat × IstreamDag :=
  (0, { s with dataSize := 0, dagData := none })

section Reading

variable {s s' : IstreamDag} {next : NextRecord} {nexts : List NextRecord}

/-- A record that is taken is the next one of the card, and what is returned is its `rlen`. -/
theorem dagPrepareNext_spec (hnone : s.dagData = none) (h : (dagPrepareNext s next).1 ≠ 0) :
    ∃ p, next.record = some p ∧
      dagPrepareNext s next = (recordRlen next.mem p,
        { s with dagData := some p, dataSize := recordRlen next.mem p }) := by
  rw [dagPrepareNext, hnone, if_neg (by decide)] at h ⊢
  cases hrecord : next.record with
  | none =>
      rw [hrecord] at h
      exact absurd rfl h
  | some p =>
      rw [hrecord] at h
      dsimp only at h ⊢
      by_cases htype : recordType next.mem p = 0
      · rw [if_pos htype] at h
        exact absurd rfl h
      · exact ⟨p, rfl, by rw [if_neg htype]⟩

/-- After a `ready` that found a record, `start_read` returns the record with the length it
    declares. -/
theorem dag_startRead_rlen (hopen : s.isClosed = false) (hnone : s.dagData = none)
    (hsize : s.dataSize = 0) (h : (camioIstreamDagReady s next).1 ≠ 0) :
    ∃ p, next.record = some p ∧
      camioIstreamDagStartRead (camioIstreamDagReady s next).2 nexts
        = some (some (some p, recordRlen next.mem p), (camioIstreamDagReady s next).2) := by
  have hready : camioIstreamDagReady s next = dagPrepareNext s next := by
    rw [camioIstreamDagReady, hsize, hopen]
    exact if_neg (by decide)
  rw [hready] at h ⊢
  obtain ⟨p, hrecord, heq⟩ := dagPrepareNext_spec hnone h
  refine ⟨p, hrecord, ?_⟩
  rw [heq] at h ⊢
  rw [camioIstreamDagStartRead, if_neg (by rw [hopen]; decide), if_neg h, Option.map_some]

end Reading

end Camio.Erf
