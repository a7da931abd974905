/-
  Camio.Ring.System

  One writer and one reader of a shared ring as one step function: an event is a
  call of either party or a store of the writer's caller into the slot it was
  handed, and a run interleaves the events in any order.  Every call is one
  atomic step.

  The state carries, beside the two streams and the ring, what a specification
  speaks about: the payloads committed so far, the bytes handed out by the last
  `start_read`, the messages `end_read` accepted, and how much of the writer's
  slot its caller has left untouched since the last commit.
-/

import Camio.Lib.Run
import Camio.Ring.Istream
import Camio.Ring.Ostream

namespace Camio.Ring

open Camio.Lib Camio.Descr

structure System where
  mem : Mem
  writer : OstreamRing
  /-- the pointer `start_write` returned since the last `end_write` -/
  granted : Option Nat
  /-- the bytes of the writer's slot below this offset are as the last commit to
      the slot left them -/
  untouched : Nat
  /-- the payloads committed so far; message `m` is number `m - 1` of the list -/
  committed : List (List UInt8)
  reader : Option IstreamRing
  /-- the bytes `start_read` handed out, until `end_read` -/
  pending : Option (List UInt8)
  /-- the counters and bytes of the reads `end_read` returned 0 for -/
  accepted : List (Nat × List UInt8)

/-- The steps of the two parties. -/
inductive Event where
  | startWrite (len : Nat)
  /-- the caller stores bytes into the slot it was handed -/
  | fill (off : Nat) (bytes : List UInt8)
  | assignWrite (buffer : Option Mem) (len : Nat)
  | endWrite (len : Nat)
  | openReader
  | ready
  | startRead
  | endRead

/-- A writer that has just opened a fresh ring; no reader yet. -/
def init : System :=
  { mem := zeroRing
    writer := { camioOstreamRingConstruct with isClosed := false }
    granted := none
    untouched := slotSize
    committed := []
    reader := none
    pending := none
    accepted := [] }

/-- A reader that has just opened the ring. -/
def openedReader : IstreamRing := { camioIstreamRingConstruct with isClosed := false }

/-- A step is refused where a caller breaks the calling convention (a store
    without a slot or beyond 4080 bytes, an `end_read` without a `start_read`, a
    second reader) and where the program ends in an error exit. -/
def step (σ : System) : Event → Option System
  | .startWrite len => some { σ with granted := camioOstreamRingStartWrite σ.writer len }
  | .fill off bytes =>
      match σ.granted with
      | none => none
      | some p =>
          -- the slot in front of its two words
          if off + bytes.length ≤ 4080 then
            some { σ with
              mem := σ.mem.write (p + off) bytes
              untouched := if bytes = [] then σ.untouched else min σ.untouched off }
          else none
  | .assignWrite buffer len =>
      match camioOstreamRingAssignWrite σ.writer buffer len with
      | .error _ => none
      | .ok w => some { σ with writer := w }
  | .endWrite len =>
      match camioOstreamRingEndWrite σ.writer σ.mem len with
      | .error _ => none
      | .ok (w, m) => some { σ with
          writer := w
          mem := m
          granted := none
          untouched := slotSize
          committed := σ.committed ++ [payload σ.writer σ.mem len] }
  | .openReader =>
      match σ.reader with
      | none => some { σ with reader := some openedReader }
      | some _ => none
  | .ready => σ.reader.map fun r => { σ with reader := some (camioIstreamRingReady r σ.mem).2 }
  | .startRead => σ.reader.map fun r =>
      match camioIstreamRingStartRead r σ.mem with
      | (.data out size, r) => { σ with reader := some r, pending := some (σ.mem.read out size) }
      | (_, r) => { σ with reader := some r }
  | .endRead =>
      match σ.reader, σ.pending with
      | some r, some bytes =>
          match camioIstreamRingEndRead r σ.mem with
          | (v, r') => some { σ with
              reader := some r'
              pending := none
              accepted :=
                if v = 0 then σ.accepted ++ [(r.syncCounter, bytes)] else σ.accepted }
      | _, _ => none

/-! ## What a step can do -/

section Steps

variable {σ σ' : System}

theorem step_fill {off : Nat} {bytes : List UInt8} (h : step σ (.fill off bytes) = some σ') :
    ∃ p, σ.granted = some p ∧ off + bytes.length ≤ 4080 ∧
      σ' = { σ with
        mem := σ.mem.write (p + off) bytes
        untouched := if bytes = [] then σ.untouched else min σ.untouched off } := by
  simp only [step] at h
  split at h
  next => cases h
  next p hp =>
    split at h
    next hle => exact ⟨p, hp, hle, (Option.some.inj h).symm⟩
    next => cases h

theorem step_assignWrite {buffer : Option Mem} {len : Nat}
    (h : step σ (.assignWrite buffer len) = some σ') :
    ∃ b, buffer = some b ∧ σ' = { σ with
      writer := { σ.writer with assignedBuffer := some b, assignedBufferSz := len } } := by
  cases buffer with
  | none => cases h
  | some b => exact ⟨b, rfl, (Option.some.inj h).symm⟩

theorem step_endWrite {len : Nat} (h : step σ (.endWrite len) = some σ') :
    len ≤ 4080 ∧ σ' = { σ with
      writer := commitWriter σ.writer
      mem := commitMem σ.writer σ.mem len
      granted := none
      untouched := slotSize
      committed := σ.committed ++ [payload σ.writer σ.mem len] } := by
  simp only [step, camioOstreamRingEndWrite_eq] at h
  by_cases hlen : len ≤ 4080
  · rw [if_pos hlen] at h
    exact ⟨hlen, (Option.some.inj h).symm⟩
  · rw [if_neg hlen] at h
    cases h

theorem step_openReader (h : step σ .openReader = some σ') :
    σ.reader = none ∧ σ' = { σ with reader := some openedReader } := by
  simp only [step] at h
  split at h
  next hr => exact ⟨hr, (Option.some.inj h).symm⟩
  next => cases h

theorem step_ready (h : step σ .ready = some σ') :
    ∃ r, σ.reader = some r ∧
      σ' = { σ with reader := some (camioIstreamRingReady r σ.mem).2 } := by
  obtain ⟨r, hr, rfl⟩ := Option.map_eq_some_iff.mp h
  exact ⟨r, hr, rfl⟩

/-- `start_read` hands out what it finds at the pointer it returns. -/
theorem step_startRead (h : step σ .startRead = some σ') :
    ∃ r, σ.reader = some r ∧
      ((∃ out size, (camioIstreamRingStartRead r σ.mem).1 = .data out size ∧
          σ' = { σ with
            reader := some (camioIstreamRingStartRead r σ.mem).2
            pending := some (σ.mem.read out size) }) ∨
        ((∀ out size, (camioIstreamRingStartRead r σ.mem).1 ≠ .data out size) ∧
          σ' = { σ with reader := some (camioIstreamRingStartRead r σ.mem).2 })) := by
  obtain ⟨r, hr, rfl⟩ := Option.map_eq_some_iff.mp h
  refine ⟨r, hr, ?_⟩
  cases hcall : camioIstreamRingStartRead r σ.mem with
  | mk result r' =>
      cases result with
      | data out size => exact Or.inl ⟨out, size, rfl, rfl⟩
      | closed => exact Or.inr ⟨fun _ _ hne => (StartRead.noConfusion hne), rfl⟩
      | spinning => exact Or.inr ⟨fun _ _ hne => (StartRead.noConfusion hne), rfl⟩

theorem step_endRead (h : step σ .endRead = some σ') :
    ∃ r bytes, σ.reader = some r ∧ σ.pending = some bytes ∧
      σ' = { σ with
        reader := some (camioIstreamRingEndRead r σ.mem).2
        pending := none
        accepted := if (camioIstreamRingEndRead r σ.mem).1 = 0
          then σ.accepted ++ [(r.syncCounter, bytes)] else σ.accepted } := by
  simp only [step] at h
  split at h
  next r bytes hr hbytes => exact ⟨r, bytes, hr, hbytes, (Option.some.inj h).symm⟩
  next => cases h

/-- Which party takes the step. -/
def Event.byReader : Event → Bool
  | .openReader | .ready | .startRead | .endRead => true
  | _ => false

/-- The reader's steps change nothing of the writer's and nothing in the ring. -/
theorem step_byReader {e : Event} (he : e.byReader = true) (h : step σ e = some σ') :
    ∃ reader pending accepted,
      σ' = { σ with reader := reader, pending := pending, accepted := accepted } := by
  cases e with
  | openReader =>
      obtain ⟨-, rfl⟩ := step_openReader h
      exact ⟨_, _, _, rfl⟩
  | ready =>
      obtain ⟨r, -, rfl⟩ := step_ready h
      exact ⟨_, _, _, rfl⟩
  | startRead =>
      obtain ⟨r, -, ⟨out, size, -, rfl⟩ | ⟨-, rfl⟩⟩ := step_startRead h
      · exact ⟨_, _, _, rfl⟩
      · exact ⟨_, _, _, rfl⟩
  | endRead =>
      obtain ⟨r, bytes, -, -, rfl⟩ := step_endRead h
      exact ⟨_, _, _, rfl⟩
  | startWrite _ | fill _ _ | assignWrite _ _ | endWrite _ => cases he

/-- The writer's steps change nothing of the reader's. -/
theorem step_byWriter {e : Event} (he : e.byReader = false) (h : step σ e = some σ') :
    σ'.reader = σ.reader ∧ σ'.pending = σ.pending ∧ σ'.accepted = σ.accepted := by
  cases e with
  | startWrite len =>
      cases h
      exact ⟨rfl, rfl, rfl⟩
  | fill off bytes =>
      obtain ⟨p, -, -, rfl⟩ := step_fill h
      exact ⟨rfl, rfl, rfl⟩
  | assignWrite buffer len =>
      obtain ⟨b, -, rfl⟩ := step_assignWrite h
      exact ⟨rfl, rfl, rfl⟩
  | endWrite len =>
      obtain ⟨-, rfl⟩ := step_endWrite h
      exact ⟨rfl, rfl, rfl⟩
  | openReader | ready | startRead | endRead => cases he

/-- Only `end_write` commits. -/
theorem step_committed_eq {e : Event} (he : ∀ len, e ≠ .endWrite len)
    (h : step σ e = some σ') : σ'.committed = σ.committed := by
  by_cases hreader : e.byReader = true
  · obtain ⟨_, _, _, rfl⟩ := step_byReader hreader h
    rfl
  · cases e with
    | startWrite len =>
        cases h
        rfl
    | fill off bytes =>
        obtain ⟨p, -, -, rfl⟩ := step_fill h
        rfl
    | assignWrite buffer len =>
        obtain ⟨b, -, rfl⟩ := step_assignWrite h
        rfl
    | endWrite len => exact absurd rfl (he len)
    | openReader | ready | startRead | endRead => exact absurd rfl hreader

/-- Commits are only ever appended. -/
theorem step_committed {e : Event} (h : step σ e = some σ') :
    σ.committed <+: σ'.committed := by
  by_cases he : ∃ len, e = .endWrite len
  · obtain ⟨len, rfl⟩ := he
    obtain ⟨-, rfl⟩ := step_endWrite h
    exact List.prefix_append _ _
  · have heq := step_committed_eq (fun len hlen => he ⟨len, hlen⟩) h
    exact heq ▸ List.prefix_rfl

/-! ## Steps that go through -/

/-- `start_read` returns at once when the slot's counter has come up to the
    reader's and the payload is not empty. -/
theorem step_startRead_of_le {r : IstreamRing} (hr : σ.reader = some r)
    (hopen : r.isClosed = false) (hread : r.readSize = 0)
    (hle : r.syncCounter ≤ syncWord σ.mem r.curr)
    (hlen : lenWord σ.mem r.curr ≠ 0) (hlen' : lenWord σ.mem r.curr ≤ 4080) :
    step σ .startRead = some { σ with
      reader := some (takeSlot r σ.mem)
      pending := some (σ.mem.read r.curr (lenWord σ.mem r.curr)) } := by
  have hcall : camioIstreamRingStartRead r σ.mem
      = (.data r.curr (lenWord σ.mem r.curr), takeSlot r σ.mem) := by
    rw [camioIstreamRingStartRead, if_neg (by simp [hopen]), if_neg (not_not_intro hread),
      prepareNext_eq, if_neg (not_not_intro hread), if_pos hle]
    dsimp only
    rw [if_neg (fun h => hlen ((toInt_eq_zero_iff hlen').mp h))]
    dsimp only [takeSlot]
  simp only [step, hr, Option.map_some, hcall]

/-- `start_read` spins as long as the slot's counter is behind the reader's. -/
theorem step_startRead_of_lt {r : IstreamRing} (hr : σ.reader = some r)
    (hopen : r.isClosed = false) (hread : r.readSize = 0)
    (hlt : syncWord σ.mem r.curr < r.syncCounter) :
    step σ .startRead = some { σ with reader := some r } := by
  have hcall : camioIstreamRingStartRead r σ.mem = (.spinning, r) := by
    rw [camioIstreamRingStartRead, if_neg (by simp [hopen]), if_neg (not_not_intro hread),
      prepareNext_eq, if_neg (not_not_intro hread), if_neg (Nat.not_le_of_lt hlt)]
    dsimp only
    rw [if_pos rfl]
  simp only [step, hr, Option.map_some, hcall]

/-- `end_read` succeeds under an unchanged counter. -/
theorem step_endRead_of_eq {r : IstreamRing} {bytes : List UInt8} (hr : σ.reader = some r)
    (hbytes : σ.pending = some bytes) (heq : syncWord σ.mem r.curr = r.syncCounter) :
    step σ .endRead = some { σ with
      reader := some { r with
        readSize := 0
        syncCounter := (r.syncCounter + 1) % 2 ^ 64
        index := (r.index + 1) % 1024
        curr := (r.index + 1) % 1024 * slotSize }
      pending := none
      accepted := σ.accepted ++ [(r.syncCounter, bytes)] } := by
  simp only [step, hr, hbytes, camioIstreamRingEndRead_eq, if_pos heq, if_pos]

/-- A read that nothing interrupts accepts what the slot holds. -/
theorem run_read {r : IstreamRing} (hr : σ.reader = some r) (hopen : r.isClosed = false)
    (hread : r.readSize = 0) (hle : r.syncCounter ≤ syncWord σ.mem r.curr)
    (hlen : lenWord σ.mem r.curr ≠ 0) (hlen' : lenWord σ.mem r.curr ≤ 4080) :
    run step σ [.startRead, .endRead] = some { σ with
      reader := some { r with
        readSize := 0
        syncCounter := (syncWord σ.mem r.curr + 1) % 2 ^ 64
        index := (r.index + 1) % 1024
        curr := (r.index + 1) % 1024 * slotSize }
      pending := none
      accepted := σ.accepted ++
        [(syncWord σ.mem r.curr, σ.mem.read r.curr (lenWord σ.mem r.curr))] } := by
  have htaken : syncWord σ.mem (takeSlot r σ.mem).curr = (takeSlot r σ.mem).syncCounter := by
    dsimp only [takeSlot]
  have hstart := step_startRead_of_le hr hopen hread hle hlen hlen'
  have hend := step_endRead_of_eq (σ := { σ with
      reader := some (takeSlot r σ.mem)
      pending := some (σ.mem.read r.curr (lenWord σ.mem r.curr)) }) rfl rfl htaken
  rw [run_cons, hstart, Option.bind_some, run_cons, hend]
  dsimp only [takeSlot, Option.bind_some, run_nil]

theorem step_endWrite_of_le {len : Nat} (hlen : len ≤ 4080) :
    step σ (.endWrite len) = some { σ with
      writer := commitWriter σ.writer
      mem := commitMem σ.writer σ.mem len
      granted := none
      untouched := slotSize
      committed := σ.committed ++ [payload σ.writer σ.mem len] } := by
  simp only [step, camioOstreamRingEndWrite_eq, if_pos hlen]

/-- A payload that is written in place. -/
def putInPlace (p : List UInt8) : List Event :=
  [.startWrite p.length, .fill 0 p, .endWrite p.length]

/-- Writing in place commits the bytes the caller stored. -/
theorem run_putInPlace_eq {p : List UInt8} (hp : p.length ≤ 4080)
    (hbuf : σ.writer.assignedBuffer = none) :
    run step σ (putInPlace p) = some { σ with
      writer := commitWriter σ.writer
      mem := commitMem σ.writer (σ.mem.write σ.writer.curr p) p.length
      granted := none
      untouched := slotSize
      committed := σ.committed ++ [p] } := by
  have hgrant : camioOstreamRingStartWrite σ.writer p.length = some σ.writer.curr := by
    rw [camioOstreamRingStartWrite, if_neg (by simp only [slotSize]; omega)]
  have hpay : payload σ.writer (σ.mem.write σ.writer.curr p) p.length = p := by
    simp only [payload, hbuf]
    exact σ.mem.read_write_same _ _
  simp only [putInPlace, run_cons, run_nil, step, hgrant, Option.bind_some, Nat.zero_add,
    Nat.add_zero, if_pos hp, camioOstreamRingEndWrite_eq, hpay]

theorem run_putInPlace {p : List UInt8} (hp : p.length ≤ 4080)
    (hbuf : σ.writer.assignedBuffer = none) :
    ∃ σ', run step σ (putInPlace p) = some σ' ∧ σ'.committed = σ.committed ++ [p] ∧
      σ'.writer = commitWriter σ.writer ∧ σ'.untouched = slotSize ∧
      σ'.reader = σ.reader ∧ σ'.pending = σ.pending ∧ σ'.accepted = σ.accepted :=
  ⟨_, run_putInPlace_eq hp hbuf, rfl, rfl, rfl, rfl, rfl, rfl⟩

/-- Any payloads that fit can be written in place, one after the other. -/
theorem run_putInPlaces {ps : List (List UInt8)} (hps : ∀ p ∈ ps, p.length ≤ 4080)
    (hbuf : σ.writer.assignedBuffer = none) :
    ∃ σ', run step σ (ps.flatMap putInPlace) = some σ' ∧ σ'.committed = σ.committed ++ ps ∧
      σ'.writer.assignedBuffer = none ∧
      σ'.reader = σ.reader ∧ σ'.pending = σ.pending ∧ σ'.accepted = σ.accepted := by
  induction ps generalizing σ with
  | nil => exact ⟨σ, rfl, (List.append_nil _).symm, hbuf, rfl, rfl, rfl⟩
  | cons p ps ih =>
      obtain ⟨σ₁, hrun₁, hcommitted₁, hwriter₁, -, hreader₁, hpending₁, haccepted₁⟩ :=
        run_putInPlace (hps p List.mem_cons_self) hbuf
      obtain ⟨σ₂, hrun₂, hcommitted₂, hbuf₂, hreader₂, hpending₂, haccepted₂⟩ :=
        ih (fun q hq => hps q (List.mem_cons_of_mem p hq)) (σ := σ₁) (by rw [hwriter₁]; rfl)
      refine ⟨σ₂, run_trans hrun₁ hrun₂, ?_, hbuf₂, hreader₂.trans hreader₁,
        hpending₂.trans hpending₁, haccepted₂.trans haccepted₁⟩
      rw [hcommitted₂, hcommitted₁, List.append_assoc, List.singleton_append]

end Steps

/-! ## Opening -/

/-- The start state is what construction and `open` on a missing file leave. -/
theorem init_eq (descr : CamioDescr) (hquery : descr.query.isSome)
    (hopts : descr.optHead = none) :
    camioOstreamRingOpen camioOstreamRingConstruct descr none
      = .ok (init.writer, init.mem) := by
  have h1 := Option.not_isSome_iff_eq_none.mpr hopts
  have h2 := CamioDescr.not_isNone_query hquery
  rw [camioOstreamRingOpen, if_neg h1, if_neg h2]
  rfl

/-- The reader's start state is what construction and `open` on the existing ring
    leave; the ring stays as it is. -/
theorem openedReader_eq (descr : CamioDescr) (hquery : descr.query.isSome)
    (hopts : descr.optHead = none) (ring : Mem) :
    camioIstreamRingOpen camioIstreamRingConstruct descr (some ring)
      = .ok (openedReader, ring) := by
  have h1 := Option.not_isSome_iff_eq_none.mpr hopts
  have h2 := CamioDescr.not_isNone_query hquery
  rw [camioIstreamRingOpen, if_neg h1, if_neg h2]
  rfl

end Camio.Ring
