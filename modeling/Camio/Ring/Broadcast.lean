/-
  Camio.Ring.Broadcast

  One writer and any number of readers of one ring.  Readers store nothing in the ring, so each
  of them sees what it would see alone with the writer.
-/

import Mathlib.Logic.Function.Basic
import Camio.Lib.View
import Camio.Ring.Fifo

namespace Camio.Ring

open Camio.Lib

/-- A reader, the bytes it was handed, and the messages it has accepted. -/
structure ReaderSide where
  reader : Option IstreamRing
  pending : Option (List UInt8)
  accepted : List (Nat × List UInt8)

/-- The ring, its writer, and the readers by their number. -/
structure Broadcast where
  mem : Mem
  writer : OstreamRing
  granted : Option Nat
  untouched : Nat
  committed : List (List UInt8)
  side : Nat → ReaderSide

inductive BroadcastEvent where
  | byWriter (e : Event)
  | byReader (j : Nat) (e : Event)

/-- The ring and its writer with reader `j` alone. -/
def Broadcast.view (j : Nat) (σ : Broadcast) : System :=
  { mem := σ.mem, writer := σ.writer, granted := σ.granted, untouched := σ.untouched
    committed := σ.committed, reader := (σ.side j).reader, pending := (σ.side j).pending
    accepted := (σ.side j).accepted }

/-- The step of a party as it is without the other readers; the writer has no use for any. -/
def broadcastStep (σ : Broadcast) : BroadcastEvent → Option Broadcast
  | .byWriter e =>
      if e.byReader then none
      else (step (σ.view 0) e).map fun τ => { σ with
        mem := τ.mem, writer := τ.writer, granted := τ.granted, untouched := τ.untouched
        committed := τ.committed }
  | .byReader j e =>
      if e.byReader then (step (σ.view j) e).map fun τ => { σ with
        side := Function.update σ.side j ⟨τ.reader, τ.pending, τ.accepted⟩ }
      else none

/-- A writer that has just opened a fresh ring; no readers yet. -/
def broadcastInit : Broadcast :=
  { mem := init.mem, writer := init.writer, granted := init.granted, untouched := init.untouched
    committed := init.committed, side := fun _ => ⟨init.reader, init.pending, init.accepted⟩ }

/-- The events that reader `j` sees. -/
def seenBy (j : Nat) : BroadcastEvent → Option Event
  | .byWriter e => some e
  | .byReader i e => if i = j then some e else none

section Views

variable {σ : Broadcast} {τ τ' : System} {e : Event}

/-- The writer's steps are the same with any reader. -/
theorem step_withReader (he : e.byReader = false) (reader : Option IstreamRing)
    (pending : Option (List UInt8)) (accepted : List (Nat × List UInt8)) (h : step τ e = some τ') :
    step { τ with reader := reader, pending := pending, accepted := accepted } e
      = some { τ' with reader := reader, pending := pending, accepted := accepted } := by
  cases e with
  | startWrite len =>
      obtain rfl := Option.some.inj h
      rfl
  | fill off bytes =>
      obtain ⟨p, hp, hle, rfl⟩ := step_fill h
      simp only [step, hp, if_pos hle]
  | assignWrite buffer len =>
      obtain ⟨b, rfl, rfl⟩ := step_assignWrite h
      rfl
  | endWrite len =>
      obtain ⟨hle, rfl⟩ := step_endWrite h
      simp only [step, camioOstreamRingEndWrite_eq, if_pos hle]
  | openReader | ready | startRead | endRead => cases he

theorem view_sees (j : Nat) : Sees broadcastStep step (Broadcast.view j) (seenBy j) where
  visible := by
    intro σ e f σ' hlabel hstep
    cases e with
    | byWriter e =>
        obtain rfl := Option.some.inj hlabel
        rw [broadcastStep] at hstep
        split at hstep
        · cases hstep
        · rename_i hwriter
          obtain ⟨τ, hτ, rfl⟩ := Option.map_eq_some_iff.mp hstep
          exact step_withReader (by simpa using hwriter) _ _ _ hτ
    | byReader i e =>
        rw [seenBy] at hlabel
        split at hlabel
        · rename_i hij
          obtain rfl := Option.some.inj hlabel
          subst hij
          rw [broadcastStep] at hstep
          split at hstep
          · rename_i hreader
            obtain ⟨τ, hτ, rfl⟩ := Option.map_eq_some_iff.mp hstep
            obtain ⟨reader, pending, accepted, rfl⟩ := step_byReader hreader hτ
            rw [hτ]
            simp [Broadcast.view]
          · cases hstep
        · cases hlabel
  hidden := by
    intro σ e σ' hlabel hstep
    cases e with
    | byWriter e => cases hlabel
    | byReader i e =>
        rw [seenBy] at hlabel
        split at hlabel
        · cases hlabel
        · rename_i hij
          rw [broadcastStep] at hstep
          split at hstep
          · obtain ⟨τ, hτ, rfl⟩ := Option.map_eq_some_iff.mp hstep
            simp [Broadcast.view, Function.update_of_ne (Ne.symm hij)]
          · cases hstep

/-- A reader that the writer waits for, as its own view has it. -/
theorem view_lossless {es : List Event} {j : Nat} (hP : Along step FlowControlled init es)
    (hrun : run step init es = some (σ.view j)) (hN : σ.committed.length + 1 < 2 ^ 64) :
    (σ.side j).accepted.map Prod.fst = List.range' 1 (σ.side j).accepted.length ∧
      (σ.side j).accepted.map Prod.snd <+: σ.committed ∧
      ∀ r bytes, (σ.side j).reader = some r → (σ.side j).pending = some bytes →
        σ.committed[(σ.side j).accepted.length]? = some bytes ∧
        σ.mem.read r.curr r.readSize = bytes := by
  have hf := fifoInv_of_run hP hrun hN
  have hw := writerInv_of_run hrun
  have hri := readerInv_of_run hrun (show σ.committed.length < 2 ^ 64 by omega)
  refine ⟨hf.numbers, hf.payloads, fun r bytes hr hbytes => ?_⟩
  obtain ⟨hlast, hmessage, hread⟩ := hf.handedOut_eq hw hri hr hbytes
  refine ⟨?_, hread⟩
  -- the message that is read has been committed
  have hnext : r.syncCounter = (σ.side j).accepted.length + 1 := hf.next r hr
  have hlt : (σ.side j).accepted.length < σ.committed.length := by
    have hle : r.syncCounter ≤ σ.committed.length := hlast ▸ lastIn_le σ.committed.length r.index
    omega
  have hbytes' : bytes = σ.committed.getD (r.syncCounter - 1) [] := hmessage
  rw [hbytes', hnext, Nat.add_sub_cancel, List.getD_eq_getElem?_getD,
    List.getElem?_eq_getElem hlt, Option.getD_some]

end Views

/-- Reader `j` has its own lossless queue as long as the writer waits for it, whatever the other
    readers do; so readers that the writer waits for have accepted the same messages, one of
    them maybe more than the other. -/
theorem broadcast_lossless {waited : Nat → Prop} {es : List BroadcastEvent} {σ : Broadcast}
    (hP : Along broadcastStep (fun σ e => ∀ j, waited j → ∀ f, seenBy j e = some f →
      FlowControlled (σ.view j) f) broadcastInit es)
    (hrun : run broadcastStep broadcastInit es = some σ)
    (hN : σ.committed.length + 1 < 2 ^ 64) :
    (∀ j, waited j →
      (σ.side j).accepted.map Prod.fst = List.range' 1 (σ.side j).accepted.length ∧
      (σ.side j).accepted.map Prod.snd <+: σ.committed ∧
      ∀ r bytes, (σ.side j).reader = some r → (σ.side j).pending = some bytes →
        σ.committed[(σ.side j).accepted.length]? = some bytes ∧
        σ.mem.read r.curr r.readSize = bytes) ∧
    ∀ i j, waited i → waited j →
      (σ.side i).accepted.map Prod.snd <+: (σ.side j).accepted.map Prod.snd ∨
      (σ.side j).accepted.map Prod.snd <+: (σ.side i).accepted.map Prod.snd := by
  have halong : ∀ j, waited j → Along broadcastStep (fun σ e => ∀ f, seenBy j e = some f →
      FlowControlled (σ.view j) f) broadcastInit es := fun j hj => hP.mono fun _ _ h => h j hj
  have hview : ∀ j, waited j → _ := fun j hj =>
    view_lossless
      ((view_sees j).along (halong j hj) hrun) ((view_sees j).run hrun) hN
  refine ⟨hview, fun i j hi hj => ?_⟩
  exact List.prefix_or_prefix_of_prefix (hview i hi).2.1 (hview j hj).2.1

/-- A message for two readers. -/
def twoReaders : List BroadcastEvent :=
  [.byReader 0 .openReader, .byReader 1 .openReader, .byWriter (.startWrite 1),
    .byWriter (.fill 0 [7]), .byWriter (.endWrite 1), .byReader 0 .startRead,
    .byReader 1 .startRead, .byReader 0 .endRead]

set_option maxRecDepth 20000 in
/-- A message that one reader has accepted and another still reads. -/
theorem broadcast_lossless_demo :
    ∃ σ, run broadcastStep broadcastInit twoReaders = some σ ∧
      (σ.side 0).accepted.map Prod.snd <+: σ.committed ∧
      (σ.side 0).accepted = [(1, [7])] ∧ (σ.side 1).pending = some [7] := by
  -- what readers do needs no flow control
  have hquiet : ∀ (σ : Broadcast) (i : Nat) (e : Event), e.byReader = true → ∀ j, True → ∀ f,
      seenBy j (.byReader i e) = some f → FlowControlled (σ.view j) f := by
    intro σ i e he j _ f hf
    rw [seenBy] at hf
    split at hf
    · obtain rfl := Option.some.inj hf
      cases e <;> simp_all [FlowControlled, Event.byReader]
    · cases hf
  have hwriter : ∀ (σ : Broadcast) (e : Event), (∀ j, FlowControlled (σ.view j) e) → ∀ j, True →
      ∀ f, seenBy j (.byWriter e) = some f → FlowControlled (σ.view j) f := by
    intro σ e he j _ f hf
    obtain rfl := Option.some.inj hf
    exact he j
  have hP : Along broadcastStep (fun σ e => ∀ j, True → ∀ f, seenBy j e = some f →
      FlowControlled (σ.view j) f) broadcastInit twoReaders :=
    .cons (hquiet _ _ _ rfl) rfl <| .cons (hquiet _ _ _ rfl) rfl <|
    .cons (hwriter _ _ fun _ => trivial) rfl <|
    .cons (hwriter _ _ fun _ _ => Or.inl (show 0 + 1 ≤ 1024 by decide)) rfl <|
    .cons (hwriter _ _ fun _ => ⟨by decide, Or.inl (show 0 + 1 ≤ 1024 by decide)⟩) rfl <|
    .cons (hquiet _ _ _ rfl) rfl <| .cons (hquiet _ _ _ rfl) rfl <|
    .cons (hquiet _ _ _ rfl) rfl trivial
  have hrun : run broadcastStep broadcastInit twoReaders = some _ := rfl
  have hlossless := (broadcast_lossless hP hrun (show 1 + 1 < 2 ^ 64 by decide)).1 0 trivial
  exact ⟨_, hrun, hlossless.2.1, rfl, rfl⟩

end Camio.Ring
