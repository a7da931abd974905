/-
  Camio.Netmap.Batching

  When the netmap streams of a program make the `ioctl` calls `NIOCTXSYNC` and
  `NIOCRXSYNC`, which tell the kernel what was put into the rings.

  An ostream makes one in `flush` and `close`, and in `end_write` when the ring is empty or
  a burst is complete; an istream when no ring has packets, and in `end_read` after so many
  buffers.  For the bursts and the buffers they count in `pcount` and `count`, which are
  variables of the program and not of a stream.  A host is all streams of one program.
-/

import Mathlib.Algebra.Group.Nat.Defs
import Camio.Lib.Run
import Camio.Netmap.Istream
import Camio.Netmap.Ostream

namespace Camio.Netmap

open Camio.Lib Camio.Descr

/-! ## Ostreams -/

/-- `camio_ostream_netmap_params_t`, less what it says about the mapped memory. -/
structure OstreamNetmapParams where
  burstSize : Nat
  useLocal : Bool

/-- An ostream with its `burst_size` and `params`, on a device.  `unsynced` is how many
    packets it has committed since its last `NIOCTXSYNC`. -/
structure TxStream where
  stream : OstreamNetmap
  burstSize : Nat
  params : OstreamNetmapParams
  dev : Nat
  unsynced : Nat

/-- `camio_ostream_netmap_new`.  `construct` sets `burst_size`, and `open` leaves it alone. -/
def camioOstreamNetmapNew (descr : CamioDescr) (params : OstreamNetmapParams)
    (mapping : Exit Mapping) (txSlots dev : Nat) (nif : NetmapIf) : Exit TxStream :=
  (camioOstreamNetmapOpen camioOstreamNetmapConstruct descr mapping params.useLocal txSlots
    nif).map fun s =>
      { stream := s, burstSize := 0, params := params, dev := dev, unsynced := 0 }

/-- `end_write` has committed the slot with its own buffer, as it returns none, and finds the
    ring empty. -/
def reportDue (result : Option Nat) (s : OstreamNetmap) (nif : NetmapIf) : Bool :=
  result.isNone && nmRingEmpty (nif.tx s.ringNum)

/-- At `done:`, where both ways through `end_write` end. -/
def burstDue (burstSize pcount : Nat) : Bool :=
  burstSize ≠ 0 && pcount ≠ 0 && pcount % burstSize = 0

/-- The calls that a program makes on an ostream. -/
inductive TxCall where
  | startWrite (len : Nat)
  | assignWrite (buffer : Option Nat) (len : Nat)
  | endWrite (len : Nat)
  | flush
  | close

/-- A call on an ostream: the stream, the device and `pcount` afterwards.  A call that ends
    the program is refused, and so is one that still polls for a slot. -/
def callTx (t : TxStream) (nif : NetmapIf) (pcount : Nat) :
    TxCall → Option (TxStream × NetmapIf × Nat)
  | .startWrite len =>
      match camioOstreamNetmapStartWrite t.stream nif len true with
      | .ok (some (_, s)) => some ({ t with stream := s }, nif, pcount)
      | _ => none
  | .assignWrite buffer len =>
      match camioOstreamNetmapAssignWrite t.stream buffer len with
      | .ok (_, s) => some ({ t with stream := s }, nif, pcount)
      | _ => none
  | .endWrite len =>
      match camioOstreamNetmapEndWrite t.stream nif len true with
      | .ok (some (result, s, nif)) =>
          -- the calls of both branches are the same
          let synced := reportDue result s nif || burstDue t.burstSize pcount
          some ({ t with stream := s, unsynced := if synced then 0 else t.unsynced + 1 }, nif,
            (pcount + 1) % 2 ^ 64)
      | _ => none
  | .flush => some ({ t with unsynced := 0 }, nif, pcount)
  | .close => some ({ t with unsynced := 0 }, nif, pcount)

/-! ## Istreams -/

/-- An istream on a device.  `swapped` is how many buffers it was given back in place of its
    own since its last `NIOCRXSYNC`. -/
structure RxStream where
  stream : IstreamNetmap
  dev : Nat
  swapped : Nat

/-- `camio_istream_netmap_new`. -/
def camioIstreamNetmapNew (descr : CamioDescr) (useLocal : Bool) (mapping : Exit Mapping)
    (dev : Nat) (nif : NetmapIf) : Exit RxStream :=
  (camioIstreamNetmapOpen camioIstreamNetmapConstruct descr mapping useLocal nif).map fun s =>
    { stream := s, dev := dev, swapped := 0 }

/-- `ready` and `start_read` come to the end of `prepare_next`, "we've run out". -/
def runsOut (s : IstreamNetmap) (nif : NetmapIf) : Bool :=
  !s.isClosed && s.packetSize = 0 && s.packet.isNone && (prepareNext s nif).1 = 0

/-- "Make sure the free buffers get back". -/
def countDue (count : Nat) : Bool := count ≠ 0 && count % 512 = 0

/-- The calls that a program makes on an istream.  A call of `start_read` that spins comes as
    several, one for each turn of its loop. -/
inductive RxCall where
  | ready
  | startRead
  | endRead (freeBuff : Option Nat)
  | close

/-- A call on an istream: the stream, the device and `count` afterwards. -/
def callRx (t : RxStream) (nif : NetmapIf) (count : Nat) :
    RxCall → Option (RxStream × NetmapIf × Nat)
  | .ready => some ({ t with
      stream := (camioIstreamNetmapReady t.stream nif).2
      swapped := if runsOut t.stream nif then 0 else t.swapped }, nif, count)
  | .startRead =>
      let s := ((camioIstreamNetmapStartRead t.stream nif).map fun p => p.2.2).getD t.stream
      some ({ t with
        stream := s, swapped := if runsOut t.stream nif then 0 else t.swapped }, nif, count)
  | .endRead freeBuff =>
      match camioIstreamNetmapEndRead t.stream nif freeBuff with
      | some (_, s, nif) =>
          -- `count++` stands next to the call, inside the branch
          if freeBuff.isNone then some ({ t with stream := s }, nif, count)
          else if countDue count then
            some ({ t with stream := s, swapped := 0 }, nif, (count + 1) % 2 ^ 64)
          else some ({ t with stream := s, swapped := t.swapped + 1 }, nif, count)
      | none => none
  | .close => some ({ t with stream := { t.stream with isClosed := true } }, nif, count)

/-! ## A host -/

/-- The streams of a program, the devices that they are on, and the variables that they
    share. -/
structure NetmapHost where
  ostreams : Nat → Option TxStream
  istreams : Nat → Option RxStream
  nifs : Nat → NetmapIf
  pcount : Nat
  count : Nat

/-- The program has opened no streams yet. -/
def netmapHostInit (nifs : Nat → NetmapIf) : NetmapHost :=
  { ostreams := fun _ => none, istreams := fun _ => none, nifs := nifs, pcount := 0, count := 0 }

/-- A stream is opened, under a number, on a device; a call on a stream; or anything that the
    kernel and other programs do to a device. -/
inductive HostEvent where
  | newOstream (i dev : Nat) (descr : CamioDescr) (params : OstreamNetmapParams)
      (mapping : Exit Mapping) (txSlots : Nat)
  | newIstream (i dev : Nat) (descr : CamioDescr) (useLocal : Bool) (mapping : Exit Mapping)
  | tx (i : Nat) (c : TxCall)
  | rx (i : Nat) (c : RxCall)
  | device (dev : Nat) (nif : NetmapIf)

/-- The streams of a host take their calls in any order. -/
def hostStep (σ : NetmapHost) : HostEvent → Option NetmapHost
  | .newOstream i dev descr params mapping txSlots =>
      match camioOstreamNetmapNew descr params mapping txSlots dev (σ.nifs dev) with
      | .ok t => some { σ with ostreams := Function.update σ.ostreams i (some t) }
      | .error _ => none
  | .newIstream i dev descr useLocal mapping =>
      match camioIstreamNetmapNew descr useLocal mapping dev (σ.nifs dev) with
      | .ok t => some { σ with istreams := Function.update σ.istreams i (some t) }
      | .error _ => none
  | .tx i c => (σ.ostreams i).bind fun t =>
      (callTx t (σ.nifs t.dev) σ.pcount c).map fun (t', nif, pcount) => { σ with
        ostreams := Function.update σ.ostreams i (some t')
        nifs := Function.update σ.nifs t.dev nif, pcount := pcount }
  | .rx i c => (σ.istreams i).bind fun t =>
      (callRx t (σ.nifs t.dev) σ.count c).map fun (t', nif, count) => { σ with
        istreams := Function.update σ.istreams i (some t')
        nifs := Function.update σ.nifs t.dev nif, count := count }
  | .device dev nif => some { σ with nifs := Function.update σ.nifs dev nif }

/-! ## When `end_write` finds the ring empty -/

/-- The current slot is the last of the program's. -/
def NetmapRing.AtLast (r : NetmapRing) : Prop := nmRingNext r r.cur = r.tail

/-- The next `end_write` commits a slot with its own buffer, and that slot is the last of
    the program's in its ring: that of the last `start_write`, or the ring in which a buffer
    is found to copy an assigned one to. -/
def FillsRing (s : OstreamNetmap) (nif : NetmapIf) : Prop :=
  match s.assignedBuffer with
  | none => (nif.tx s.ringNum).AtLast
  | some assigned => ¬ InBufferRange s assigned ∧
      ∃ i, freeRing s nif = some i ∧ (nif.tx i).AtLast

section Calls

variable {s : OstreamNetmap} {nif : NetmapIf} {len : Nat}

theorem nmRingEmpty_reportEmpty (r : NetmapRing) : nmRingEmpty (reportEmpty r) = nmRingEmpty r := by
  obtain ⟨heq, -⟩ := reportEmpty_spec r
  rw [heq, nmRingEmpty, nmRingEmpty]

/-- A slot is committed with its own buffer, and the ring is empty after it if it was the
    last. -/
theorem reportDue_commitSlot (s : OstreamNetmap) (nif : NetmapIf) (len : Nat) :
    reportDue none (commitSlot s nif len).1 (commitSlot s nif len).2 = true ↔
      (nif.tx s.ringNum).AtLast := by
  have hring : (commitSlot s nif len).2.tx (commitSlot s nif len).1.ringNum
      = reportEmpty (advanceRing (nif.tx s.ringNum) s.slotNum len) :=
    NetmapIf.setTx_tx_self ..
  rw [reportDue, hring, nmRingEmpty_reportEmpty]
  show decide (nmRingNext (nif.tx s.ringNum) _ = (nif.tx s.ringNum).tail) = true ↔ _
  exact decide_eq_true_iff

/-- `end_write` makes its call for an empty ring exactly where the packet fills the ring. -/
theorem EndWrite.reportDue_iff {result : Option Nat} {t : OstreamNetmap × NetmapIf}
    (h : EndWrite s nif len result t) : reportDue result t.1 t.2 = true ↔ FillsRing s nif := by
  cases h with
  | started hnone =>
      rw [reportDue_commitSlot, FillsRing, hnone]
  | copied assigned i hassigned hrange hring =>
      rw [reportDue_commitSlot, FillsRing, hassigned]
      show (nif.tx i).AtLast ↔ _
      constructor
      · intro hlast
        exact ⟨hrange, i, hring, hlast⟩
      · rintro ⟨-, j, hj, hlast⟩
        obtain rfl : i = j := Option.some.inj (hring.symm.trans hj)
        exact hlast
  | swapped assigned i hassigned hrange hring =>
      rw [FillsRing, hassigned]
      refine iff_of_false ?_ fun hfills => hfills.1 hrange
      rw [reportDue, Option.isNone_some, Bool.false_and]
      exact Bool.false_ne_true

end Calls

end Camio.Netmap
