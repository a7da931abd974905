/-
  Camio.Netmap.Istream

  `camio_istream_netmap.c`: packets are read from the slots of the rx rings.

  `start_read` hands out the buffer of the current slot, and `end_read` returns the slot
  to the kernel, with the buffer that it is given in place of its own.  As on the way out,
  what the `ioctl` calls ask for may happen at any time.
-/

import Camio.Descr.Parse
import Camio.Errors
import Camio.Netmap.Ring

namespace Camio.Netmap

open Camio.Lib Camio.Descr

/-- `camio_istream_netmap_t`.  `nm_slot` is a pair of a ring and an index. -/
structure IstreamNetmap where
  isClosed : Bool
  nmMem : Nat
  memSize : Nat
  ringBegin : Nat
  ringEnd : Nat
  packet : Option Nat
  packetSize : Nat
  packetBuffBottom : Nat
  nmSlot : Option (Nat × Nat)
  ring : Option Nat

/-- The fields as `camio_istream_netmap_construct` initialises them. -/
def camioIstreamNetmapConstruct : IstreamNetmap :=
  { isClosed := false, nmMem := 0, memSize := 0, ringBegin := 0, ringEnd := 0, packet := none
    packetSize := 0, packetBuffBottom := 0, nmSlot := none, ring := none }

/-- `camio_istream_netmap_open`. -/
def camioIstreamNetmapOpen (s : IstreamNetmap) (descr : CamioDescr) (mapping : Exit Mapping)
    (useLocal : Bool) (nif : NetmapIf) : Exit IstreamNetmap :=
  if descr.optHead.isSome then
    eprintfExit .unknownOpt "Option(s) supplied, but none expected\n"
  else if descr.query.isNone then
    eprintfExit .nullPtr "No device supplied\n"
  else mapping.map fun m =>
    let ringBegin := if useLocal then m.nmRxRings else 0
    { s with
      nmMem := m.nmMem, memSize := m.memSize, ringBegin := ringBegin
      ringEnd := if useLocal then m.nmRxRings + 1 else m.nmRxRings
      packetBuffBottom := (nif.rx ringBegin).bufs, isClosed := false }

/-- The first ring with packets. -/
def fullRing (s : IstreamNetmap) (nif : NetmapIf) : Option Nat :=
  (List.range' s.ringBegin (s.ringEnd - s.ringBegin)).find? fun i => nmRingSpace (nif.rx i) > 0

/-- `prepare_next`. -/
def prepareNext (s : IstreamNetmap) (nif : NetmapIf) : Nat × IstreamNetmap :=
  if s.packet.isSome then (s.packetSize, s)
  else
    match fullRing s nif with
    | some i =>
        let ring := nif.rx i
        let slot := ring.slot ring.cur
        (1, { s with
          packet := some (netmapBuf ring slot.bufIdx), packetSize := slot.len
          nmSlot := some (i, ring.cur), ring := some i })
    | none => (0, s)

/-- `camio_istream_netmap_ready`. -/
def camioIstreamNetmapReady (s : IstreamNetmap) (nif : NetmapIf) : Nat × IstreamNetmap :=
  if s.packetSize ≠ 0 ∨ s.isClosed then (1, s) else prepareNext s nif

/-- `camio_istream_netmap_start_read`: the packet and its size; `none` while it spins. -/
def camioIstreamNetmapStartRead (s : IstreamNetmap) (nif : NetmapIf) :
    Option (Option Nat × Nat × IstreamNetmap) :=
  if s.isClosed then some (none, 0, s)
  else if s.packetSize = 0 then
    let (ready, s) := prepareNext s nif
    if ready = 0 then none else some (s.packet, s.packetSize, s)
  else some (s.packet, s.packetSize, s)

/-- Put the free buffer, if there is one, into the slot that was read. -/
def refillSlot (s : IstreamNetmap) (nif : NetmapIf) : Option Nat → Option NetmapIf
  | none => some nif
  | some freeBuff => s.nmSlot.map fun (i, c) =>
      let ring := nif.rx i
      nif.setRx i (ring.setSlot c {
        bufIdx := (((freeBuff : Int) - s.packetBuffBottom).tdiv 2048 % 2 ^ 32).toNat
        len := 2048
        flags := (ring.slot c).flags ||| nsBufChanged })

/-- Give the current slot of ring `i` back to the kernel. -/
def returnSlot (nif : NetmapIf) (i : Nat) : NetmapIf :=
  let ring := nif.rx i
  let ring := { ring with cur := nmRingNext ring ring.cur }
  nif.setRx i { ring with head := ring.cur }

/-- `camio_istream_netmap_end_read`; `none` where it would follow a null pointer. -/
def camioIstreamNetmapEndRead (s : IstreamNetmap) (nif : NetmapIf) (freeBuff : Option Nat) :
    Option (Int × IstreamNetmap × NetmapIf) :=
  (refillSlot s nif freeBuff).bind fun nif => s.ring.map fun i =>
    (0, { s with packetSize := 0, packet := none }, returnSlot nif i)

/-! ## What the calls do -/

section Calls

variable {s s' : IstreamNetmap} {nif nif' : NetmapIf}

theorem fullRing_lt {i : Nat} (h : fullRing s nif = some i) : i < s.ringEnd := by
  have hmem := List.mem_of_find?_eq_some h
  rw [List.mem_range'_1] at hmem
  omega

/-- The stream with the packet in the current slot of ring `i`. -/
def withPacket (s : IstreamNetmap) (nif : NetmapIf) (i : Nat) : IstreamNetmap :=
  { s with
    packet := some (netmapBuf (nif.rx i) ((nif.rx i).slot (nif.rx i).cur).bufIdx)
    packetSize := ((nif.rx i).slot (nif.rx i).cur).len
    nmSlot := some (i, (nif.rx i).cur), ring := some i }

/-- Without a packet, `start_read` takes that in the current slot of a ring with packets. -/
theorem startRead_spec {out : Option Nat} {size : Nat} (hopen : s.isClosed = false)
    (hpacket : s.packet = none) (hsize : s.packetSize = 0)
    (h : camioIstreamNetmapStartRead s nif = some (out, size, s')) :
    ∃ i, fullRing s nif = some i ∧ s' = withPacket s nif i ∧ out = s'.packet := by
  have hclosed : ¬ s.isClosed = true := by
    rw [hopen]
    decide
  have hnone : ¬ s.packet.isSome = true := by
    rw [hpacket]
    decide
  rw [camioIstreamNetmapStartRead, if_neg hclosed, if_pos hsize, prepareNext, if_neg hnone] at h
  cases hring : fullRing s nif with
  | none =>
      rw [hring] at h
      cases h
  | some i =>
      rw [hring] at h
      cases h
      exact ⟨i, rfl, rfl, rfl⟩

/-- The index that `end_read` writes to the slot. -/
def refillIdx (s : IstreamNetmap) (slot : NetmapSlot) : Option Nat → Nat
  | none => slot.bufIdx
  | some buff => (((buff : Int) - s.packetBuffBottom).tdiv 2048 % 2 ^ 32).toNat

/-- `end_read` writes at most to the slot that was read and moves `cur` on. -/
theorem endRead_spec {free : Option Nat} {i : Nat} {r : Int} (hring : s.ring = some i)
    (hslot : s.nmSlot = some (i, (nif.rx i).cur))
    (h : camioIstreamNetmapEndRead s nif free = some (r, s', nif')) :
    s' = { s with packetSize := 0, packet := none } ∧
      ∃ ring, nif' = nif.setRx i ring ∧ ring.bufs = (nif.rx i).bufs ∧
        ring.nrBufSize = (nif.rx i).nrBufSize ∧ ring.numSlots = (nif.rx i).numSlots ∧
        ring.cur = nmRingNext (nif.rx i) (nif.rx i).cur ∧
        (∀ c ≠ (nif.rx i).cur, (ring.slot c).bufIdx = ((nif.rx i).slot c).bufIdx) ∧
        (ring.slot (nif.rx i).cur).bufIdx = refillIdx s ((nif.rx i).slot (nif.rx i).cur) free := by
  obtain ⟨nif1, hrefill, hreturn⟩ := Option.bind_eq_some_iff.mp h
  obtain ⟨j, hj, hresult⟩ := Option.map_eq_some_iff.mp hreturn
  obtain rfl : i = j := Option.some.inj (hring.symm.trans hj)
  obtain ⟨-, rfl, rfl⟩ := hresult
  refine ⟨rfl, ?_⟩
  cases free with
  | none =>
      obtain rfl := Option.some.inj hrefill
      exact ⟨_, rfl, rfl, rfl, rfl, rfl, fun _ _ => rfl, rfl⟩
  | some buff =>
      rw [refillSlot, hslot] at hrefill
      obtain rfl := Option.some.inj hrefill
      dsimp only [returnSlot]
      rw [NetmapIf.setRx_rx_self, NetmapIf.setRx_setRx]
      refine ⟨_, rfl, rfl, rfl, rfl, rfl, fun c hc => ?_, ?_⟩
      · exact congrArg _ (NetmapRing.setSlot_slot_of_ne hc ..)
      · exact congrArg _ (NetmapRing.setSlot_slot_self ..)

end Calls

/-- A stream on the first rx ring, as it is opened. -/
def demoIstream : IstreamNetmap :=
  { camioIstreamNetmapConstruct with memSize := 65536, ringEnd := 1, packetBuffBottom := 4096 }

theorem demoIstream_opened :
    camioIstreamNetmapOpen camioIstreamNetmapConstruct
      { camioDescrConstruct with query := some [] } (.ok ⟨0, 65536, 1, 1⟩) false demoNif
      = .ok demoIstream := rfl

end Camio.Netmap
