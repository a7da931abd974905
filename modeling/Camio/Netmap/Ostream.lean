/-
  Camio.Netmap.Ostream

  `camio_ostream_netmap.c`: packets are sent from the slots of the tx rings.

  `start_write` hands out the buffer of the next free slot.  A buffer that was assigned
  instead is copied to that of the next free slot by `end_write`, or, if it is a packet
  buffer of the mapped memory itself, put into the slot in its place; the buffer that
  was there is returned.

  The `ioctl` calls ask the kernel to move the tails of the rings.  It may do that at
  any time, so they leave no trace here; `Camio.Netmap.Batching` says when they are made.
-/

import Camio.Descr.Parse
import Camio.Errors
import Camio.Lib.Except
import Camio.Netmap.Ring

namespace Camio.Netmap

open Camio.Lib Camio.Descr

/-- `camio_ostream_netmap_t`. -/
structure OstreamNetmap where
  nmMem : Nat
  memSize : Nat
  ringBegin : Nat
  ringEnd : Nat
  packet : Option Nat
  packetSize : Nat
  slotNum : Nat
  ringNum : Nat
  packetBuffBottom : Nat
  assignedBuffer : Option Nat
  assignedBufferSz : Nat

/-- The fields as `camio_ostream_netmap_construct` initialises them. -/
def camioOstreamNetmapConstruct : OstreamNetmap :=
  { nmMem := 0, memSize := 0, ringBegin := 0, ringEnd := 0, packet := none, packetSize := 0
    slotNum := 0, ringNum := 0, packetBuffBottom := 0, assignedBuffer := none
    assignedBufferSz := 0 }

/-- `camio_ostream_netmap_open`.  `mapping` is what mapping the memory of the device and
    setting it up come to, `txSlots` the number of slots in a tx ring. -/
def camioOstreamNetmapOpen (s : OstreamNetmap) (descr : CamioDescr) (mapping : Exit Mapping)
    (useLocal : Bool) (txSlots : Nat) (nif : NetmapIf) : Exit OstreamNetmap :=
  if descr.optHead.isSome then
    eprintfExit .unknownOpt "Option(s) supplied, but none expected\n"
  else if descr.query.isNone then
    eprintfExit .nullPtr "No device supplied\n"
  else mapping.map fun m =>
    let ringBegin := if useLocal then m.nmTxRings else 0
    { s with
      nmMem := m.nmMem, memSize := m.memSize, ringBegin := ringBegin
      ringEnd := if useLocal then m.nmTxRings + 1 else m.nmTxRings
      packetBuffBottom := (nif.tx ringBegin).bufs, ringNum := 0, slotNum := txSlots }

/-- The first ring with space. -/
def freeRing (s : OstreamNetmap) (nif : NetmapIf) : Option Nat :=
  (List.range' s.ringBegin (s.ringEnd - s.ringBegin)).find? fun i => nmRingSpace (nif.tx i) > 0

/-- `get_free_slot`, which sets `ring_num` and `slot_num`; `none` while it polls for a slot.
    `poll` says whether `poll` succeeds. -/
def getFreeSlot (s : OstreamNetmap) (nif : NetmapIf) (poll : Bool) : Call OstreamNetmap :=
  match freeRing s nif with
  | some i => .ok (some { s with ringNum := i, slotNum := (nif.tx i).cur })
  | none => if poll then .ok none else eprintfExit .send "Failed on poll %s\n"

/-- `get_buffer`, for the slot that `get_free_slot` has found. -/
def getBuffer (s : OstreamNetmap) (nif : NetmapIf) : Nat × OstreamNetmap :=
  let ring := nif.tx s.ringNum
  let packet := netmapBuf ring (ring.slot s.slotNum).bufIdx
  (packet, { s with packet := some packet, packetSize := (ring.slot 0).len })

/-- `camio_ostream_netmap_start_write`: the pointer it returns. -/
def camioOstreamNetmapStartWrite (s : OstreamNetmap) (nif : NetmapIf) (len : Nat) (poll : Bool) :
    Call (Option Nat × OstreamNetmap) :=
  if len > 2 * 1024 then .ok (some (none, s))
  else
    match s.packet with
    | some packet => .ok (some (some packet, s))
    | none => (getFreeSlot s nif poll).map <| Option.map fun s =>
        (some (getBuffer s nif).1, (getBuffer s nif).2)

/-- `camio_ostream_netmap_assign_write`. -/
def camioOstreamNetmapAssignWrite (s : OstreamNetmap) (buffer : Option Nat) (len : Nat) :
    Exit (Int × OstreamNetmap) :=
  match buffer with
  | none => eprintfExit .nullPtr "Assigned buffer is null."
  | some p => .ok (0, { s with assignedBuffer := some p, assignedBufferSz := len })

/-- The assigned buffer "comes from the netmap buffer range". -/
def InBufferRange (s : OstreamNetmap) (buffer : Nat) : Prop :=
  s.packetBuffBottom ≤ buffer ∧ buffer ≤ s.nmMem + s.memSize

instance (s : OstreamNetmap) (buffer : Nat) : Decidable (InBufferRange s buffer) :=
  inferInstanceAs (Decidable (_ ∧ _))

/-- "The fast path, for zero copy operation": put the assigned buffer into the slot. -/
def swapSlot (s : OstreamNetmap) (nif : NetmapIf) (assigned len : Nat) :
    OstreamNetmap × NetmapIf :=
  let ring := nif.tx s.ringNum
  let slot := ring.slot s.slotNum
  let ring := ring.setSlot s.slotNum {
    bufIdx := (assigned - s.packetBuffBottom) / 2048 % 2 ^ 32
    len := len
    flags := slot.flags ||| nsBufChanged }
  ({ s with packet := none, packetSize := 0, assignedBuffer := none },
    nif.setTx s.ringNum { ring with cur := nmRingNext ring ring.cur })

/-- Set the length of the slot, and move `cur` and `head` on. -/
def advanceRing (ring : NetmapRing) (slotNum len : Nat) : NetmapRing :=
  let ring := ring.setSlot slotNum { ring.slot slotNum with len := len }
  let ring := { ring with cur := nmRingNext ring ring.cur }
  { ring with head := ring.cur }

/-- Ask the kernel for a report if the ring is empty. -/
def reportEmpty (ring : NetmapRing) : NetmapRing :=
  if nmRingEmpty ring then
    ring.setSlot 0 { ring.slot 0 with flags := (ring.slot 0).flags ||| nsReport }
  else ring

/-- The rest of `end_write`: commit the slot with its own buffer. -/
def commitSlot (s : OstreamNetmap) (nif : NetmapIf) (len : Nat) : OstreamNetmap × NetmapIf :=
  ({ s with packet := none, packetSize := 0 },
    nif.setTx s.ringNum (reportEmpty (advanceRing (nif.tx s.ringNum) s.slotNum len)))

/-- `end_write` with an assigned buffer, after `get_free_slot`. -/
def writeAssigned (s : OstreamNetmap) (nif : NetmapIf) (assigned len : Nat) :
    Option Nat × OstreamNetmap × NetmapIf :=
  let (buffer, s) := getBuffer s nif
  if InBufferRange s assigned then (some buffer, swapSlot s nif assigned len)
  else
    -- "no fast path, looks like we have to copy"
    let nif := { nif with mem := nif.mem.write buffer (nif.mem.read assigned len) }
    let s := { s with assignedBuffer := none, assignedBufferSz := 0 }
    (none, commitSlot s nif len)

/-- `camio_ostream_netmap_end_write`: the buffer it returns. -/
def camioOstreamNetmapEndWrite (s : OstreamNetmap) (nif : NetmapIf) (len : Nat) (poll : Bool) :
    Call (Option Nat × OstreamNetmap × NetmapIf) :=
  if len > 2 * 1024 then
    eprintfExit .fileWrite "The supplied length %lu is greater than the buffer size %lu\n"
  else
    match s.assignedBuffer with
    | none => .ok (some (none, commitSlot s nif len))
    | some assigned => (getFreeSlot s nif poll).map <| Option.map fun s =>
        writeAssigned s nif assigned len

/-! ## What the calls do -/

section Calls

variable {s s' : OstreamNetmap} {nif nif' : NetmapIf} {poll : Bool} {len : Nat}

theorem freeRing_lt {i : Nat} (h : freeRing s nif = some i) : i < s.ringEnd := by
  have hmem := List.mem_of_find?_eq_some h
  rw [List.mem_range'_1] at hmem
  omega

/-- The ring that is found has space. -/
theorem freeRing_some {i : Nat} (h : freeRing s nif = some i) : 0 < nmRingSpace (nif.tx i) := by
  have hfound := List.find?_some h
  exact of_decide_eq_true hfound

/-- `get_free_slot` marks the current slot of a ring with space. -/
theorem getFreeSlot_spec (h : getFreeSlot s nif poll = .ok (some s')) :
    ∃ i, freeRing s nif = some i ∧ s' = { s with ringNum := i, slotNum := (nif.tx i).cur } := by
  rw [getFreeSlot] at h
  cases hring : freeRing s nif with
  | none =>
      rw [hring] at h
      cases poll <;> cases h
  | some i =>
      rw [hring] at h
      cases h
      exact ⟨i, rfl, rfl⟩

/-- The report flag changes neither buffers nor lengths. -/
theorem reportEmpty_spec (r : NetmapRing) :
    reportEmpty r = { r with slot := (reportEmpty r).slot } ∧
      ∀ c, ((reportEmpty r).slot c).bufIdx = (r.slot c).bufIdx ∧
        ((reportEmpty r).slot c).len = (r.slot c).len := by
  rw [reportEmpty]
  split
  · refine ⟨rfl, fun c => ?_⟩
    by_cases hc : c = 0
    · subst hc
      rw [NetmapRing.setSlot_slot_self]
      exact ⟨rfl, rfl⟩
    · rw [NetmapRing.setSlot_slot_of_ne hc]
      exact ⟨rfl, rfl⟩
  · exact ⟨rfl, fun _ => ⟨rfl, rfl⟩⟩

/-- Committing a slot with its own buffer changes its length, moves `cur` and `head` on and
    may set a flag. -/
theorem commitSlot_spec (hslot : s.slotNum = (nif.tx s.ringNum).cur) :
    ∃ slot, (commitSlot s nif len).2 = nif.setTx s.ringNum { nif.tx s.ringNum with
        cur := nmRingNext (nif.tx s.ringNum) (nif.tx s.ringNum).cur
        head := nmRingNext (nif.tx s.ringNum) (nif.tx s.ringNum).cur
        slot := slot } ∧
      (slot (nif.tx s.ringNum).cur).len = len ∧
      (∀ c, (slot c).bufIdx = ((nif.tx s.ringNum).slot c).bufIdx) ∧
      ∀ c ≠ (nif.tx s.ringNum).cur, (slot c).len = ((nif.tx s.ringNum).slot c).len := by
  rw [commitSlot, hslot]
  generalize nif.tx s.ringNum = ring
  obtain ⟨heq, hreport⟩ := reportEmpty_spec (advanceRing ring ring.cur len)
  refine ⟨_, congrArg (nif.setTx s.ringNum) heq, ?_, fun c => ?_, fun c hc => ?_⟩
  · rw [(hreport _).2]
    dsimp only [advanceRing]
    rw [NetmapRing.setSlot_slot_self]
  · rw [(hreport c).1]
    dsimp only [advanceRing]
    by_cases hc : c = ring.cur
    · rw [hc, NetmapRing.setSlot_slot_self]
    · rw [NetmapRing.setSlot_slot_of_ne hc]
  · rw [(hreport c).2]
    dsimp only [advanceRing]
    rw [NetmapRing.setSlot_slot_of_ne hc]

/-- The stream after `get_free_slot` has found a slot in ring `i`, and `get_buffer`. -/
def atSlot (s : OstreamNetmap) (nif : NetmapIf) (i : Nat) : OstreamNetmap :=
  (getBuffer { s with ringNum := i, slotNum := (nif.tx i).cur } nif).2

/-- The buffer of the current slot of ring `i`. -/
def curBuffer (nif : NetmapIf) (i : Nat) : Nat :=
  netmapBuf (nif.tx i) ((nif.tx i).slot (nif.tx i).cur).bufIdx

/-- `start_write` refuses a length, returns the buffer it has, or takes that of the current
    slot of a ring with space. -/
theorem startWrite_spec {r : Option Nat} (h : camioOstreamNetmapStartWrite s nif len poll
    = .ok (some (r, s'))) :
    s' = s ∨ (s.packet = none ∧ ∃ i, freeRing s nif = some i ∧ s' = atSlot s nif i) := by
  rw [camioOstreamNetmapStartWrite] at h
  split at h
  next =>
    cases h
    exact Or.inl rfl
  next =>
    cases hpacket : s.packet with
    | some packet =>
        rw [hpacket] at h
        cases h
        exact Or.inl rfl
    | none =>
        rw [hpacket] at h
        obtain ⟨found, hslot, hfound⟩ := map_eq_ok_iff.mp h
        cases found with
        | none => cases hfound
        | some t =>
            cases hfound
            obtain ⟨i, hring, rfl⟩ := getFreeSlot_spec hslot
            exact Or.inr ⟨rfl, i, hring, rfl⟩

/-- The three ways through `end_write`. -/
inductive EndWrite (s : OstreamNetmap) (nif : NetmapIf) (len : Nat) :
    Option Nat → OstreamNetmap × NetmapIf → Prop where
  | started : s.assignedBuffer = none → EndWrite s nif len none (commitSlot s nif len)
  | copied (assigned i : Nat) : s.assignedBuffer = some assigned → ¬ InBufferRange s assigned →
      freeRing s nif = some i →
      EndWrite s nif len none (commitSlot
        { atSlot s nif i with assignedBuffer := none, assignedBufferSz := 0 }
        { nif with mem := nif.mem.write (curBuffer nif i) (nif.mem.read assigned len) } len)
  | swapped (assigned i : Nat) : s.assignedBuffer = some assigned → InBufferRange s assigned →
      freeRing s nif = some i →
      EndWrite s nif len (some (curBuffer nif i)) (swapSlot (atSlot s nif i) nif assigned len)

theorem writeAssigned_spec {assigned i : Nat} (hassigned : s.assignedBuffer = some assigned)
    (hring : freeRing s nif = some i) :
    EndWrite s nif len
      (writeAssigned { s with ringNum := i, slotNum := (nif.tx i).cur } nif assigned len).1
      (writeAssigned { s with ringNum := i, slotNum := (nif.tx i).cur } nif assigned len).2 := by
  by_cases hrange : InBufferRange s assigned
  · have hswap : writeAssigned { s with ringNum := i, slotNum := (nif.tx i).cur } nif assigned len
        = (some (curBuffer nif i), swapSlot (atSlot s nif i) nif assigned len) := if_pos hrange
    rw [hswap]
    exact .swapped assigned i hassigned hrange hring
  · have hcopy : writeAssigned { s with ringNum := i, slotNum := (nif.tx i).cur } nif assigned len
        = (none, commitSlot { atSlot s nif i with assignedBuffer := none, assignedBufferSz := 0 }
          { nif with mem := nif.mem.write (curBuffer nif i) (nif.mem.read assigned len) } len) :=
      if_neg hrange
    rw [hcopy]
    exact .copied assigned i hassigned hrange hring

theorem endWrite_spec {r : Option Nat} {t : OstreamNetmap × NetmapIf}
    (h : camioOstreamNetmapEndWrite s nif len poll = .ok (some (r, t))) :
    len ≤ 2048 ∧ EndWrite s nif len r t := by
  rw [camioOstreamNetmapEndWrite] at h
  split at h
  next => cases h
  next hlen =>
    refine ⟨Nat.le_of_not_lt hlen, ?_⟩
    cases hassigned : s.assignedBuffer with
    | none =>
        rw [hassigned] at h
        cases h
        exact .started hassigned
    | some assigned =>
        rw [hassigned] at h
        obtain ⟨found, hslot, hfound⟩ := map_eq_ok_iff.mp h
        cases found with
        | none => cases hfound
        | some t' =>
            obtain ⟨i, hring, rfl⟩ := getFreeSlot_spec hslot
            obtain ⟨rfl, rfl⟩ := Prod.mk.inj (Option.some.inj hfound).symm
            exact writeAssigned_spec hassigned hring

/-- `end_write` with an assigned buffer writes to the current slot of a ring with space and
    moves `cur` on.  The slot keeps its buffer, or gets the assigned one. -/
theorem EndWrite.slot {r : Option Nat} {assigned : Nat} (h : EndWrite s nif len r (s', nif'))
    (hassigned : s.assignedBuffer = some assigned) :
    (s'.assignedBuffer = none ∧ s'.packetBuffBottom = s.packetBuffBottom ∧
        s'.ringEnd = s.ringEnd) ∧
      ∃ i ring mem, freeRing s nif = some i ∧ nif' = { nif.setTx i ring with mem := mem } ∧
        ring.bufs = (nif.tx i).bufs ∧ ring.nrBufSize = (nif.tx i).nrBufSize ∧
        ring.numSlots = (nif.tx i).numSlots ∧
        ring.cur = nmRingNext (nif.tx i) (nif.tx i).cur ∧
        (∀ c ≠ (nif.tx i).cur, (ring.slot c).bufIdx = ((nif.tx i).slot c).bufIdx) ∧
        ((r = none ∧ (ring.slot (nif.tx i).cur).bufIdx = ((nif.tx i).slot (nif.tx i).cur).bufIdx) ∨
          (r = some (curBuffer nif i) ∧
            (ring.slot (nif.tx i).cur).bufIdx
              = (assigned - s.packetBuffBottom) / 2048 % 2 ^ 32)) := by
  generalize hresult : (s', nif') = t at h
  cases h with
  | started hnone => exact absurd (hnone.symm.trans hassigned) (Option.some_ne_none _).symm
  | copied a i ha _ hring =>
      obtain ⟨rfl, rfl⟩ := Prod.mk.inj hresult
      refine ⟨⟨rfl, rfl, rfl⟩, ?_⟩
      obtain ⟨slot, heq, -, hsame, -⟩ := @commitSlot_spec
        { atSlot s nif i with assignedBuffer := none, assignedBufferSz := 0 }
        { nif with mem := nif.mem.write (curBuffer nif i) (nif.mem.read a len) } len rfl
      exact ⟨i, _, _, hring, heq, rfl, rfl, rfl, rfl, fun c _ => hsame c, Or.inl ⟨rfl, hsame _⟩⟩
  | swapped a i ha _ hring =>
      obtain ⟨rfl, rfl⟩ := Prod.mk.inj hresult
      obtain rfl := Option.some.inj (ha.symm.trans hassigned)
      refine ⟨⟨rfl, rfl, rfl⟩, i, _, _, hring, rfl, rfl, rfl, rfl, rfl, fun c hc => ?_,
        Or.inr ⟨rfl, ?_⟩⟩
      · exact congrArg _ (NetmapRing.setSlot_slot_of_ne hc ..)
      · exact congrArg _ (NetmapRing.setSlot_slot_self ..)

end Calls

/-- A stream on the first tx ring, as it is opened. -/
def demoOstream : OstreamNetmap :=
  { camioOstreamNetmapConstruct with
    memSize := 65536, ringEnd := 1, packetBuffBottom := 4096, slotNum := 4 }

theorem demoOstream_opened :
    camioOstreamNetmapOpen camioOstreamNetmapConstruct
      { camioDescrConstruct with query := some [] } (.ok ⟨0, 65536, 1, 1⟩) false 4 demoNif
      = .ok demoOstream := rfl

end Camio.Netmap
