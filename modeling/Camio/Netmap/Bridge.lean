/-
  Camio.Netmap.Bridge

  Packets from an rx ring to a tx ring: what a program makes of a netmap istream and a netmap
  ostream.

  `camio_cat` asks the ostream for a buffer, copies the packet there and ends the write, as
  `can_assign_write` tells it to; a program may also assign the packet itself, which saves
  the copy where both are on the same memory.  Either way the length is that which the
  packet was read with, and what `end_write` returns goes back with `end_read`.  The device
  works on its part of the rings at any time.
-/

import Camio.Netmap.Card
import Camio.Netmap.Forward

namespace Camio.Netmap

open Camio.Lib Camio.Descr

/-- The memory after a store. -/
def NetmapIf.store (nif : NetmapIf) (a : Nat) (bytes : List UInt8) : NetmapIf :=
  { nif with mem := nif.mem.write a bytes }

@[simp] theorem NetmapIf.store_mem (nif : NetmapIf) (a : Nat) (bytes : List UInt8) :
    (nif.store a bytes).mem = nif.mem.write a bytes := rfl

/-- How far the program is with a packet: the pointer that `start_read` has returned, and the
    one that `start_write` or `end_write` has. -/
inductive Stage where
  | idle
  | started (packet : Nat)
  | assigned (packet : Nat)
  | granted (packet buffer : Nat)
  /-- the packet has been copied to the buffer -/
  | filled (packet buffer : Nat)
  | written (free : Option Nat)

/-- The streams with the device; the packets that have arrived in each rx ring; and those
    that `start_read` has handed out and `end_write` has committed, with their rings. -/
structure Bridge where
  istream : IstreamNetmap
  ostream : OstreamNetmap
  nif : NetmapIf
  stage : Stage
  card : Card
  arrived : Nat → List (List UInt8)
  taken : List (Nat × List UInt8)
  committed : List (Nat × List UInt8)

inductive BridgeEvent where
  | ready
  | startRead
  | assignWrite
  | startWrite
  /-- `memcpy` of the packet to the buffer that `start_write` has returned -/
  | copy
  | endWrite
  | endRead
  | receive (ring : Nat) (packet : List UInt8) (flags : Nat)
  | transmit (ring flags : Nat)
  | reclaim (ring : Nat)

/-- The packet in the istream's hands. -/
def Bridge.packet (σ : Bridge) : List UInt8 :=
  σ.nif.mem.read (σ.istream.packet.getD 0) σ.istream.packetSize

def Bridge.endWrite (σ : Bridge) : Option Bridge :=
  match camioOstreamNetmapEndWrite σ.ostream σ.nif σ.istream.packetSize true with
  | .ok (some (free, s, nif)) => some { σ with
      ostream := s, nif := nif, stage := .written free
      committed := σ.committed ++ [(s.ringNum, σ.packet)] }
  | _ => none

/-- `ready` is asked before a packet is read.  A call that still polls is refused. -/
def bridgeStep (σ : Bridge) : BridgeEvent → Option Bridge
  | .ready =>
      match σ.stage with
      | .idle => some { σ with istream := (camioIstreamNetmapReady σ.istream σ.nif).2 }
      | _ => none
  | .startRead =>
      match σ.stage with
      | .idle =>
          match camioIstreamNetmapStartRead σ.istream σ.nif with
          | some (some packet, _, s) =>
              let τ := { σ with istream := s, stage := .started packet }
              some { τ with taken := σ.taken ++ [(s.ring.getD 0, τ.packet)] }
          | _ => none
      | _ => none
  | .assignWrite =>
      match σ.stage with
      | .started packet =>
          match camioOstreamNetmapAssignWrite σ.ostream (some packet) σ.istream.packetSize with
          | .ok (_, s) => some { σ with ostream := s, stage := .assigned packet }
          | _ => none
      | _ => none
  | .startWrite =>
      match σ.stage with
      | .started packet =>
          match camioOstreamNetmapStartWrite σ.ostream σ.nif σ.istream.packetSize true with
          | .ok (some (some buffer, s)) =>
              some { σ with ostream := s, stage := .granted packet buffer }
          | _ => none
      | _ => none
  | .copy =>
      match σ.stage with
      | .granted packet buffer =>
          some { σ with
            nif := σ.nif.store buffer (σ.nif.mem.read packet σ.istream.packetSize)
            stage := .filled packet buffer }
      | _ => none
  | .endWrite =>
      match σ.stage with
      | .assigned _ => σ.endWrite
      | .filled _ _ => σ.endWrite
      | _ => none
  | .endRead =>
      match σ.stage with
      | .written free => (camioIstreamNetmapEndRead σ.istream σ.nif free).map fun (_, s, nif) =>
          { σ with istream := s, nif := nif, stage := .idle }
      | _ => none
  | .receive i packet flags => (receive σ.card σ.nif i packet flags).map fun nif =>
      { σ with nif := nif, arrived := Function.update σ.arrived i (σ.arrived i ++ [packet]) }
  | .transmit j flags => (transmit σ.card σ.nif j flags).map fun (card, nif) =>
      { σ with card := card, nif := nif }
  | .reclaim j => (reclaim σ.card σ.nif j).map fun nif => { σ with nif := nif }

/-- Both streams just opened, on the rings of `rx` and those of `tx`, all packets of which the
    device has sent. -/
def bridgeStart (rx tx : Mapping) (is : IstreamNetmap) (os : OstreamNetmap) (nif : NetmapIf) :
    Bridge :=
  { istream := is, ostream := os, nif := nif, stage := .idle
    card := {
      rxRings := rx.nmRxRings + 1, txRings := tx.nmTxRings + 1
      hwcur := fun j => (nif.tx j).head, sent := fun _ => [] }
    arrived := fun i => packetsIn nif.mem (nif.rx i) (nif.rx i).cur (nif.rx i).tail
    taken := [], committed := [] }

/-- Of packets with their rings, those of ring `i`. -/
def packetsOf (i : Nat) (l : List (Nat × List UInt8)) : List (List UInt8) :=
  (l.filter fun p => p.1 = i).map Prod.snd

@[simp] theorem packetsOf_nil (i : Nat) : packetsOf i [] = [] := rfl

theorem packetsOf_append (i : Nat) (l l' : List (Nat × List UInt8)) :
    packetsOf i (l ++ l') = packetsOf i l ++ packetsOf i l' := by simp [packetsOf]

@[simp] theorem packetsOf_self (i : Nat) (packet : List UInt8) :
    packetsOf i [(i, packet)] = [packet] := by simp [packetsOf]

theorem packetsOf_of_ne {i j : Nat} (h : j ≠ i) (packet : List UInt8) :
    packetsOf i [(j, packet)] = [] := by simp [packetsOf, h]

/-- Packets of some rings, at most `k` of each. -/
theorem length_le_of_packetsOf {l : List (Nat × List UInt8)} {a n k : Nat}
    (hmem : ∀ p ∈ l, a ≤ p.1 ∧ p.1 < a + n)
    (hcount : ∀ j, a ≤ j → j < a + n → (packetsOf j l).length ≤ k) : l.length ≤ n * k := by
  induction n generalizing l with
  | zero =>
      have hnil : l = [] := by
        rw [List.eq_nil_iff_forall_not_mem]
        intro p hp
        have hrange := hmem p hp
        omega
      simp [hnil]
  | succ n ih =>
      have hrest := @ih (l.filter fun p => ¬ p.1 = a + n) (fun p hp => ?_) fun j hj hlt => ?_
      · have hlast := hcount (a + n) (by omega) (by omega)
        rw [packetsOf, List.length_map] at hlast
        have hsplit := List.length_eq_length_filter_add (l := l) fun p => decide (p.1 = a + n)
        simp only [decide_not] at hrest
        rw [Nat.succ_mul]
        omega
      · obtain ⟨hp, hne⟩ := List.mem_filter.mp hp
        have hrange := hmem p hp
        simp only [decide_eq_true_eq] at hne
        omega
      -- the packets of the last ring are none of those of the others
      · have hsame : packetsOf j (l.filter fun p => ¬ p.1 = a + n) = packetsOf j l := by
          rw [packetsOf, packetsOf, List.filter_filter]
          congr 1
          refine List.filter_congr fun p _ => ?_
          by_cases hp : p.1 = j
          · simp [hp]
            omega
          · simp [hp]
        rw [hsame]
        exact hcount j hj (by omega)

/-! ## Buffers -/

/-- Where the buffer of a slot is. -/
def bufferOf (nif : NetmapIf) : SlotPos → Nat
  | .tx j c => slotBuffer (nif.tx j) c
  | .rx i c => slotBuffer (nif.rx i) c

/-- The slot is one of a ring of the device. -/
def InRing (card : Card) (nif : NetmapIf) : SlotPos → Prop
  | .tx j c => j < card.txRings ∧ c < (nif.tx j).numSlots
  | .rx i c => i < card.rxRings ∧ c < (nif.rx i).numSlots

/-- No two slots have a byte of their buffers in common. -/
def Separate (card : Card) (nif : NetmapIf) : Prop :=
  ∀ p q, InRing card nif p → InRing card nif q → p ≠ q →
    bufferOf nif p + 2048 ≤ bufferOf nif q ∨ bufferOf nif q + 2048 ≤ bufferOf nif p

/-- All slots have the buffers that they had. -/
structure SameBuffers (nif nif' : NetmapIf) : Prop where
  txSlots : ∀ j, (nif'.tx j).numSlots = (nif.tx j).numSlots
  rxSlots : ∀ i, (nif'.rx i).numSlots = (nif.rx i).numSlots
  buffer : ∀ p, bufferOf nif' p = bufferOf nif p

section Buffers

variable {card : Card} {nif nif' nif'' : NetmapIf} {i j : Nat} {r : NetmapRing}

theorem SameBuffers.refl (nif : NetmapIf) : SameBuffers nif nif :=
  ⟨fun _ => rfl, fun _ => rfl, fun _ => rfl⟩

theorem SameBuffers.trans (h : SameBuffers nif nif') (h' : SameBuffers nif' nif'') :
    SameBuffers nif nif'' where
  txSlots := fun j => (h'.txSlots j).trans (h.txSlots j)
  rxSlots := fun i => (h'.rxSlots i).trans (h.rxSlots i)
  buffer := fun p => (h'.buffer p).trans (h.buffer p)

theorem sameBuffers_store (nif : NetmapIf) (a : Nat) (bytes : List UInt8) :
    SameBuffers nif (nif.store a bytes) where
  txSlots := fun _ => rfl
  rxSlots := fun _ => rfl
  buffer := by
    intro p
    cases p <;> rfl

theorem SameBuffers.inRing (h : SameBuffers nif nif') {p : SlotPos} :
    InRing card nif' p ↔ InRing card nif p := by
  cases p with
  | tx j c => simp only [InRing, h.txSlots]
  | rx i c => simp only [InRing, h.rxSlots]

theorem SameBuffers.separate (h : SameBuffers nif nif') (hsep : Separate card nif) :
    Separate card nif' := by
  intro p q hp hq hne
  rw [h.buffer, h.buffer]
  exact hsep p q (h.inRing.mp hp) (h.inRing.mp hq) hne

/-- Writes to a tx ring that leave its slots their buffers. -/
theorem sameBuffers_setTx {mem : Mem} (hslots : r.numSlots = (nif.tx j).numSlots)
    (hbuffer : ∀ c, slotBuffer r c = slotBuffer (nif.tx j) c) :
    SameBuffers nif { nif.setTx j r with mem := mem } where
  txSlots := by
    intro k
    by_cases hk : k = j
    · subst hk
      simp [hslots]
    · simp [NetmapIf.setTx_tx_of_ne hk]
  rxSlots := fun _ => rfl
  buffer := by
    rintro (⟨k, c⟩ | ⟨k, c⟩)
    · by_cases hk : k = j
      · subst hk
        simp [bufferOf, hbuffer]
      · simp [bufferOf, NetmapIf.setTx_tx_of_ne hk]
    · rfl

/-- And to an rx ring. -/
theorem sameBuffers_setRx {mem : Mem} (hslots : r.numSlots = (nif.rx i).numSlots)
    (hbuffer : ∀ c, slotBuffer r c = slotBuffer (nif.rx i) c) :
    SameBuffers nif { nif.setRx i r with mem := mem } where
  txSlots := fun _ => rfl
  rxSlots := by
    intro k
    by_cases hk : k = i
    · subst hk
      simp [hslots]
    · simp [NetmapIf.setRx_rx_of_ne hk]
  buffer := by
    rintro (⟨k, c⟩ | ⟨k, c⟩)
    · rfl
    · by_cases hk : k = i
      · subst hk
        simp [bufferOf, hbuffer]
      · simp [bufferOf, NetmapIf.setRx_rx_of_ne hk]

end Buffers

/-! ## What the calls do -/

section Calls

variable {card : Card} {s s' : IstreamNetmap} {nif : NetmapIf} {i : Nat}

/-- The istream has the packet in the current slot of ring `i`, which is not empty. -/
structure Holds (s : IstreamNetmap) (nif : NetmapIf) (i : Nat) : Prop where
  packet : s.packet = some (slotBuffer (nif.rx i) (nif.rx i).cur)
  size : s.packetSize = ((nif.rx i).slot (nif.rx i).cur).len
  nmSlot : s.nmSlot = some (i, (nif.rx i).cur)
  ring : s.ring = some i
  ring_lt : i < s.ringEnd
  waiting : (nif.rx i).cur ≠ (nif.rx i).tail
  pos : 0 < s.packetSize

/-- Between two packets it has none, or the next one. -/
def BetweenPackets (s : IstreamNetmap) (nif : NetmapIf) : Prop :=
  (s.packet = none ∧ s.packetSize = 0) ∨ ∃ i, Holds s nif i

/-- What is to be read: from rings of which the program has returned all that it has passed,
    packets that are neither empty nor longer than a buffer. -/
structure RxReady (rings : Nat) (nif : NetmapIf) : Prop where
  queue : ∀ i < rings, RxQueue (nif.rx i)
  lens : ∀ i < rings, ∀ c < (nif.rx i).numSlots,
    InWindow (nif.rx i).numSlots (nif.rx i).cur (nif.rx i).tail c →
      0 < ((nif.rx i).slot c).len ∧ ((nif.rx i).slot c).len ≤ 2048

theorem fullRing_waiting (hrx : RxQueue (nif.rx i)) (h : fullRing s nif = some i) :
    (nif.rx i).cur ≠ (nif.rx i).tail := by
  have hfound := List.find?_some h
  have hpos : 0 < nmRingSpace (nif.rx i) := of_decide_eq_true hfound
  have hcur := hrx.cur_lt
  have htail := hrx.tail_lt
  simp only [nmRingSpace] at hpos
  split at hpos <;> omega

theorem holds_withPacket (hready : RxReady s.ringEnd nif) (h : fullRing s nif = some i) :
    Holds (withPacket s nif i) nif i := by
  have hlt := fullRing_lt h
  have hrx := hready.queue i hlt
  have hwaiting := fullRing_waiting hrx h
  have hlens := hready.lens i hlt _ hrx.cur_lt (inWindow_head hrx.cur_lt hwaiting)
  exact ⟨rfl, rfl, rfl, rfl, hlt, hwaiting, hlens.1⟩

/-- Without a packet, the stream looks for one. -/
theorem prepareNext_spec (hpacket : s.packet = none) :
    (∃ i, fullRing s nif = some i ∧ prepareNext s nif = (1, withPacket s nif i)) ∨
      (fullRing s nif = none ∧ prepareNext s nif = (0, s)) := by
  rw [prepareNext, hpacket, Option.isSome_none, if_neg (by decide)]
  cases fullRing s nif with
  | none => exact Or.inr ⟨rfl, rfl⟩
  | some i => exact Or.inl ⟨i, rfl, rfl⟩

/-- `ready` looks for a packet if there is none yet. -/
theorem ready_spec (hready : RxReady s.ringEnd nif) (hopen : s.isClosed = false)
    (h : BetweenPackets s nif) :
    (camioIstreamNetmapReady s nif).2.isClosed = false ∧
      (camioIstreamNetmapReady s nif).2.ringEnd = s.ringEnd ∧
      BetweenPackets (camioIstreamNetmapReady s nif).2 nif := by
  rw [camioIstreamNetmapReady]
  -- `prepare_next` is called only where there is no packet yet
  rcases h with ⟨hpacket, hsize⟩ | ⟨i, hheld⟩
  · rw [if_neg (by simp [hsize, hopen])]
    rcases @prepareNext_spec s nif hpacket with ⟨i, hring, heq⟩ | ⟨-, heq⟩
    · rw [heq]
      exact ⟨hopen, rfl, Or.inr ⟨i, holds_withPacket hready hring⟩⟩
    · rw [heq]
      exact ⟨hopen, rfl, Or.inl ⟨hpacket, hsize⟩⟩
  · rw [if_pos (Or.inl (Nat.pos_iff_ne_zero.mp hheld.pos))]
    exact ⟨hopen, rfl, Or.inr ⟨i, hheld⟩⟩

/-- `start_read` hands out the packet that the stream has then. -/
theorem startRead_holds {out : Option Nat} {size : Nat} (hready : RxReady s.ringEnd nif)
    (hopen : s.isClosed = false) (h : BetweenPackets s nif)
    (hread : camioIstreamNetmapStartRead s nif = some (out, size, s')) :
    s'.isClosed = false ∧ s'.ringEnd = s.ringEnd ∧ out = s'.packet ∧ ∃ i, Holds s' nif i := by
  rcases h with ⟨hpacket, hsize⟩ | ⟨i, hheld⟩
  · obtain ⟨i, hring, rfl, hout⟩ := startRead_spec hopen hpacket hsize hread
    exact ⟨hopen, rfl, hout, i, holds_withPacket hready hring⟩
  · rw [camioIstreamNetmapStartRead, if_neg (by simp [hopen]),
      if_neg (Nat.pos_iff_ne_zero.mp hheld.pos)] at hread
    cases hread
    exact ⟨hopen, rfl, rfl, i, hheld⟩

end Calls

/-! ## The calls of a round -/

section Rounds

variable {σ σ' : Bridge}

theorem bridgeStep_ready (h : bridgeStep σ .ready = some σ') : σ.stage = .idle ∧
    σ' = { σ with istream := (camioIstreamNetmapReady σ.istream σ.nif).2 } := by
  rw [bridgeStep] at h
  split at h
  next hstage => exact ⟨hstage, (Option.some.inj h).symm⟩
  next => cases h

theorem bridgeStep_startRead (h : bridgeStep σ .startRead = some σ') :
    σ.stage = .idle ∧ ∃ packet size s,
      camioIstreamNetmapStartRead σ.istream σ.nif = some (some packet, size, s) ∧
        σ' = { σ with
          istream := s, stage := .started packet
          taken := σ.taken ++
            [(s.ring.getD 0, σ.nif.mem.read (s.packet.getD 0) s.packetSize)] } := by
  rw [bridgeStep] at h
  split at h
  next hstage =>
    split at h
    next packet size s hread =>
      exact ⟨hstage, packet, size, s, hread, (Option.some.inj h).symm⟩
    next => cases h
  next => cases h

theorem bridgeStep_assignWrite (h : bridgeStep σ .assignWrite = some σ') :
    ∃ packet, σ.stage = .started packet ∧ σ' = { σ with
      ostream := { σ.ostream with
        assignedBuffer := some packet, assignedBufferSz := σ.istream.packetSize }
      stage := .assigned packet } := by
  rw [bridgeStep] at h
  split at h
  next packet hstage => exact ⟨packet, hstage, (Option.some.inj h).symm⟩
  next => cases h

theorem bridgeStep_startWrite (h : bridgeStep σ .startWrite = some σ') :
    ∃ packet, σ.stage = .started packet ∧ ∃ buffer s,
      camioOstreamNetmapStartWrite σ.ostream σ.nif σ.istream.packetSize true
          = .ok (some (some buffer, s)) ∧
        σ' = { σ with ostream := s, stage := .granted packet buffer } := by
  rw [bridgeStep] at h
  split at h
  next packet hstage =>
    split at h
    next buffer s hwrite =>
      exact ⟨packet, hstage, buffer, s, hwrite, (Option.some.inj h).symm⟩
    next => cases h
  next => cases h

theorem bridgeStep_copy (h : bridgeStep σ .copy = some σ') :
    ∃ packet buffer, σ.stage = .granted packet buffer ∧ σ' = { σ with
      nif := σ.nif.store buffer (σ.nif.mem.read packet σ.istream.packetSize)
      stage := .filled packet buffer } := by
  rw [bridgeStep] at h
  split at h
  next packet buffer hstage => exact ⟨packet, buffer, hstage, (Option.some.inj h).symm⟩
  next => cases h

theorem bridgeStep_endWrite (h : bridgeStep σ .endWrite = some σ') :
    ((∃ packet, σ.stage = .assigned packet) ∨ ∃ packet buffer, σ.stage = .filled packet buffer) ∧
      ∃ free s nif,
        camioOstreamNetmapEndWrite σ.ostream σ.nif σ.istream.packetSize true
          = .ok (some (free, s, nif)) ∧
        σ' = { σ with
          ostream := s, nif := nif, stage := .written free
          committed := σ.committed ++ [(s.ringNum, σ.packet)] } := by
  -- either way it is the same call
  have hcall : σ.endWrite = some σ' → ∃ free s nif,
      camioOstreamNetmapEndWrite σ.ostream σ.nif σ.istream.packetSize true
        = .ok (some (free, s, nif)) ∧
      σ' = { σ with
        ostream := s, nif := nif, stage := .written free
        committed := σ.committed ++ [(s.ringNum, σ.packet)] } := by
    intro hend
    rw [Bridge.endWrite] at hend
    split at hend
    next free s nif hwrite => exact ⟨free, s, nif, hwrite, (Option.some.inj hend).symm⟩
    next => cases hend
  rw [bridgeStep] at h
  split at h
  next packet hstage => exact ⟨Or.inl ⟨packet, hstage⟩, hcall h⟩
  next packet buffer hstage => exact ⟨Or.inr ⟨packet, buffer, hstage⟩, hcall h⟩
  next => cases h

theorem bridgeStep_endRead (h : bridgeStep σ .endRead = some σ') :
    ∃ free, σ.stage = .written free ∧ ∃ r s nif,
      camioIstreamNetmapEndRead σ.istream σ.nif free = some (r, s, nif) ∧
        σ' = { σ with istream := s, nif := nif, stage := .idle } := by
  rw [bridgeStep] at h
  split at h
  next free hstage =>
    obtain ⟨⟨r, s, nif⟩, hend, rfl⟩ := Option.map_eq_some_iff.mp h
    exact ⟨free, hstage, r, s, nif, hend, rfl⟩
  next => cases h

end Rounds

/-! ## Packets that are copied -/

section Copies

variable {s s' : OstreamNetmap} {nif nif' : NetmapIf} {len p : Nat} {r : Option Nat}

/-- `start_write` has returned the buffer of the current slot of a ring with space. -/
structure Granted (s : OstreamNetmap) (nif : NetmapIf) (buffer : Nat) : Prop where
  ring_lt : s.ringNum < s.ringEnd
  slotNum : s.slotNum = (nif.tx s.ringNum).cur
  space : 0 < nmRingSpace (nif.tx s.ringNum)
  buffer_eq : buffer = slotBuffer (nif.tx s.ringNum) (nif.tx s.ringNum).cur

/-- The slot stays granted while the device works on a tx ring. -/
theorem Granted.setTx {buffer j : Nat} {ring : NetmapRing} (h : Granted s nif buffer)
    (hcur : ring.cur = (nif.tx j).cur)
    (hspace : 0 < nmRingSpace (nif.tx j) → 0 < nmRingSpace ring)
    (hbuffer : ∀ c, slotBuffer ring c = slotBuffer (nif.tx j) c) :
    Granted s (nif.setTx j ring) buffer := by
  obtain ⟨hlt, hslot, hpos, heq⟩ := h
  by_cases hj : s.ringNum = j
  · subst hj
    refine ⟨hlt, ?_, ?_, ?_⟩
    · rw [NetmapIf.setTx_tx_self, hcur]
      exact hslot
    · rw [NetmapIf.setTx_tx_self]
      exact hspace hpos
    · rw [NetmapIf.setTx_tx_self, hcur, hbuffer]
      exact heq
  · refine ⟨hlt, ?_, ?_, ?_⟩
    · rw [NetmapIf.setTx_tx_of_ne hj]
      exact hslot
    · rw [NetmapIf.setTx_tx_of_ne hj]
      exact hpos
    · rw [NetmapIf.setTx_tx_of_ne hj]
      exact heq

theorem startWrite_granted {buffer : Nat} (hpacket : s.packet = none)
    (h : camioOstreamNetmapStartWrite s nif len true = .ok (some (some buffer, s'))) :
    Granted s' nif buffer ∧ s'.assignedBuffer = s.assignedBuffer ∧ s'.ringEnd = s.ringEnd ∧
      ∀ a, InBufferRange s' a ↔ InBufferRange s a := by
  rw [camioOstreamNetmapStartWrite] at h
  split at h
  next => simp at h
  next =>
    rw [hpacket] at h
    obtain ⟨found, hslot, hfound⟩ := map_eq_ok_iff.mp h
    cases found with
    | none => cases hfound
    | some t =>
        obtain ⟨i, hring, rfl⟩ := getFreeSlot_spec hslot
        obtain ⟨hbuffer, rfl⟩ := Prod.mk.inj (Option.some.inj hfound)
        obtain rfl := Option.some.inj hbuffer
        exact ⟨⟨freeRing_lt hring, rfl, freeRing_some hring, rfl⟩, rfl, rfl, fun _ => Iff.rfl⟩

/-- `end_write` has committed the current slot of a tx ring with the buffer that it has. -/
structure InPlace (s : OstreamNetmap) (nif : NetmapIf) (len : Nat) (s' : OstreamNetmap)
    (nif' : NetmapIf) (ring : NetmapRing) : Prop where
  assigned : s'.assignedBuffer = none
  packet : s'.packet = none
  range : ∀ a, InBufferRange s' a ↔ InBufferRange s a
  ringEnd : s'.ringEnd = s.ringEnd
  nif_eq : nif' = nif.setTx s'.ringNum ring
  numSlots : ring.numSlots = (nif.tx s'.ringNum).numSlots
  cur : ring.cur = nmRingNext (nif.tx s'.ringNum) (nif.tx s'.ringNum).cur
  head : ring.head = nmRingNext (nif.tx s'.ringNum) (nif.tx s'.ringNum).cur
  tail : ring.tail = (nif.tx s'.ringNum).tail
  buffer : ∀ c, slotBuffer ring c = slotBuffer (nif.tx s'.ringNum) c
  len_cur : (ring.slot (nif.tx s'.ringNum).cur).len = len
  len_ne : ∀ c ≠ (nif.tx s'.ringNum).cur,
    (ring.slot c).len = ((nif.tx s'.ringNum).slot c).len

theorem commitSlot_inPlace (hslot : s.slotNum = (nif.tx s.ringNum).cur)
    (hassigned : s.assignedBuffer = none) :
    ∃ ring, InPlace s nif len (commitSlot s nif len).1 (commitSlot s nif len).2 ring := by
  obtain ⟨slot, heq, hcur, hidx, hlens⟩ := @commitSlot_spec s nif len hslot
  refine ⟨_, ⟨hassigned, rfl, fun _ => Iff.rfl, rfl, heq, rfl, rfl, rfl, rfl, fun c => ?_, hcur,
    hlens⟩⟩
  simp only [slotBuffer, hidx]
  rfl

/-- An assigned buffer that is not one of the tx ring's memory is copied to the current slot of
    a ring with space. -/
theorem endWrite_copied
    (h : camioOstreamNetmapEndWrite s nif len true = .ok (some (r, s', nif')))
    (hassigned : s.assignedBuffer = some p) (hout : ¬ InBufferRange s p) :
    r = none ∧ freeRing s nif = some s'.ringNum ∧ ∃ ring,
      InPlace s (nif.store (slotBuffer (nif.tx s'.ringNum) (nif.tx s'.ringNum).cur)
        (nif.mem.read p len)) len s' nif' ring := by
  obtain ⟨-, hend⟩ := endWrite_spec h
  generalize hresult : (s', nif') = t at hend
  cases hend with
  | started hnone => simp [hnone] at hassigned
  | swapped a i ha hin =>
      obtain rfl := Option.some.inj (ha.symm.trans hassigned)
      exact absurd hin hout
  | copied a i ha _ hring =>
      obtain rfl := Option.some.inj (ha.symm.trans hassigned)
      obtain ⟨rfl, rfl⟩ := Prod.mk.inj hresult
      obtain ⟨ring, hplace⟩ := @commitSlot_inPlace
        { atSlot s nif i with assignedBuffer := none, assignedBufferSz := 0 }
        (nif.store (curBuffer nif i) (nif.mem.read a len)) len rfl rfl
      exact ⟨rfl, hring, ring, { hplace with }⟩

/-- The buffer that was granted is committed. -/
theorem endWrite_granted {buffer : Nat}
    (h : camioOstreamNetmapEndWrite s nif len true = .ok (some (r, s', nif')))
    (hassigned : s.assignedBuffer = none) (hgranted : Granted s nif buffer) :
    r = none ∧ s'.ringNum = s.ringNum ∧ ∃ ring, InPlace s nif len s' nif' ring := by
  obtain ⟨-, hend⟩ := endWrite_spec h
  generalize hresult : (s', nif') = t at hend
  cases hend with
  | started =>
      obtain ⟨rfl, rfl⟩ := Prod.mk.inj hresult
      exact ⟨rfl, rfl, commitSlot_inPlace hgranted.slotNum hassigned⟩
  | copied a i ha => simp [hassigned] at ha
  | swapped a i ha => simp [hassigned] at ha

end Copies

/-! ## The streams as they are opened -/

section Opens

variable {is : IstreamNetmap} {os : OstreamNetmap} {nif : NetmapIf} {idescr odescr : CamioDescr}
  {imapping omapping : Exit Mapping} {ilocal olocal : Bool} {txSlots : Nat}

theorem istreamOpen_spec
    (h : camioIstreamNetmapOpen camioIstreamNetmapConstruct idescr imapping ilocal nif = .ok is) :
    ∃ m, imapping = .ok m ∧ is = { camioIstreamNetmapConstruct with
      nmMem := m.nmMem, memSize := m.memSize
      ringBegin := if ilocal then m.nmRxRings else 0
      ringEnd := if ilocal then m.nmRxRings + 1 else m.nmRxRings
      packetBuffBottom := (nif.rx (if ilocal then m.nmRxRings else 0)).bufs } := by
  rw [camioIstreamNetmapOpen] at h
  split at h
  next => cases h
  next =>
    split at h
    next => cases h
    next =>
      obtain ⟨m, hm, heq⟩ := map_eq_ok_iff.mp h
      exact ⟨m, hm, heq.symm⟩

theorem ostreamOpen_spec
    (h : camioOstreamNetmapOpen camioOstreamNetmapConstruct odescr omapping olocal txSlots nif
      = .ok os) :
    ∃ m, omapping = .ok m ∧ os = { camioOstreamNetmapConstruct with
      nmMem := m.nmMem, memSize := m.memSize
      ringBegin := if olocal then m.nmTxRings else 0
      ringEnd := if olocal then m.nmTxRings + 1 else m.nmTxRings
      packetBuffBottom := (nif.tx (if olocal then m.nmTxRings else 0)).bufs
      slotNum := txSlots } := by
  rw [camioOstreamNetmapOpen] at h
  split at h
  next => cases h
  next =>
    split at h
    next => cases h
    next =>
      obtain ⟨m, hm, heq⟩ := map_eq_ok_iff.mp h
      exact ⟨m, hm, heq.symm⟩

end Opens

end Camio.Netmap
