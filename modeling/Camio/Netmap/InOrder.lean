/-
  Camio.Netmap.InOrder

  Packets copied from the rx rings of a device to the tx rings of a device: each rx ring is
  read in the order of arrival, each tx ring is sent in the order of the commits, and no
  packet is changed, left out or sent twice, whatever the devices do meanwhile.

  The invariant has one part for the rx rings and one for the tx rings; that all slots have
  buffers of their own keeps what is done to one of them from the other.  A packet is copied
  by the program or by `end_write`; either way a store to the buffer of the current slot
  (`Bridging.fill`) comes before the slot is committed (`Bridging.commit`).
-/

import Camio.Netmap.Bridge

namespace Camio.Netmap

open Camio.Lib Camio.Descr

/-- The rx ring whose current packet is between `start_read` and `end_read`. -/
def Bridge.reading (σ : Bridge) : Option Nat :=
  match σ.stage with
  | .idle => none
  | _ => σ.istream.ring

/-- Where the packets of rx ring `i` begin that have not been read. -/
def Bridge.unreadFrom (σ : Bridge) (i : Nat) : Nat :=
  if σ.reading = some i then nmRingNext (σ.nif.rx i) (σ.nif.rx i).cur else (σ.nif.rx i).cur

/-- The packets of rx ring `i` that have not been read. -/
def Bridge.unread (σ : Bridge) (i : Nat) : List (List UInt8) :=
  packetsIn σ.nif.mem (σ.nif.rx i) (σ.unreadFrom i) (σ.nif.rx i).tail

/-- The packets of tx ring `j` that have not been sent. -/
def Bridge.unsent (σ : Bridge) (j : Nat) : List (List UInt8) :=
  packetsIn σ.nif.mem (σ.nif.tx j) (σ.card.hwcur j) (σ.nif.tx j).head

/-- The buffers of the rx rings do not lie in the memory of the ostream. -/
def Elsewhere (card : Card) (os : OstreamNetmap) (nif : NetmapIf) : Prop :=
  ∀ i < card.rxRings, ∀ c < (nif.rx i).numSlots, ¬ InBufferRange os (slotBuffer (nif.rx i) c)

/-- The istream has handed out its packet, the last one taken, at `p`; the others have been
    committed. -/
def InHand (σ : Bridge) (p : Nat) : Prop :=
  (∃ i, Holds σ.istream σ.nif i ∧ p = slotBuffer (σ.nif.rx i) (σ.nif.rx i).cur) ∧
    σ.taken.map Prod.snd = σ.committed.map Prod.snd ++ [σ.packet]

/-- Nothing is asked of the ostream. -/
structure Unasked (s : OstreamNetmap) : Prop where
  packet : s.packet = none
  assigned : s.assignedBuffer = none

/-- Where a round stands. -/
def RoundOk (σ : Bridge) : Stage → Prop
  | .idle => Unasked σ.ostream ∧ BetweenPackets σ.istream σ.nif ∧
      σ.committed.map Prod.snd = σ.taken.map Prod.snd
  | .started p => Unasked σ.ostream ∧ InHand σ p
  | .assigned p => σ.ostream.assignedBuffer = some p ∧ InHand σ p ∧ ¬ InBufferRange σ.ostream p
  | .granted p buffer => σ.ostream.assignedBuffer = none ∧ InHand σ p ∧
      Granted σ.ostream σ.nif buffer
  | .filled p buffer => σ.ostream.assignedBuffer = none ∧ InHand σ p ∧
      Granted σ.ostream σ.nif buffer ∧ σ.nif.mem.read buffer σ.istream.packetSize = σ.packet
  | .written free => free = none ∧ Unasked σ.ostream ∧
      (∃ i, Holds σ.istream σ.nif i) ∧ σ.committed.map Prod.snd = σ.taken.map Prod.snd

/-- The invariant; `assigns` says whether the program assigns packets. -/
structure Bridging (assigns : Prop) (σ : Bridge) : Prop where
  separate : Separate σ.card σ.nif
  elsewhere : assigns → Elsewhere σ.card σ.ostream σ.nif
  isOpen : σ.istream.isClosed = false
  rx_end : σ.istream.ringEnd ≤ σ.card.rxRings
  tx_end : σ.ostream.ringEnd ≤ σ.card.txRings
  rx : RxReady σ.card.rxRings σ.nif
  tx : ∀ j < σ.card.txRings, TxQueue (σ.nif.tx j) (σ.card.hwcur j)
  txLens : ∀ j < σ.card.txRings, ∀ c < (σ.nif.tx j).numSlots,
    InWindow (σ.nif.tx j).numSlots (σ.card.hwcur j) (σ.nif.tx j).head c →
      ((σ.nif.tx j).slot c).len ≤ 2048
  round : RoundOk σ σ.stage
  arrived : ∀ i < σ.card.rxRings, σ.arrived i = packetsOf i σ.taken ++ σ.unread i
  sent : ∀ j < σ.card.txRings, packetsOf j σ.committed = σ.card.sent j ++ σ.unsent j

/-! ## The packets that have not been read -/

section Unread

variable {assigns : Prop} {σ : Bridge} {i j : Nat}

theorem Bridge.reading_of_idle (hstage : σ.stage = .idle) : σ.reading = none := by
  rw [Bridge.reading, hstage]

theorem Bridge.reading_of_ne_idle (hstage : σ.stage ≠ .idle) : σ.reading = σ.istream.ring := by
  rw [Bridge.reading]
  split
  next h => exact absurd h hstage
  next => rfl

/-- Within a round the istream has a packet. -/
theorem RoundOk.held {stage : Stage} (h : RoundOk σ stage) (hstage : stage ≠ .idle) :
    ∃ k, Holds σ.istream σ.nif k := by
  have hhand : ∀ {p}, InHand σ p → ∃ k, Holds σ.istream σ.nif k := by
    rintro p ⟨⟨k, hk, -⟩, -⟩
    exact ⟨k, hk⟩
  cases stage with
  | idle => exact absurd rfl hstage
  | started p => exact hhand h.2
  | assigned p => exact hhand h.2.1
  | granted p buffer => exact hhand h.2.1
  | filled p buffer => exact hhand h.2.1
  | written free => exact h.2.2.1

/-- A ring that is being read has a packet. -/
theorem Bridging.waiting (h : Bridging assigns σ) (hreading : σ.reading = some i) :
    Holds σ.istream σ.nif i := by
  -- between two rounds no ring is being read
  have hstage : σ.stage ≠ .idle := by
    intro hidle
    rw [Bridge.reading_of_idle hidle] at hreading
    cases hreading
  rw [Bridge.reading_of_ne_idle hstage] at hreading
  obtain ⟨k, hk⟩ := h.round.held hstage
  obtain rfl : k = i := Option.some.inj (hk.ring.symm.trans hreading)
  exact hk

/-- What has not been read is a part of what waits in the ring. -/
theorem Bridging.unread_window (h : Bridging assigns σ) (hi : i < σ.card.rxRings) :
    σ.unreadFrom i < (σ.nif.rx i).numSlots ∧
      ∀ c < (σ.nif.rx i).numSlots,
        InWindow (σ.nif.rx i).numSlots (σ.unreadFrom i) (σ.nif.rx i).tail c →
          InWindow (σ.nif.rx i).numSlots (σ.nif.rx i).cur (σ.nif.rx i).tail c := by
  have hcur := (h.rx.queue i hi).cur_lt
  rw [Bridge.unreadFrom]
  split
  next hreading =>
    have hwaiting := (h.waiting hreading).waiting
    refine ⟨nextSlot_lt hcur, fun c hc hin => ?_⟩
    exact (inWindow_nextSlot hcur (h.rx.queue i hi).tail_lt hc hwaiting hin).2
  next => exact ⟨hcur, fun c _ hin => hin⟩

/-- The tail may move on to what has been read. -/
theorem Bridging.unread_room (h : Bridging assigns σ) (hi : i < σ.card.rxRings)
    (hroom : nmRingNext (σ.nif.rx i) (σ.nif.rx i).tail ≠ (σ.nif.rx i).head) :
    nmRingNext (σ.nif.rx i) (σ.nif.rx i).tail ≠ σ.unreadFrom i := by
  have hcur := (h.rx.queue i hi).cur_lt
  have htail := (h.rx.queue i hi).tail_lt
  rw [Bridge.unreadFrom]
  split
  next hreading =>
    have hwaiting := (h.waiting hreading).waiting
    simp only [nmRingNext, nextSlot]
    split_ifs <;> omega
  next => rwa [(h.rx.queue i hi).cur]

end Unread

/-! ## Writes to memory -/

section Writes

variable {assigns : Prop} {σ : Bridge} {i j c d : Nat} {bytes : List UInt8}

/-- What is written to the buffer of another slot does not change the packets of an rx
    ring that wait. -/
theorem Bridging.rx_write (h : Bridging assigns σ) {p : SlotPos} (hp : InRing σ.card σ.nif p)
    (hbytes : bytes.length ≤ 2048) (hi : i < σ.card.rxRings) (hc : c < (σ.nif.rx i).numSlots)
    (hin : InWindow (σ.nif.rx i).numSlots (σ.nif.rx i).cur (σ.nif.rx i).tail c)
    (hne : p ≠ .rx i c) :
    slotBytes (σ.nif.mem.write (bufferOf σ.nif p) bytes) (σ.nif.rx i) c
      = slotBytes σ.nif.mem (σ.nif.rx i) c :=
  slotBytes_write (h.separate p (.rx i c) hp ⟨hi, hc⟩ hne) (h.rx.lens i hi c hc hin).2 hbytes

/-- Nor those of a tx ring that have not been sent. -/
theorem Bridging.tx_write (h : Bridging assigns σ) {p : SlotPos} (hp : InRing σ.card σ.nif p)
    (hbytes : bytes.length ≤ 2048) (hj : j < σ.card.txRings) (hc : c < (σ.nif.tx j).numSlots)
    (hin : InWindow (σ.nif.tx j).numSlots (σ.card.hwcur j) (σ.nif.tx j).head c)
    (hne : p ≠ .tx j c) :
    slotBytes (σ.nif.mem.write (bufferOf σ.nif p) bytes) (σ.nif.tx j) c
      = slotBytes σ.nif.mem (σ.nif.tx j) c :=
  slotBytes_write (h.separate p (.tx j c) hp ⟨hj, hc⟩ hne) (h.txLens j hj c hc hin) hbytes

/-- Where the buffers lie is not changed by what leaves them in their slots. -/
theorem Bridging.elsewhere_of {nif : NetmapIf} (h : Bridging assigns σ)
    (hsame : SameBuffers σ.nif nif) (hassigns : assigns) : Elsewhere σ.card σ.ostream nif := by
  intro i hi c hc
  have hbuffer : slotBuffer (nif.rx i) c = slotBuffer (σ.nif.rx i) c := hsame.buffer (.rx i c)
  rw [hbuffer]
  rw [hsame.rxSlots] at hc
  exact h.elsewhere hassigns i hi c hc

theorem Bridging.rxReady (h : Bridging assigns σ) : RxReady σ.istream.ringEnd σ.nif where
  queue := fun i hi => h.rx.queue i (Nat.lt_of_lt_of_le hi h.rx_end)
  lens := fun i hi => h.rx.lens i (Nat.lt_of_lt_of_le hi h.rx_end)

theorem Bridging.ring_lt (h : Bridging assigns σ) (hheld : Holds σ.istream σ.nif i) :
    i < σ.card.rxRings := Nat.lt_of_lt_of_le hheld.ring_lt h.rx_end

/-- The packet in the istream's hands is that of the current slot. -/
theorem Holds.packet_eq (h : Holds σ.istream σ.nif i) :
    σ.packet = slotBytes σ.nif.mem (σ.nif.rx i) (σ.nif.rx i).cur := by
  rw [Bridge.packet, h.packet, h.size, Option.getD_some, slotBytes]

end Writes

/-! ## What a round needs -/

section Rounds

variable {assigns : Prop} {σ τ : Bridge} {i : Nat}

/-- A round goes on where the packet in the istream's hands and the slot that was granted are
    left alone. -/
theorem RoundOk.of_held {stage : Stage} (h : RoundOk σ stage) (hostream : τ.ostream = σ.ostream)
    (hlists : τ.taken = σ.taken ∧ τ.committed = σ.committed) (histream : τ.istream = σ.istream)
    (hheld : ∀ k, Holds σ.istream σ.nif k → Holds σ.istream τ.nif k ∧
      slotBuffer (τ.nif.rx k) (τ.nif.rx k).cur = slotBuffer (σ.nif.rx k) (σ.nif.rx k).cur ∧
      τ.packet = σ.packet)
    (hgranted : ∀ buffer, Granted σ.ostream σ.nif buffer → Granted σ.ostream τ.nif buffer)
    (hfilled : ∀ p buffer, stage = .filled p buffer → Granted σ.ostream σ.nif buffer →
      (∃ k, Holds σ.istream σ.nif k) →
      τ.nif.mem.read buffer σ.istream.packetSize = σ.nif.mem.read buffer σ.istream.packetSize) :
    RoundOk τ stage := by
  obtain ⟨htaken, hcommitted⟩ := hlists
  have hhand : ∀ {p}, InHand σ p → InHand τ p := by
    rintro p ⟨⟨k, hk, haddr⟩, hcopies⟩
    obtain ⟨hk', hbuffer, hpacket⟩ := hheld k hk
    refine ⟨⟨k, histream ▸ hk', haddr.trans hbuffer.symm⟩, ?_⟩
    rw [htaken, hcommitted, hpacket]
    exact hcopies
  cases stage with
  | idle =>
      obtain ⟨hunasked, hbetween, hcopies⟩ := h
      refine ⟨hostream ▸ hunasked, ?_, by rw [htaken, hcommitted, hcopies]⟩
      rw [histream]
      exact hbetween.imp_right fun ⟨k, hk⟩ => ⟨k, (hheld k hk).1⟩
  | started p => exact ⟨hostream ▸ h.1, hhand h.2⟩
  | assigned p => exact ⟨hostream ▸ h.1, hhand h.2.1, hostream ▸ h.2.2⟩
  | granted p buffer =>
      obtain ⟨hnone, hpacket, hslot⟩ := h
      exact ⟨hostream ▸ hnone, hhand hpacket, hostream ▸ hgranted buffer hslot⟩
  | filled p buffer =>
      obtain ⟨hnone, hpacket, hslot, hread⟩ := h
      obtain ⟨⟨k, hk, haddr⟩, hcopies⟩ := hpacket
      refine ⟨hostream ▸ hnone, hhand ⟨⟨k, hk, haddr⟩, hcopies⟩,
        hostream ▸ hgranted buffer hslot, ?_⟩
      rw [histream, hfilled p buffer rfl hslot ⟨k, hk⟩, hread, (hheld k hk).2.2]
  | written free =>
      obtain ⟨hfree, hunasked, ⟨k, hk⟩, hcopies⟩ := h
      exact ⟨hfree, hostream ▸ hunasked, ⟨k, histream ▸ (hheld k hk).1⟩,
        by rw [htaken, hcommitted, hcopies]⟩

theorem Bridge.unreadFrom_congr (hreading : τ.reading = σ.reading)
    (hslots : (τ.nif.rx i).numSlots = (σ.nif.rx i).numSlots)
    (hcur : (τ.nif.rx i).cur = (σ.nif.rx i).cur) : τ.unreadFrom i = σ.unreadFrom i := by
  rw [unreadFrom, unreadFrom, hreading, nmRingNext, nmRingNext, hslots, hcur]

/-- No packet in the istream's hands is longer than a buffer. -/
theorem Bridging.packetSize_le (h : Bridging assigns σ) (hheld : Holds σ.istream σ.nif i) :
    σ.istream.packetSize ≤ 2048 := by
  have hi := h.ring_lt hheld
  have hcurlt := (h.rx.queue i hi).cur_lt
  rw [hheld.size]
  exact (h.rx.lens i hi _ hcurlt (inWindow_head hcurlt hheld.waiting)).2

/-- The slot that was granted is one of a tx ring. -/
theorem Bridging.granted_inRing {buffer : Nat} (h : Bridging assigns σ)
    (hgranted : Granted σ.ostream σ.nif buffer) :
    σ.ostream.ringNum < σ.card.txRings ∧ InRing σ.card σ.nif
      (.tx σ.ostream.ringNum (σ.nif.tx σ.ostream.ringNum).cur) := by
  have hj := Nat.lt_of_lt_of_le hgranted.ring_lt h.tx_end
  exact ⟨hj, hj, (h.tx _ hj).valid.cur⟩

end Rounds

/-! ## Calls -/

section Calls

variable {assigns : Prop} {σ : Bridge} {i j : Nat} {packet : Nat}

theorem Bridging.ready (h : Bridging assigns σ) (hstage : σ.stage = .idle) :
    Bridging assigns { σ with istream := (camioIstreamNetmapReady σ.istream σ.nif).2 } := by
  obtain ⟨hunasked, hbetween, hcopies⟩ : RoundOk σ .idle := hstage ▸ h.round
  obtain ⟨hopen, hend, hbetween'⟩ := ready_spec h.rxReady h.isOpen hbetween
  have hunread : ∀ i, Bridge.unread { σ with
      istream := (camioIstreamNetmapReady σ.istream σ.nif).2 } i = σ.unread i := by
    intro i
    simp only [Bridge.unread, Bridge.unreadFrom, Bridge.reading, hstage]
  refine { h with
    isOpen := hopen, rx_end := hend.trans_le h.rx_end, round := ?_, arrived := fun i hi => ?_ }
  · show RoundOk _ σ.stage
    rw [hstage]
    exact ⟨hunasked, hbetween', hcopies⟩
  · rw [hunread]
    exact h.arrived i hi

/-- `start_read` takes the first packet of a ring that has not been read. -/
theorem Bridging.startRead {size : Nat} {s : IstreamNetmap} (h : Bridging assigns σ)
    (hstage : σ.stage = .idle)
    (hread : camioIstreamNetmapStartRead σ.istream σ.nif = some (some packet, size, s)) :
    ∃ i, Holds s σ.nif i ∧ Bridging assigns { σ with
      istream := s, stage := .started packet
      taken := σ.taken ++ [(i, slotBytes σ.nif.mem (σ.nif.rx i) (σ.nif.rx i).cur)] } := by
  obtain ⟨hunasked, hbetween, hcopies⟩ : RoundOk σ .idle := hstage ▸ h.round
  obtain ⟨hopen, hend, hout, i, hheld⟩ := startRead_holds h.rxReady h.isOpen hbetween hread
  have haddr : packet = slotBuffer (σ.nif.rx i) (σ.nif.rx i).cur :=
    Option.some.inj (hout.trans hheld.packet)
  refine ⟨i, hheld, { h with
    isOpen := hopen, rx_end := hend.trans_le h.rx_end, round := ?_, arrived := fun k hk => ?_ }⟩
  · refine ⟨hunasked, ⟨i, hheld, haddr⟩, ?_⟩
    have hlast := @Holds.packet_eq { σ with istream := s } i hheld
    rw [List.map_append, hcopies]
    exact congrArg _ (congrArg (fun b => [b]) hlast.symm)
  -- the packet at `cur` is not among those that have not been read any more
  · have harrived := h.arrived k hk
    have hqueue := h.rx.queue k hk
    rw [Bridge.unread, Bridge.unreadFrom, Bridge.reading_of_idle hstage,
      if_neg (by simp)] at harrived
    rw [packetsOf_append, Bridge.unread, Bridge.unreadFrom, Bridge.reading]
    dsimp only
    rw [hheld.ring]
    by_cases hik : i = k
    · subst hik
      rw [if_pos rfl, packetsOf_self, List.append_assoc, List.singleton_append,
        ← packetsIn_pop hqueue.cur_lt hqueue.tail_lt hheld.waiting]
      exact harrived
    · rw [if_neg (by simpa using hik), packetsOf_of_ne hik, List.append_nil]
      exact harrived

theorem Bridging.assignWrite {len : Nat} (h : Bridging assigns σ) (hassigns : assigns)
    (hstage : σ.stage = .started packet) :
    Bridging assigns { σ with
      ostream := { σ.ostream with assignedBuffer := some packet, assignedBufferSz := len }
      stage := .assigned packet } := by
  obtain ⟨-, hhand⟩ : RoundOk σ (.started packet) := hstage ▸ h.round
  obtain ⟨k, hheld, haddr⟩ := hhand.1
  have hk := h.ring_lt hheld
  have hout := h.elsewhere hassigns k hk _ (h.rx.queue k hk).cur_lt
  rw [← haddr] at hout
  refine { h with
    elsewhere := h.elsewhere, round := ⟨rfl, hhand, hout⟩, arrived := fun i hi => ?_ }
  have harrived := h.arrived i hi
  rw [Bridge.unread, Bridge.unreadFrom,
    Bridge.reading_of_ne_idle (by simp [hstage])] at harrived
  exact harrived

theorem Bridging.startWrite {buffer : Nat} {s : OstreamNetmap} (h : Bridging assigns σ)
    (hstage : σ.stage = .started packet)
    (hwrite : camioOstreamNetmapStartWrite σ.ostream σ.nif σ.istream.packetSize true
      = .ok (some (some buffer, s))) :
    Bridging assigns { σ with ostream := s, stage := .granted packet buffer } := by
  obtain ⟨hunasked, hhand⟩ : RoundOk σ (.started packet) := hstage ▸ h.round
  obtain ⟨hgranted, hassigned, hend, hrange⟩ := startWrite_granted hunasked.packet hwrite
  refine { h with
    elsewhere := fun hassigns i hi c hc hin =>
      h.elsewhere hassigns i hi c hc ((hrange _).mp hin)
    tx_end := hend.trans_le h.tx_end
    round := ⟨hassigned.trans hunasked.assigned, hhand, hgranted⟩
    arrived := fun i hi => ?_ }
  have harrived := h.arrived i hi
  rw [Bridge.unread, Bridge.unreadFrom,
    Bridge.reading_of_ne_idle (by simp [hstage])] at harrived
  exact harrived

/-- What is stored in the buffer of the current slot of a tx ring is not a part of any packet
    that waits in an rx ring. -/
theorem Bridging.rx_fill {k c : Nat} {bytes : List UInt8} (h : Bridging assigns σ)
    (hj : j < σ.card.txRings) (hbytes : bytes.length ≤ 2048) (hk : k < σ.card.rxRings)
    (hc : c < (σ.nif.rx k).numSlots)
    (hin : InWindow (σ.nif.rx k).numSlots (σ.nif.rx k).cur (σ.nif.rx k).tail c) :
    slotBytes (σ.nif.mem.write (slotBuffer (σ.nif.tx j) (σ.nif.tx j).cur) bytes) (σ.nif.rx k) c
      = slotBytes σ.nif.mem (σ.nif.rx k) c := by
  have hslot : InRing σ.card σ.nif (.tx j (σ.nif.tx j).cur) := ⟨hj, (h.tx j hj).valid.cur⟩
  exact h.rx_write hslot hbytes hk hc hin (by simp)

/-- Nor of one that is still to be sent. -/
theorem Bridging.tx_fill {k c : Nat} {bytes : List UInt8} (h : Bridging assigns σ)
    (hj : j < σ.card.txRings) (hbytes : bytes.length ≤ 2048) (hk : k < σ.card.txRings)
    (hc : c < (σ.nif.tx k).numSlots)
    (hin : InWindow (σ.nif.tx k).numSlots (σ.card.hwcur k) (σ.nif.tx k).head c) :
    slotBytes (σ.nif.mem.write (slotBuffer (σ.nif.tx j) (σ.nif.tx j).cur) bytes) (σ.nif.tx k) c
      = slotBytes σ.nif.mem (σ.nif.tx k) c := by
  have hslot : InRing σ.card σ.nif (.tx j (σ.nif.tx j).cur) := ⟨hj, (h.tx j hj).valid.cur⟩
  refine h.tx_write hslot hbytes hk hc hin ?_
  intro heq
  obtain ⟨rfl, rfl⟩ := SlotPos.tx.inj heq
  rw [(h.tx j hj).cur] at hin
  exact Nat.lt_irrefl _ hin

/-- The packet in the istream's hands is left as it is. -/
theorem Bridging.packet_fill {bytes : List UInt8} (h : Bridging assigns σ) (hj : j < σ.card.txRings)
    (hbytes : bytes.length ≤ 2048) (hheld : Holds σ.istream σ.nif i) :
    (σ.nif.store (slotBuffer (σ.nif.tx j) (σ.nif.tx j).cur) bytes).mem.read
      (σ.istream.packet.getD 0) σ.istream.packetSize = σ.packet := by
  have hi := h.ring_lt hheld
  have hcurlt := (h.rx.queue i hi).cur_lt
  rw [hheld.packet_eq, ← h.rx_fill hj hbytes hi hcurlt (inWindow_head hcurlt hheld.waiting),
    hheld.packet, hheld.size, Option.getD_some, slotBytes, NetmapIf.store_mem]

theorem Bridging.fill {bytes : List UInt8} (h : Bridging assigns σ) (hj : j < σ.card.txRings)
    (hbytes : bytes.length ≤ 2048) (hstage : ∀ p buffer, σ.stage ≠ .filled p buffer) :
    Bridging assigns { σ with
      nif := σ.nif.store (slotBuffer (σ.nif.tx j) (σ.nif.tx j).cur) bytes } := by
  have hsame := sameBuffers_store σ.nif (slotBuffer (σ.nif.tx j) (σ.nif.tx j).cur) bytes
  refine { h with
    separate := hsame.separate h.separate
    elsewhere := h.elsewhere_of hsame
    rx := ⟨h.rx.queue, h.rx.lens⟩
    round := h.round.of_held rfl ⟨rfl, rfl⟩ rfl (fun k hk => ?_)
      (fun _ hg => ⟨hg.ring_lt, hg.slotNum, hg.space, hg.buffer_eq⟩)
      (fun p buffer hfilled => absurd hfilled (hstage p buffer))
    arrived := fun k hk => ?_
    sent := fun k hk => ?_ }
  · exact ⟨⟨hk.packet, hk.size, hk.nmSlot, hk.ring, hk.ring_lt, hk.waiting, hk.pos⟩, rfl,
      h.packet_fill hj hbytes hk⟩
  · have hwindow := h.unread_window hk
    exact (h.arrived k hk).trans (congrArg _ (packetsIn_congr rfl hwindow.1
      (h.rx.queue k hk).tail_lt fun c hc hin =>
        h.rx_fill hj hbytes hk hc (hwindow.2 c hc hin)).symm)
  · have hold := h.tx k hk
    exact (h.sent k hk).trans (congrArg _ (packetsIn_congr rfl hold.hwcur_lt hold.head_lt
      fun c hc hin => h.tx_fill hj hbytes hk hc hin).symm)

theorem Bridging.hand_fill {bytes : List UInt8} (h : Bridging assigns σ) (hj : j < σ.card.txRings)
    (hbytes : bytes.length ≤ 2048) (hhand : InHand σ packet) :
    InHand { σ with nif := σ.nif.store (slotBuffer (σ.nif.tx j) (σ.nif.tx j).cur) bytes }
      packet := by
  obtain ⟨⟨i, hk, haddr⟩, hcopies⟩ := hhand
  refine ⟨⟨i, ⟨hk.packet, hk.size, hk.nmSlot, hk.ring, hk.ring_lt, hk.waiting, hk.pos⟩, haddr⟩,
    ?_⟩
  rw [Bridge.packet]
  dsimp only
  rw [h.packet_fill hj hbytes hk]
  exact hcopies

/-- The packet in the current slot of a ring with space is committed: it comes behind those that
    have not been sent. -/
theorem Bridging.commit {s : OstreamNetmap} {nif : NetmapIf} {ring : NetmapRing}
    (h : Bridging assigns σ) (hstage : σ.stage ≠ .idle) (hhand : InHand σ packet)
    (hplace : InPlace σ.ostream σ.nif σ.istream.packetSize s nif ring)
    (hring : s.ringNum < σ.card.txRings) (hspace : 0 < nmRingSpace (σ.nif.tx s.ringNum))
    (hbytes : σ.nif.mem.read (slotBuffer (σ.nif.tx s.ringNum) (σ.nif.tx s.ringNum).cur)
      σ.istream.packetSize = σ.packet) :
    Bridging assigns { σ with
      ostream := s, nif := nif, stage := .written none
      committed := σ.committed ++ [(s.ringNum, σ.packet)] } := by
  obtain ⟨⟨i, hheld, -⟩, hcopies⟩ := hhand
  obtain ⟨hnone, hpacket, hrange, hend, rfl, hslots, hcur, hhead, htail, hbuffer, hlen, hlens⟩ :=
    hplace
  generalize s.ringNum = j at *
  have hqueue := h.tx j hring
  -- the slot lies behind all that has not been sent, and one more stays free
  have hspace' := hqueue.valid.space_pos_iff.mp hspace
  have hroom := hqueue.room hspace'
  have hcurlt := hqueue.valid.cur
  have hsize := h.packetSize_le hheld
  refine {
    separate := (@sameBuffers_setTx σ.nif j ring σ.nif.mem hslots hbuffer).separate h.separate
    elsewhere := fun hassigns k hk c hc hin =>
      h.elsewhere hassigns k hk c hc ((hrange _).mp hin)
    isOpen := h.isOpen
    rx_end := h.rx_end
    tx_end := hend.trans_le h.tx_end
    rx := ⟨h.rx.queue, h.rx.lens⟩
    tx := fun k hk => ?_
    txLens := fun k hk c hc hin => ?_
    round := ⟨rfl, ⟨hpacket, hnone⟩, ⟨i, hheld.packet, hheld.size, hheld.nmSlot, hheld.ring,
      hheld.ring_lt, hheld.waiting, hheld.pos⟩, ?_⟩
    arrived := fun k hk => ?_
    sent := fun k hk => ?_ }
  · dsimp only
    by_cases hkj : k = j
    · subst hkj
      rw [NetmapIf.setTx_tx_self]
      exact hqueue.push hspace' hslots hcur hhead htail
    · rw [NetmapIf.setTx_tx_of_ne hkj]
      exact h.tx k hk
  · dsimp only at hc hin ⊢
    by_cases hkj : k = j
    · subst hkj
      rw [NetmapIf.setTx_tx_self] at hc hin ⊢
      rw [hslots] at hc
      rw [hslots, hhead, hqueue.cur] at hin
      by_cases hcc : c = (σ.nif.tx k).cur
      · rw [hcc, hlen]
        exact hsize
      · rw [hlens c hcc]
        rcases inWindow_push hqueue.hwcur_lt hqueue.head_lt hc hroom hin with rfl | hin
        · exact absurd hqueue.cur.symm hcc
        · exact h.txLens k hk c hc hin
    · rw [NetmapIf.setTx_tx_of_ne hkj] at hc hin ⊢
      exact h.txLens k hk c hc hin
  · simp [hcopies]
  · have harrived := h.arrived k hk
    rw [Bridge.unread, Bridge.unreadFrom, Bridge.reading_of_ne_idle hstage] at harrived
    exact harrived
  · have hsent := h.sent k hk
    have hold := h.tx k hk
    rw [packetsOf_append, hsent, List.append_assoc, Bridge.unsent, Bridge.unsent]
    dsimp only
    by_cases hkj : k = j
    · subst hkj
      have hhead' : ring.head = nmRingNext (σ.nif.tx k) (σ.nif.tx k).head := by
        rw [hhead, hqueue.cur]
      rw [NetmapIf.setTx_tx_self, packetsOf_self, hhead']
      refine congrArg _ (packetsIn_push hslots hold.hwcur_lt hold.head_lt hroom ?_ ?_).symm
      · rw [← hqueue.cur, slotBytes, hbuffer, hlen]
        exact hbytes
      · intro c hc hin
        have hcc : c ≠ (σ.nif.tx k).cur := by
          rintro rfl
          rw [hqueue.cur] at hin
          exact Nat.lt_irrefl _ hin
        exact slotBytes_congr (hbuffer c) (hlens c hcc)
    · rw [NetmapIf.setTx_tx_of_ne hkj, packetsOf_of_ne (Ne.symm hkj), List.append_nil]
      rfl

/-- The packet that the istream has handed out is its packet. -/
theorem InHand.bytes_eq (hhand : InHand σ packet) :
    σ.nif.mem.read packet σ.istream.packetSize = σ.packet := by
  obtain ⟨⟨i, hheld, haddr⟩, -⟩ := hhand
  rw [Bridge.packet, hheld.packet, Option.getD_some, haddr]

theorem Bridging.length_le (h : Bridging assigns σ) (hhand : InHand σ packet) :
    σ.packet.length = σ.istream.packetSize ∧ σ.packet.length ≤ 2048 := by
  obtain ⟨⟨i, hheld, -⟩, -⟩ := hhand
  have hlength : σ.packet.length = σ.istream.packetSize := Mem.read_length ..
  exact ⟨hlength, hlength.trans_le (h.packetSize_le hheld)⟩

/-- `end_write` of an assigned packet stores and commits it. -/
theorem Bridging.endWrite_assigned {free : Option Nat} {s : OstreamNetmap} {nif : NetmapIf}
    (h : Bridging assigns σ) (hstage : σ.stage = .assigned packet)
    (hwrite : camioOstreamNetmapEndWrite σ.ostream σ.nif σ.istream.packetSize true
      = .ok (some (free, s, nif))) :
    Bridging assigns { σ with
      ostream := s, nif := nif, stage := .written free
      committed := σ.committed ++ [(s.ringNum, σ.packet)] } := by
  obtain ⟨hassigned, hhand, hout⟩ : RoundOk σ (.assigned packet) := hstage ▸ h.round
  obtain ⟨hlength, hle⟩ := h.length_le hhand
  obtain ⟨i, hheld, -⟩ := hhand.1
  obtain ⟨rfl, hfree, ring, hplace⟩ := endWrite_copied hwrite hassigned hout
  have hring : s.ringNum < σ.card.txRings := Nat.lt_of_lt_of_le (freeRing_lt hfree) h.tx_end
  rw [hhand.bytes_eq] at hplace
  -- the copy that `end_write` makes is a store to the current slot's buffer, which it then
  -- commits
  have hfilled := h.fill hring hle (by simp [hstage])
  -- the store leaves the packet in the istream's hands
  have hsame : Bridge.packet { σ with
      nif := σ.nif.store (slotBuffer (σ.nif.tx s.ringNum) (σ.nif.tx s.ringNum).cur) σ.packet }
        = σ.packet := h.packet_fill hring hle hheld
  have hcommit := hfilled.commit (by simp [hstage]) (h.hand_fill hring hle hhand) hplace hring
    (freeRing_some hfree) (by
      rw [hsame, ← hlength]
      exact Mem.read_write_same ..)
  rw [hsame] at hcommit
  exact hcommit

/-- `end_write` of a packet that was copied to the buffer of the slot commits it. -/
theorem Bridging.endWrite_filled {buffer : Nat} {free : Option Nat} {s : OstreamNetmap}
    {nif : NetmapIf} (h : Bridging assigns σ) (hstage : σ.stage = .filled packet buffer)
    (hwrite : camioOstreamNetmapEndWrite σ.ostream σ.nif σ.istream.packetSize true
      = .ok (some (free, s, nif))) :
    Bridging assigns { σ with
      ostream := s, nif := nif, stage := .written free
      committed := σ.committed ++ [(s.ringNum, σ.packet)] } := by
  obtain ⟨hassigned, hhand, hgranted, hread⟩ : RoundOk σ (.filled packet buffer) :=
    hstage ▸ h.round
  obtain ⟨rfl, hringNum, ring, hplace⟩ := endWrite_granted hwrite hassigned hgranted
  refine h.commit (by simp [hstage]) hhand hplace ?_ ?_ ?_
  · rw [hringNum]
    exact (h.granted_inRing hgranted).1
  · rw [hringNum]
    exact hgranted.space
  · rw [hringNum, ← hgranted.buffer_eq]
    exact hread

/-- `memcpy` of the packet to the buffer that was granted. -/
theorem Bridging.copy {buffer : Nat} (h : Bridging assigns σ)
    (hstage : σ.stage = .granted packet buffer) :
    Bridging assigns { σ with
      nif := σ.nif.store buffer (σ.nif.mem.read packet σ.istream.packetSize)
      stage := .filled packet buffer } := by
  obtain ⟨hassigned, hhand, hgranted⟩ : RoundOk σ (.granted packet buffer) := hstage ▸ h.round
  obtain ⟨hlength, hle⟩ := h.length_le hhand
  obtain ⟨i, hheld, -⟩ := hhand.1
  have hring := (h.granted_inRing hgranted).1
  rw [hhand.bytes_eq, hgranted.buffer_eq]
  have hfilled := h.fill hring hle (by simp [hstage])
  refine { hfilled with
    round := ⟨hassigned, h.hand_fill hring hle hhand,
      ⟨hgranted.ring_lt, hgranted.slotNum, hgranted.space, rfl⟩, ?_⟩
    arrived := fun k hk => ?_ }
  · have hread : (σ.nif.mem.write (slotBuffer (σ.nif.tx σ.ostream.ringNum)
        (σ.nif.tx σ.ostream.ringNum).cur) σ.packet).read (slotBuffer
        (σ.nif.tx σ.ostream.ringNum) (σ.nif.tx σ.ostream.ringNum).cur) σ.packet.length
          = σ.packet := Mem.read_write_same ..
    rw [hlength] at hread
    exact hread.trans (h.packet_fill hring hle hheld).symm
  · have harrived := hfilled.arrived k hk
    rw [Bridge.unread, Bridge.unreadFrom,
      Bridge.reading_of_ne_idle (by simp [hstage])] at harrived
    exact harrived

/-- `end_read` gives the slot that was read back. -/
theorem Bridging.endRead {r : Int} {s : IstreamNetmap} {nif : NetmapIf} {free : Option Nat}
    (h : Bridging assigns σ) (hstage : σ.stage = .written free)
    (hend : camioIstreamNetmapEndRead σ.istream σ.nif free = some (r, s, nif)) :
    Bridging assigns { σ with istream := s, nif := nif, stage := .idle } := by
  obtain ⟨rfl, hunasked, ⟨i, hheld⟩, hcopies⟩ : RoundOk σ (.written free) := hstage ▸ h.round
  -- no buffer was swapped, so the slot keeps its own
  rw [camioIstreamNetmapEndRead, refillSlot, Option.bind_some, hheld.ring] at hend
  obtain ⟨-, rfl, rfl⟩ := Prod.mk.inj (Option.some.inj hend)
  have hreading : σ.reading = some i :=
    (Bridge.reading_of_ne_idle (by simp [hstage])).trans hheld.ring
  have hsame : SameBuffers σ.nif (returnSlot σ.nif i) := sameBuffers_setRx rfl fun _ => rfl
  have hqueue := h.rx.queue i (h.ring_lt hheld)
  refine {
    separate := hsame.separate h.separate
    elsewhere := h.elsewhere_of hsame
    isOpen := h.isOpen
    rx_end := h.rx_end
    tx_end := h.tx_end
    rx := ⟨fun k hk => ?_, fun k hk c hc hin => ?_⟩
    tx := h.tx
    txLens := h.txLens
    round := ⟨hunasked, Or.inl ⟨rfl, rfl⟩, hcopies⟩
    arrived := fun k hk => ?_
    sent := h.sent }
  · dsimp only [returnSlot]
    by_cases hki : k = i
    · subst hki
      rw [NetmapIf.setRx_rx_self]
      exact ⟨nextSlot_lt hqueue.cur_lt, hqueue.tail_lt, rfl⟩
    · rw [NetmapIf.setRx_rx_of_ne hki]
      exact h.rx.queue k hk
  · dsimp only [returnSlot] at hc hin ⊢
    by_cases hki : k = i
    · subst hki
      rw [NetmapIf.setRx_rx_self] at hc hin ⊢
      exact h.rx.lens k hk c hc
        (inWindow_nextSlot hqueue.cur_lt hqueue.tail_lt hc hheld.waiting hin).2
    · rw [NetmapIf.setRx_rx_of_ne hki] at hc hin ⊢
      exact h.rx.lens k hk c hc hin
  · have harrived := h.arrived k hk
    rw [Bridge.unread, Bridge.unreadFrom, hreading] at harrived
    rw [Bridge.unread, Bridge.unreadFrom, Bridge.reading_of_idle rfl, if_neg (by simp)]
    dsimp only [returnSlot]
    by_cases hki : k = i
    · subst hki
      rw [if_pos rfl] at harrived
      rw [NetmapIf.setRx_rx_self]
      exact harrived
    · rw [if_neg (by simpa using Ne.symm hki)] at harrived
      rw [NetmapIf.setRx_rx_of_ne hki]
      exact harrived

end Calls

/-! ## The device -/

section Device

variable {assigns : Prop} {σ τ : Bridge} {i j flags : Nat}

/-- An arriving packet comes behind those that wait in its ring. -/
theorem Bridging.of_receive {packet : List UInt8} {nif : NetmapIf} (h : Bridging assigns σ)
    (hreceive : receive σ.card σ.nif i packet flags = some nif) :
    Bridging assigns { σ with
      nif := nif, arrived := Function.update σ.arrived i (σ.arrived i ++ [packet]) } := by
  obtain ⟨hi, hne, hlength, hroom, ring, rfl, hslots, hcur, hhead, htail, hbuffer, hlen, hlens⟩ :=
    receive_spec hreceive
  have hqueue := h.rx.queue i hi
  have htaillt := hqueue.tail_lt
  have hsame := @sameBuffers_setRx σ.nif i ring (σ.nif.mem.write
    (slotBuffer (σ.nif.rx i) (σ.nif.rx i).tail) packet) hslots hbuffer
  -- the buffer that is written to is that of the slot at the tail
  have hslot : InRing σ.card σ.nif (.rx i (σ.nif.rx i).tail) := ⟨hi, htaillt⟩
  have hrx : ∀ k < σ.card.rxRings, ∀ c < (σ.nif.rx k).numSlots,
      InWindow (σ.nif.rx k).numSlots (σ.nif.rx k).cur (σ.nif.rx k).tail c →
      slotBytes (σ.nif.mem.write (slotBuffer (σ.nif.rx i) (σ.nif.rx i).tail) packet)
        (σ.nif.rx k) c = slotBytes σ.nif.mem (σ.nif.rx k) c := by
    intro k hk c hc hin
    refine h.rx_write hslot hlength hk hc hin ?_
    intro heq
    obtain ⟨rfl, rfl⟩ := SlotPos.rx.inj heq
    exact Nat.lt_irrefl _ hin
  -- the program's part of the rings is left alone
  have hcurs : ∀ k, ((σ.nif.setRx i ring).rx k).cur = (σ.nif.rx k).cur := by
    intro k
    by_cases hk : k = i
    · subst hk
      rw [NetmapIf.setRx_rx_self, hcur]
    · rw [NetmapIf.setRx_rx_of_ne hk]
  refine {
    separate := hsame.separate h.separate
    elsewhere := h.elsewhere_of hsame
    isOpen := h.isOpen
    rx_end := h.rx_end
    tx_end := h.tx_end
    rx := ⟨fun k hk => ?_, fun k hk c hc hin => ?_⟩
    tx := h.tx
    txLens := h.txLens
    round := h.round.of_held rfl ⟨rfl, rfl⟩ rfl (fun k hk => ?_)
      (fun _ hg => ⟨hg.ring_lt, hg.slotNum, hg.space, hg.buffer_eq⟩) fun p buffer _ hg hk => ?_
    arrived := fun k hk => ?_
    sent := fun k hk => ?_ }
  · dsimp only
    by_cases hki : k = i
    · subst hki
      rw [NetmapIf.setRx_rx_self]
      refine ⟨?_, ?_, ?_⟩
      · rw [hhead, hslots]
        exact hqueue.head_lt
      · rw [htail, hslots]
        exact nextSlot_lt htaillt
      · rw [hcur, hhead]
        exact hqueue.cur
    · rw [NetmapIf.setRx_rx_of_ne hki]
      exact h.rx.queue k hk
  · dsimp only at hc hin ⊢
    by_cases hki : k = i
    · subst hki
      rw [NetmapIf.setRx_rx_self] at hc hin ⊢
      rw [hslots] at hc
      rw [hslots, hcur, htail] at hin
      by_cases hct : c = (σ.nif.rx k).tail
      · rw [hct, hlen]
        exact ⟨List.length_pos_iff.mpr hne, hlength⟩
      · rw [hlens c hct]
        have hroom' : nmRingNext (σ.nif.rx k) (σ.nif.rx k).tail ≠ (σ.nif.rx k).cur :=
          hqueue.cur ▸ hroom
        rcases inWindow_push hqueue.cur_lt htaillt hc hroom' hin with hct' | hin
        · exact absurd hct' hct
        · exact h.rx.lens k hk c hc hin
    · rw [NetmapIf.setRx_rx_of_ne hki] at hc hin ⊢
      exact h.rx.lens k hk c hc hin
  · have hcurlt := (h.rx.queue k (h.ring_lt hk)).cur_lt
    have hin := inWindow_head hcurlt hk.waiting
    have hbuf : ∀ c, slotBuffer ((σ.nif.setRx i ring).rx k) c = slotBuffer (σ.nif.rx k) c :=
      fun c => hsame.buffer (.rx k c)
    have hsize : (((σ.nif.setRx i ring).rx k).slot (σ.nif.rx k).cur).len
        = ((σ.nif.rx k).slot (σ.nif.rx k).cur).len := by
      by_cases hki : k = i
      · subst hki
        rw [NetmapIf.setRx_rx_self, hlens _ hk.waiting]
      · rw [NetmapIf.setRx_rx_of_ne hki]
    have hwait : (σ.nif.rx k).cur ≠ ((σ.nif.setRx i ring).rx k).tail := by
      by_cases hki : k = i
      · subst hki
        rw [NetmapIf.setRx_rx_self, htail, hqueue.cur]
        exact hroom.symm
      · rw [NetmapIf.setRx_rx_of_ne hki]
        exact hk.waiting
    refine ⟨⟨?_, ?_, ?_, hk.ring, hk.ring_lt, ?_, hk.pos⟩, ?_, ?_⟩
    · dsimp only
      rw [hcurs, hbuf]
      exact hk.packet
    · dsimp only
      rw [hcurs, hsize]
      exact hk.size
    · dsimp only
      rw [hcurs]
      exact hk.nmSlot
    · dsimp only
      rw [hcurs]
      exact hwait
    · dsimp only
      rw [hcurs, hbuf]
    · rw [hk.packet_eq, ← hrx k (h.ring_lt hk) _ hcurlt hin, Bridge.packet]
      dsimp only
      rw [hk.packet, hk.size, Option.getD_some, slotBytes]
  · obtain ⟨k, hk⟩ := hk
    have hapart := h.separate _ _ hslot (h.granted_inRing hg).2 (by simp)
    have hsize := h.packetSize_le hk
    rw [hg.buffer_eq]
    exact Mem.read_write_disjoint (by simp only [bufferOf] at hapart; omega)
  · have hslots' : ((σ.nif.setRx i ring).rx k).numSlots = (σ.nif.rx k).numSlots := hsame.rxSlots k
    have hwindow := h.unread_window hk
    have hold : ∀ c < (σ.nif.rx k).numSlots,
        InWindow (σ.nif.rx k).numSlots (σ.unreadFrom k) (σ.nif.rx k).tail c →
        slotBytes (σ.nif.mem.write (slotBuffer (σ.nif.rx i) (σ.nif.rx i).tail) packet)
          (σ.nif.rx k) c = slotBytes σ.nif.mem (σ.nif.rx k) c :=
      fun c hc hin => hrx k hk c hc (hwindow.2 c hc hin)
    have hfrom : Bridge.unreadFrom { σ with
        nif := { σ.nif.setRx i ring with
          mem := σ.nif.mem.write (slotBuffer (σ.nif.rx i) (σ.nif.rx i).tail) packet }
        arrived := Function.update σ.arrived i (σ.arrived i ++ [packet]) } k = σ.unreadFrom k :=
      Bridge.unreadFrom_congr rfl hslots' (hcurs k)
    rw [Bridge.unread, hfrom]
    dsimp only
    by_cases hki : k = i
    · subst hki
      rw [Function.update_self, NetmapIf.setRx_rx_self, htail, h.arrived k hk, List.append_assoc]
      refine congrArg _
        (packetsIn_push hslots hwindow.1 htaillt (h.unread_room hk hroom) ?_ ?_).symm
      · rw [slotBytes, hbuffer, hlen]
        exact Mem.read_write_same ..
      · intro c hc hin
        have hct : c ≠ (σ.nif.rx k).tail := by
          rintro rfl
          exact Nat.lt_irrefl _ hin
        exact (slotBytes_congr (hbuffer c) (hlens c hct)).trans (hold c hc hin)
    · rw [Function.update_of_ne hki, NetmapIf.setRx_rx_of_ne hki, h.arrived k hk]
      exact congrArg _ (packetsIn_congr rfl hwindow.1 (h.rx.queue k hk).tail_lt hold).symm
  · have hold := h.tx k hk
    rw [h.sent k hk]
    refine congrArg _ (packetsIn_congr rfl hold.hwcur_lt hold.head_lt ?_).symm
    exact fun c hc hin => h.tx_write hslot hlength hk hc hin (by simp)

/-- What the device sends is the first packet that has not been sent. -/
theorem Bridging.of_transmit {card : Card} {nif : NetmapIf} (h : Bridging assigns σ)
    (htransmit : transmit σ.card σ.nif j flags = some (card, nif)) :
    Bridging assigns { σ with card := card, nif := nif } := by
  obtain ⟨hj, hne, rfl, rfl⟩ := transmit_spec htransmit
  have hqueue := h.tx j hj
  have hbuffer := fun c => @slotBuffer_setSlot (σ.nif.tx j) (σ.card.hwcur j) c
    { (σ.nif.tx j).slot (σ.card.hwcur j) with flags := flags } rfl
  have hlen : ∀ c, (((σ.nif.tx j).setSlot (σ.card.hwcur j)
      { (σ.nif.tx j).slot (σ.card.hwcur j) with flags := flags }).slot c).len
        = ((σ.nif.tx j).slot c).len := by
    intro c
    by_cases hc : c = σ.card.hwcur j
    · rw [hc, NetmapRing.setSlot_slot_self]
    · rw [NetmapRing.setSlot_slot_of_ne hc]
  -- the slot at `hwcur` has been sent, with its buffer and its length as they were
  have hpopped := (hqueue.pop hne).setSlot (σ.card.hwcur j)
    { (σ.nif.tx j).slot (σ.card.hwcur j) with flags := flags }
  have hslots : ((σ.nif.tx j).setSlot (σ.card.hwcur j)
      { (σ.nif.tx j).slot (σ.card.hwcur j) with flags := flags }).numSlots
        = (σ.nif.tx j).numSlots := rfl
  have hhead : ((σ.nif.tx j).setSlot (σ.card.hwcur j)
      { (σ.nif.tx j).slot (σ.card.hwcur j) with flags := flags }).head = (σ.nif.tx j).head := rfl
  have hcur : ((σ.nif.tx j).setSlot (σ.card.hwcur j)
      { (σ.nif.tx j).slot (σ.card.hwcur j) with flags := flags }).cur = (σ.nif.tx j).cur := rfl
  have hspace : nmRingSpace ((σ.nif.tx j).setSlot (σ.card.hwcur j)
      { (σ.nif.tx j).slot (σ.card.hwcur j) with flags := flags }) = nmRingSpace (σ.nif.tx j) := rfl
  generalize (σ.nif.tx j).setSlot (σ.card.hwcur j)
    { (σ.nif.tx j).slot (σ.card.hwcur j) with flags := flags } = ring at *
  have hsame := @sameBuffers_setTx σ.nif j ring σ.nif.mem hslots hbuffer
  refine {
    separate := hsame.separate h.separate
    elsewhere := h.elsewhere
    isOpen := h.isOpen
    rx_end := h.rx_end
    tx_end := h.tx_end
    rx := ⟨h.rx.queue, h.rx.lens⟩
    tx := fun k hk => ?_
    txLens := fun k hk c hc hin => ?_
    round := h.round.of_held rfl ⟨rfl, rfl⟩ rfl
      (fun k hk =>
        ⟨⟨hk.packet, hk.size, hk.nmSlot, hk.ring, hk.ring_lt, hk.waiting, hk.pos⟩, rfl, rfl⟩)
      (fun buffer hg => hg.setTx hcur (fun hpos => hspace ▸ hpos) hbuffer) fun _ _ _ _ _ => rfl
    arrived := h.arrived
    sent := fun k hk => ?_ }
  · dsimp only
    by_cases hkj : k = j
    · subst hkj
      rw [Function.update_self, NetmapIf.setTx_tx_self]
      exact hpopped
    · rw [Function.update_of_ne hkj, NetmapIf.setTx_tx_of_ne hkj]
      exact h.tx k hk
  · dsimp only at hc hin ⊢
    by_cases hkj : k = j
    · subst hkj
      rw [NetmapIf.setTx_tx_self] at hc hin ⊢
      rw [Function.update_self, hslots, hhead] at hin
      rw [hslots] at hc
      rw [hlen]
      exact h.txLens k hk c hc
        (inWindow_nextSlot hqueue.hwcur_lt hqueue.head_lt hc hne hin).2
    · rw [NetmapIf.setTx_tx_of_ne hkj] at hc hin ⊢
      rw [Function.update_of_ne hkj] at hin
      exact h.txLens k hk c hc hin
  · rw [h.sent k hk, Bridge.unsent, Bridge.unsent]
    dsimp only
    by_cases hkj : k = j
    · subst hkj
      rw [Function.update_self, Function.update_self, NetmapIf.setTx_tx_self, hhead,
        packetsIn_pop hqueue.hwcur_lt hqueue.head_lt hne, List.append_assoc,
        List.singleton_append]
      refine congrArg _ (congrArg _ (packetsIn_congr hslots (nextSlot_lt hqueue.hwcur_lt)
        hqueue.head_lt ?_).symm)
      exact fun c _ _ => slotBytes_congr (hbuffer c) (hlen c)
    · rw [Function.update_of_ne hkj, Function.update_of_ne hkj, NetmapIf.setTx_tx_of_ne hkj]
      rfl

theorem Bridging.of_reclaim {nif : NetmapIf} (h : Bridging assigns σ)
    (hreclaim : reclaim σ.card σ.nif j = some nif) : Bridging assigns { σ with nif := nif } := by
  obtain ⟨hj, hroom, rfl⟩ := reclaim_spec hreclaim
  have hsame := @sameBuffers_setTx σ.nif j
    { σ.nif.tx j with tail := nmRingNext (σ.nif.tx j) (σ.nif.tx j).tail } σ.nif.mem rfl
    fun _ => rfl
  refine {
    separate := hsame.separate h.separate
    elsewhere := h.elsewhere
    isOpen := h.isOpen
    rx_end := h.rx_end
    tx_end := h.tx_end
    rx := ⟨h.rx.queue, h.rx.lens⟩
    tx := fun k hk => ?_
    txLens := fun k hk c hc hin => ?_
    round := h.round.of_held rfl ⟨rfl, rfl⟩ rfl
      (fun k hk =>
        ⟨⟨hk.packet, hk.size, hk.nmSlot, hk.ring, hk.ring_lt, hk.waiting, hk.pos⟩, rfl, rfl⟩)
      (fun buffer hg => hg.setTx rfl (fun _ => (h.tx j hj).grow_space hroom) fun _ => rfl)
      fun _ _ _ _ _ => rfl
    arrived := h.arrived
    sent := fun k hk => ?_ }
  · dsimp only
    by_cases hkj : k = j
    · subst hkj
      rw [NetmapIf.setTx_tx_self]
      exact (h.tx k hk).grow hroom
    · rw [NetmapIf.setTx_tx_of_ne hkj]
      exact h.tx k hk
  · dsimp only at hc hin ⊢
    by_cases hkj : k = j
    · subst hkj
      rw [NetmapIf.setTx_tx_self] at hc hin ⊢
      exact h.txLens k hk c hc hin
    · rw [NetmapIf.setTx_tx_of_ne hkj] at hc hin ⊢
      exact h.txLens k hk c hc hin
  · rw [h.sent k hk, Bridge.unsent, Bridge.unsent]
    dsimp only
    by_cases hkj : k = j
    · subst hkj
      rw [NetmapIf.setTx_tx_self]
      rfl
    · rw [NetmapIf.setTx_tx_of_ne hkj]
      rfl

end Device

/-! ## Runs -/

section Runs

variable {assigns : Prop} {σ σ' : Bridge} {is : IstreamNetmap} {os : OstreamNetmap} {nif : NetmapIf}

/-- Every step keeps the invariant. -/
theorem Bridging.step {e : BridgeEvent} (h : Bridging assigns σ) (he : e = .assignWrite → assigns)
    (hstep : bridgeStep σ e = some σ') : Bridging assigns σ' := by
  cases e with
  | ready =>
      obtain ⟨hstage, rfl⟩ := bridgeStep_ready hstep
      exact h.ready hstage
  | startRead =>
      obtain ⟨hstage, packet, size, s, hread, rfl⟩ := bridgeStep_startRead hstep
      obtain ⟨i, hheld, hnext⟩ := h.startRead hstage hread
      have htaken : σ.nif.mem.read (s.packet.getD 0) s.packetSize
          = slotBytes σ.nif.mem (σ.nif.rx i) (σ.nif.rx i).cur :=
        @Holds.packet_eq { σ with istream := s } i hheld
      rw [hheld.ring, Option.getD_some, htaken]
      exact hnext
  | assignWrite =>
      obtain ⟨packet, hstage, rfl⟩ := bridgeStep_assignWrite hstep
      exact h.assignWrite (he rfl) hstage
  | startWrite =>
      obtain ⟨packet, hstage, buffer, s, hwrite, rfl⟩ := bridgeStep_startWrite hstep
      exact h.startWrite hstage hwrite
  | copy =>
      obtain ⟨packet, buffer, hstage, rfl⟩ := bridgeStep_copy hstep
      exact h.copy hstage
  | endWrite =>
      obtain ⟨hstage, free, s, nif, hwrite, rfl⟩ := bridgeStep_endWrite hstep
      rcases hstage with ⟨packet, hstage⟩ | ⟨packet, buffer, hstage⟩
      · exact h.endWrite_assigned hstage hwrite
      · exact h.endWrite_filled hstage hwrite
  | endRead =>
      obtain ⟨free, hstage, r, s, nif, hend, rfl⟩ := bridgeStep_endRead hstep
      exact h.endRead hstage hend
  | receive i packet flags =>
      obtain ⟨nif, hreceive, rfl⟩ := Option.map_eq_some_iff.mp hstep
      exact h.of_receive hreceive
  | transmit j flags =>
      obtain ⟨⟨card, nif⟩, htransmit, rfl⟩ := Option.map_eq_some_iff.mp hstep
      exact h.of_transmit htransmit
  | reclaim j =>
      obtain ⟨nif, hreclaim, rfl⟩ := Option.map_eq_some_iff.mp hstep
      exact h.of_reclaim hreclaim

/-- The rings as the streams and the device find them: what the program has passed is returned,
    and what it has written is sent. -/
structure FreshRings (card : Card) (nif : NetmapIf) : Prop where
  separate : Separate card nif
  rx : RxReady card.rxRings nif
  tx : ∀ j < card.txRings, TxQueue (nif.tx j) (nif.tx j).head

theorem bridging_start {idescr odescr : CamioDescr} {rx tx : Mapping} {ilocal olocal : Bool}
    {txSlots : Nat}
    (histream : camioIstreamNetmapOpen camioIstreamNetmapConstruct idescr (.ok rx) ilocal nif
      = .ok is)
    (hostream : camioOstreamNetmapOpen camioOstreamNetmapConstruct odescr (.ok tx) olocal txSlots
      nif = .ok os)
    (hfresh : FreshRings (bridgeStart rx tx is os nif).card nif)
    (helsewhere : assigns → Elsewhere (bridgeStart rx tx is os nif).card os nif) :
    Bridging assigns (bridgeStart rx tx is os nif) := by
  obtain ⟨m, hm, rfl⟩ := istreamOpen_spec histream
  obtain ⟨m', hm', rfl⟩ := ostreamOpen_spec hostream
  obtain rfl := Except.ok.inj hm
  obtain rfl := Except.ok.inj hm'
  refine {
    separate := hfresh.separate
    elsewhere := helsewhere
    isOpen := rfl
    rx_end := ?_
    tx_end := ?_
    rx := hfresh.rx
    tx := hfresh.tx
    txLens := fun j _ c _ hin => ?_
    round := ⟨⟨rfl, rfl⟩, Or.inl ⟨rfl, rfl⟩, rfl⟩
    arrived := fun i _ => ?_
    sent := fun j _ => ?_ }
  · dsimp only [bridgeStart]
    split <;> omega
  · dsimp only [bridgeStart]
    split <;> omega
  · simp [bridgeStart, InWindow] at hin
  · show packetsIn _ _ _ _ = [] ++ packetsIn _ _ (if none = some i then _ else _) _
    rw [if_neg (show ¬ (none : Option Nat) = some i by simp), List.nil_append]
    rfl
  · simp [bridgeStart, Bridge.unsent]

/-- What a round says of all packets that were taken. -/
theorem RoundOk.committed {stage : Stage} (h : RoundOk σ stage) :
    σ.committed.map Prod.snd <+: σ.taken.map Prod.snd ∧
      σ.taken.length ≤ σ.committed.length + 1 := by
  have hall : σ.committed.map Prod.snd = σ.taken.map Prod.snd →
      σ.committed.map Prod.snd <+: σ.taken.map Prod.snd ∧
        σ.taken.length ≤ σ.committed.length + 1 := by
    intro heq
    have hlength := congrArg List.length heq
    rw [List.length_map, List.length_map] at hlength
    exact ⟨heq ▸ List.prefix_refl _, by omega⟩
  have hlast : ∀ {p}, InHand σ p → σ.committed.map Prod.snd <+: σ.taken.map Prod.snd ∧
      σ.taken.length ≤ σ.committed.length + 1 := by
    rintro p ⟨-, heq⟩
    have hlength := congrArg List.length heq
    rw [List.length_append, List.length_map, List.length_map, List.length_singleton] at hlength
    exact ⟨heq ▸ List.prefix_append _ _, by omega⟩
  cases stage with
  | idle => exact hall h.2.2
  | started p => exact hlast h.2
  | assigned p => exact hlast h.2.1
  | granted p buffer => exact hlast h.2.1
  | filled p buffer => exact hlast h.2.1
  | written free => exact hall h.2.2.2

/-- In every run, the packets of each rx ring are taken in the order of their arrival, those
    that are not lying in its slots still; all that are taken are committed unchanged in that
    order, the last one perhaps not yet; and the packets of each tx ring are sent in the order
    in which they were committed, those that are not lying in its slots still.  A program that
    assigns packets must have them elsewhere than in the memory of the ostream. -/
theorem bridge_in_order {idescr odescr : CamioDescr} {rx tx : Mapping} {ilocal olocal : Bool}
    {txSlots : Nat} {es : List BridgeEvent}
    (histream : camioIstreamNetmapOpen camioIstreamNetmapConstruct idescr (.ok rx) ilocal nif
      = .ok is)
    (hostream : camioOstreamNetmapOpen camioOstreamNetmapConstruct odescr (.ok tx) olocal txSlots
      nif = .ok os)
    (hfresh : FreshRings (bridgeStart rx tx is os nif).card nif)
    (helsewhere : .assignWrite ∈ es → Elsewhere (bridgeStart rx tx is os nif).card os nif)
    (hrun : run bridgeStep (bridgeStart rx tx is os nif) es = some σ) :
    (∀ i < σ.card.rxRings, σ.arrived i = packetsOf i σ.taken ++ σ.unread i) ∧
      (σ.committed.map Prod.snd <+: σ.taken.map Prod.snd ∧
        σ.taken.length ≤ σ.committed.length + 1) ∧
      ∀ j < σ.card.txRings, packetsOf j σ.committed = σ.card.sent j ++ σ.unsent j := by
  have halong : Along bridgeStep (fun _ e => e = .assignWrite → .assignWrite ∈ es)
      (bridgeStart rx tx is os nif) es := along_of_forall fun _ _ he heq => heq ▸ he
  have h := run_invariant_along (Bridging (.assignWrite ∈ es)) (fun _ _ _ h he => h.step he)
    (bridging_start histream hostream hfresh helsewhere) halong hrun
  exact ⟨h.arrived, h.round.committed, h.sent⟩

end Runs

/-- The rings of two devices, with the buffers of the rx rings above those of the tx rings; three
    packets wait. -/
def demoPair : NetmapIf :=
  { demoNif with rx := fun i => { demoNif.rx i with bufs := 2 ^ 20 } }

/-- A stream on the first rx ring of the pair. -/
def demoPairIstream : IstreamNetmap :=
  { demoIstream with nmMem := 2 ^ 20, packetBuffBottom := 2 ^ 20 }

def demoBridge : Bridge :=
  bridgeStart ⟨2 ^ 20, 65536, 1, 1⟩ ⟨0, 65536, 1, 1⟩ demoPairIstream demoOstream demoPair

/-- A packet is copied by the program and one by `end_write`; meanwhile the first of them is
    sent, and one arrives in its place. -/
def demoBridgeRun : List BridgeEvent :=
  [.ready, .startRead, .startWrite, .copy, .endWrite, .endRead, .startRead, .transmit 0 0,
    .assignWrite, .receive 0 [1, 2, 3] 0, .endWrite, .reclaim 0, .endRead]

theorem demoPair_fresh : FreshRings demoBridge.card demoPair where
  separate := by
    rintro (⟨j, c⟩ | ⟨i, c⟩) (⟨j', c'⟩ | ⟨i', c'⟩) hp hq hne <;>
      simp [InRing, demoBridge, bridgeStart, demoPair, demoNif, bufferOf, slotBuffer, netmapBuf]
        at hp hq hne ⊢ <;>
      omega
  rx := by
    refine ⟨fun i _ => ⟨Nat.succ_pos 3, Nat.lt_succ_self 3, rfl⟩, fun i _ c _ _ => ?_⟩
    simp [demoPair, demoNif]
  tx := fun j _ =>
    ⟨Nat.succ_pos 3, Nat.succ_pos 3, Nat.lt_succ_self 3, rfl, Nat.zero_le _⟩

theorem demoPair_elsewhere : Elsewhere demoBridge.card demoOstream demoPair := by
  intro i hi c hc
  simp [demoBridge, bridgeStart, demoPair, demoNif] at hi hc
  simp [InBufferRange, slotBuffer, netmapBuf, demoPair, demoNif, demoOstream,
    camioOstreamNetmapConstruct]
  omega

theorem demoPair_opened :
    camioIstreamNetmapOpen camioIstreamNetmapConstruct
        { camioDescrConstruct with query := some [] } (.ok ⟨2 ^ 20, 65536, 1, 1⟩) false demoPair
        = .ok demoPairIstream ∧
      camioOstreamNetmapOpen camioOstreamNetmapConstruct
        { camioDescrConstruct with query := some [] } (.ok ⟨0, 65536, 1, 1⟩) false 4 demoPair
        = .ok demoOstream := ⟨rfl, rfl⟩

theorem demoBridge_runs :
    ∃ σ, run bridgeStep demoBridge demoBridgeRun = some σ ∧ σ.taken.length = 2 ∧
      σ.card.sent 0 = [(List.range 60).map UInt8.ofNat] :=
  ⟨_, rfl, rfl, rfl⟩

theorem bridge_in_order_demo :
    ∃ σ, run bridgeStep demoBridge demoBridgeRun = some σ ∧ σ.taken.length = 2 ∧
      σ.card.sent 0 = [(List.range 60).map UInt8.ofNat] ∧
      (∀ i < σ.card.rxRings, σ.arrived i = packetsOf i σ.taken ++ σ.unread i) ∧
        (σ.committed.map Prod.snd <+: σ.taken.map Prod.snd ∧
          σ.taken.length ≤ σ.committed.length + 1) ∧
        ∀ j < σ.card.txRings, packetsOf j σ.committed = σ.card.sent j ++ σ.unsent j := by
  obtain ⟨σ, hrun, htaken, hsent⟩ := demoBridge_runs
  exact ⟨σ, hrun, htaken, hsent, bridge_in_order demoPair_opened.1 demoPair_opened.2
    demoPair_fresh (fun _ => demoPair_elsewhere) hrun⟩

end Camio.Netmap
