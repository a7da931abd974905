/-
  Camio.Netmap.Forward

  Zero-copy forwarding: a program reads packets from a netmap istream and writes them to a
  netmap ostream on the same memory.

  In each round the buffer of the rx slot goes into a tx slot, and the one that was there
  goes into the rx slot.  Between `end_write` and `end_read` both slots have the buffer of
  the packet, and the other is in the hands of the program.
-/

import Camio.Lib.Run
import Camio.Netmap.Buffers
import Camio.Netmap.Istream
import Camio.Netmap.Ostream

namespace Camio.Netmap

open Camio.Lib Camio.Descr

/-- Which calls of a round have been made, with the pointer that the last of them returned. -/
inductive Phase where
  | idle
  | started (packet : Nat)
  | assigned (packet : Nat)
  | written (free : Option Nat)

structure Forwarder where
  istream : IstreamNetmap
  ostream : OstreamNetmap
  nif : NetmapIf
  phase : Phase

/-- The calls of a round. -/
inductive RoundCall where
  | startRead
  | assignWrite (len : Nat)
  | endWrite (len : Nat)
  | endRead

/-- Calls; packets coming in and being sent, as the kernel moves the tail of a ring and sets
    lengths and flags in its slots; and what anybody stores in the buffers. -/
inductive ForwardEvent where
  | call (c : RoundCall)
  | syncTx (ring tail : Nat) (len flags : Nat → Nat)
  | syncRx (ring tail : Nat) (len flags : Nat → Nat)
  | store (mem : Mem)

/-- The kernel's part of a ring. -/
def syncSlots (r : NetmapRing) (tail : Nat) (len flags : Nat → Nat) : NetmapRing :=
  { r with tail := tail, slot := fun c => ⟨(r.slot c).bufIdx, len c, flags c⟩ }

/-- The program makes the next call of a round. -/
def callNext (σ : Forwarder) : RoundCall → Phase → Option Forwarder
  | .startRead, .idle =>
      match camioIstreamNetmapStartRead σ.istream σ.nif with
      | some (some packet, _, s) => some { σ with istream := s, phase := .started packet }
      | _ => none
  | .assignWrite len, .started packet =>
      match camioOstreamNetmapAssignWrite σ.ostream (some packet) len with
      | .ok (_, s) => some { σ with ostream := s, phase := .assigned packet }
      | _ => none
  | .endWrite len, .assigned _ =>
      match camioOstreamNetmapEndWrite σ.ostream σ.nif len true with
      | .ok (some (free, s, nif)) => some { σ with
          ostream := s, nif := nif, phase := .written free }
      | _ => none
  | .endRead, .written free =>
      match camioIstreamNetmapEndRead σ.istream σ.nif free with
      | some (_, s, nif) => some { σ with istream := s, nif := nif, phase := .idle }
      | none => none
  | _, _ => none

/-- The kernel may do its part at any time. -/
def forwardStep (σ : Forwarder) : ForwardEvent → Option Forwarder
  | .call c => callNext σ c σ.phase
  | .syncTx i tail len flags =>
      some { σ with nif := σ.nif.setTx i (syncSlots (σ.nif.tx i) tail len flags) }
  | .syncRx i tail len flags =>
      some { σ with nif := σ.nif.setRx i (syncSlots (σ.nif.rx i) tail len flags) }
  | .store mem => some { σ with nif := { σ.nif with mem := mem } }

/-- The rings share their buffers, and in each of them the current slot is one of the ring. -/
structure Interchangeable (base : Nat) (nif : NetmapIf) : Prop where
  shared : nif.SharedBase base
  tx_cur : ∀ i, (nif.tx i).cur < (nif.tx i).numSlots
  rx_cur : ∀ i, (nif.rx i).cur < (nif.rx i).numSlots

/-- The buffers lie in the mapped memory, whose size is a `uint32_t`. -/
structure Mapped (m : Mapping) (base : Nat) (nif : NetmapIf) : Prop where
  size : m.memSize < 2 ^ 32
  bottom : m.nmMem ≤ base
  inside : ∀ idx ∈ bufIdxs m nif, base + (idx + 1) * 2048 ≤ m.nmMem + m.memSize

/-- The istream has handed out the packet in the current slot of rx ring `i`. -/
structure Reading (m : Mapping) (σ : Forwarder) (i : Nat) : Prop where
  nmSlot : σ.istream.nmSlot = some (i, (σ.nif.rx i).cur)
  ring : σ.istream.ring = some i
  ring_lt : i < m.nmRxRings + 1

/-- The buffer in the current slot of rx ring `i`. -/
def readIdx (nif : NetmapIf) (i : Nat) : Nat := ((nif.rx i).slot (nif.rx i).cur).bufIdx

/-- The buffers in all slots; where one is in the hands of the program, it takes the place
    of that which lies in two slots. -/
def PhaseOk (m : Mapping) (base : Nat) (init : List Nat) (σ : Forwarder) : Phase → Prop
  | .idle => σ.istream.packet = none ∧ σ.istream.packetSize = 0 ∧
      σ.ostream.assignedBuffer = none ∧ (bufIdxs m σ.nif).Perm init
  | .started packet => σ.ostream.assignedBuffer = none ∧ (bufIdxs m σ.nif).Perm init ∧
      ∃ i, Reading m σ i ∧ packet = base + readIdx σ.nif i * 2048
  | .assigned packet => σ.ostream.assignedBuffer = some packet ∧ (bufIdxs m σ.nif).Perm init ∧
      ∃ i, Reading m σ i ∧ packet = base + readIdx σ.nif i * 2048
  | .written none => σ.ostream.assignedBuffer = none ∧ (bufIdxs m σ.nif).Perm init ∧
      ∃ i, Reading m σ i
  | .written (some free) => σ.ostream.assignedBuffer = none ∧ ∃ i y, Reading m σ i ∧
      free = base + y * 2048 ∧ y * 2048 < 2 ^ 32 ∧
      (y :: bufIdxs m σ.nif).Perm (readIdx σ.nif i :: init)

/-- The invariant. -/
structure Forwarding (m : Mapping) (base : Nat) (init : List Nat) (σ : Forwarder) : Prop where
  rings : Interchangeable base σ.nif
  isOpen : σ.istream.isClosed = false
  istream_bottom : σ.istream.packetBuffBottom = base
  ostream_bottom : σ.ostream.packetBuffBottom = base
  istream_end : σ.istream.ringEnd ≤ m.nmRxRings + 1
  ostream_end : σ.ostream.ringEnd ≤ m.nmTxRings + 1
  small : ∀ idx ∈ init, idx * 2048 < 2 ^ 32
  phase : PhaseOk m base init σ σ.phase

/-! ## Rings -/

section Rings

variable {base i tail : Nat} {nif : NetmapIf} {r : NetmapRing}

theorem Interchangeable.setTx (h : Interchangeable base nif) (hshape : (nif.tx i).SameShape r)
    (hcur : r.cur < r.numSlots) : Interchangeable base (nif.setTx i r) where
  shared := h.shared.of_sameShape (sameShape_setTx hshape)
  tx_cur := by
    intro j
    by_cases hj : j = i
    · rw [hj, NetmapIf.setTx_tx_self]
      exact hcur
    · rw [NetmapIf.setTx_tx_of_ne hj]
      exact h.tx_cur j
  rx_cur := h.rx_cur

theorem Interchangeable.setRx (h : Interchangeable base nif) (hshape : (nif.rx i).SameShape r)
    (hcur : r.cur < r.numSlots) : Interchangeable base (nif.setRx i r) where
  shared := h.shared.of_sameShape (sameShape_setRx hshape)
  tx_cur := h.tx_cur
  rx_cur := by
    intro j
    by_cases hj : j = i
    · rw [hj, NetmapIf.setRx_rx_self]
      exact hcur
    · rw [NetmapIf.setRx_rx_of_ne hj]
      exact h.rx_cur j

theorem syncSlots_sameShape (r : NetmapRing) (tail : Nat) (len flags : Nat → Nat) :
    r.SameShape (syncSlots r tail len flags) := ⟨rfl, rfl, rfl⟩

end Rings

/-! ## The calls of a round -/

section Calls

variable {m : Mapping} {base : Nat} {init : List Nat} {σ σ' : Forwarder}

/-- With all buffers in their slots, each index is small enough for its product to fit. -/
theorem Forwarding.small_of_mem (h : Forwarding m base init σ) (hperm : (bufIdxs m σ.nif).Perm init)
    {p : SlotPos} (hp : p ∈ slotPositions m σ.nif) : (σ.nif.slotAt p).bufIdx * 2048 < 2 ^ 32 :=
  h.small _ (hperm.mem_iff.mp (mem_bufIdxs hp))

theorem Forwarding.readIdx_small (h : Forwarding m base init σ)
    (hperm : (bufIdxs m σ.nif).Perm init) {i : Nat} (hlt : i < m.nmRxRings + 1) :
    readIdx σ.nif i * 2048 < 2 ^ 32 := by
  have hsmall := h.small_of_mem hperm (mem_slotPositions_rx.mpr ⟨hlt, h.rings.rx_cur i⟩)
  exact hsmall

theorem Forwarding.startRead (h : Forwarding m base init σ) (hphase : σ.phase = .idle)
    (hstep : callNext σ .startRead .idle = some σ') : Forwarding m base init σ' := by
  obtain ⟨hpacket, hsize, hassigned, hperm⟩ :
      PhaseOk m base init σ .idle := hphase ▸ h.phase
  rw [callNext] at hstep
  split at hstep
  next packet size s hread =>
    obtain rfl := Option.some.inj hstep
    obtain ⟨i, hring, rfl, hout⟩ := startRead_spec h.isOpen hpacket hsize hread
    have hlt : i < m.nmRxRings + 1 := Nat.lt_of_lt_of_le (fullRing_lt hring) h.istream_end
    have haddr : packet = base + readIdx σ.nif i * 2048 := by
      rw [← netmapBuf_eq (h.rings.shared.rx i) (h.readIdx_small hperm hlt)]
      exact Option.some.inj hout
    exact { h with phase := ⟨hassigned, hperm, i, ⟨rfl, rfl, hlt⟩, haddr⟩ }
  next => cases hstep

theorem Forwarding.assignWrite {packet len : Nat} (h : Forwarding m base init σ)
    (hphase : σ.phase = .started packet)
    (hstep : callNext σ (.assignWrite len) (.started packet) = some σ') :
    Forwarding m base init σ' := by
  obtain ⟨-, hperm, i, hreading, haddr⟩ :
      PhaseOk m base init σ (.started packet) := hphase ▸ h.phase
  obtain rfl := Option.some.inj hstep
  exact { h with
    phase := ⟨rfl, hperm, i, ⟨hreading.nmSlot, hreading.ring, hreading.ring_lt⟩, haddr⟩ }

/-- `end_write` leaves the buffer of the packet in the tx slot too and returns the one that was
    there, or copies the packet. -/
theorem Forwarding.endWrite {packet len : Nat} (h : Forwarding m base init σ)
    (hphase : σ.phase = .assigned packet)
    (hstep : callNext σ (.endWrite len) (.assigned packet) = some σ') :
    Forwarding m base init σ' := by
  obtain ⟨hassigned, hperm, i, hreading, haddr⟩ :
      PhaseOk m base init σ (.assigned packet) := hphase ▸ h.phase
  rw [callNext] at hstep
  split at hstep
  next free s nif hcall =>
    obtain rfl := Option.some.inj hstep
    obtain ⟨⟨hnone, hbottom, hend⟩, j, ring, mem, hring, rfl, hbufs, hsize, hslots, hcur, hothers,
      hslot⟩ := (endWrite_spec hcall).2.slot hassigned
    have hshape : (σ.nif.tx j).SameShape ring := ⟨hbufs, hsize, hslots⟩
    have hcur_lt : ring.cur < ring.numSlots := by
      rw [hcur, hslots]
      exact nextSlot_lt (h.rings.tx_cur j)
    have hrings := h.rings.setTx hshape hcur_lt
    have hpos : SlotPos.tx j (σ.nif.tx j).cur ∈ slotPositions m σ.nif :=
      mem_slotPositions_tx.mpr
        ⟨Nat.lt_of_lt_of_le (freeRing_lt hring) h.ostream_end, h.rings.tx_cur j⟩
    refine {
      rings := ⟨⟨hrings.shared.tx, hrings.shared.rx⟩, hrings.tx_cur, hrings.rx_cur⟩
      isOpen := h.isOpen
      istream_bottom := h.istream_bottom
      ostream_bottom := hbottom.trans h.ostream_bottom
      istream_end := h.istream_end
      ostream_end := hend.trans_le h.ostream_end
      small := h.small
      phase := ?_ }
    obtain ⟨hnmSlot, hiring, hlt⟩ := hreading
    rcases hslot with ⟨rfl, hkept⟩ | ⟨rfl, hswapped⟩
    · have hsame : bufIdxs m (σ.nif.setTx j ring) = bufIdxs m σ.nif := by
        refine bufIdxs_setTx hshape fun c => ?_
        by_cases hc : c = (σ.nif.tx j).cur
        · rw [hc, hkept]
        · exact hothers c hc
      exact ⟨hnone, hsame ▸ hperm, i, hnmSlot, hiring, hlt⟩
    · have hidx : (ring.slot (σ.nif.tx j).cur).bufIdx = readIdx σ.nif i := by
        rw [hswapped, haddr, h.ostream_bottom]
        exact bufIdx_eq (h.readIdx_small hperm hlt)
      have hexchange := bufIdxs_setTx_exchange (m := m) hshape hpos hothers
      rw [hidx] at hexchange
      have hsmall := h.small_of_mem hperm hpos
      exact ⟨hnone, i, _, ⟨hnmSlot, hiring, hlt⟩, netmapBuf_eq (h.rings.shared.tx j) hsmall, hsmall,
        hexchange.trans (hperm.cons _)⟩
  next => cases hstep

/-- `end_read` puts the buffer that it is given into the rx slot. -/
theorem Forwarding.endRead {free : Option Nat} (h : Forwarding m base init σ)
    (hphase : σ.phase = .written free)
    (hstep : callNext σ .endRead (.written free) = some σ') : Forwarding m base init σ' := by
  have hok : PhaseOk m base init σ (.written free) := hphase ▸ h.phase
  obtain ⟨i, hreading⟩ : ∃ i, Reading m σ i := by
    cases free with
    | none => exact hok.2.2
    | some buff =>
        obtain ⟨-, i, -, hreading, -⟩ := hok
        exact ⟨i, hreading⟩
  rw [callNext] at hstep
  split at hstep
  next r s nif hcall =>
    obtain rfl := Option.some.inj hstep
    obtain ⟨rfl, ring, rfl, hbufs, hsize, hslots, hcur, hothers, hidx⟩ :=
      endRead_spec hreading.ring hreading.nmSlot hcall
    have hshape : (σ.nif.rx i).SameShape ring := ⟨hbufs, hsize, hslots⟩
    have hcur_lt : ring.cur < ring.numSlots := by
      rw [hcur, hslots]
      exact nextSlot_lt (h.rings.rx_cur i)
    refine {
      rings := h.rings.setRx hshape hcur_lt
      isOpen := h.isOpen
      istream_bottom := h.istream_bottom
      ostream_bottom := h.ostream_bottom
      istream_end := h.istream_end
      ostream_end := h.ostream_end
      small := h.small
      phase := ?_ }
    cases free with
    | none =>
        obtain ⟨hnone, hperm, -⟩ := hok
        have hsame : bufIdxs m (σ.nif.setRx i ring) = bufIdxs m σ.nif := by
          refine bufIdxs_setRx hshape fun c => ?_
          by_cases hc : c = (σ.nif.rx i).cur
          · rw [hc, hidx]
            rfl
          · exact hothers c hc
        exact ⟨rfl, rfl, hnone, hsame ▸ hperm⟩
    | some buff =>
        obtain ⟨hnone, j, y, hreading', rfl, hsmall, hperm⟩ := hok
        obtain rfl : i = j := Option.some.inj (hreading.ring.symm.trans hreading'.ring)
        have hpos := mem_slotPositions_rx.mpr ⟨hreading.ring_lt, h.rings.rx_cur i⟩
        have hexchange := bufIdxs_setRx_exchange (m := m) hshape hpos hothers
        rw [hidx, refillIdx, h.istream_bottom, bufIdx_int_eq hsmall] at hexchange
        exact ⟨rfl, rfl, hnone, exchange_back hperm hexchange⟩
  next => cases hstep

end Calls

/-! ## Steps and runs -/

section Runs

variable {m : Mapping} {base : Nat} {init : List Nat} {σ σ' : Forwarder}

/-- The kernel's part of the rings leaves the buffers where they are. -/
theorem PhaseOk.of_sync {nif : NetmapIf} {phase : Phase} (h : PhaseOk m base init σ phase)
    (hbufs : bufIdxs m nif = bufIdxs m σ.nif) (hcur : ∀ i, (nif.rx i).cur = (σ.nif.rx i).cur)
    (hread : ∀ i, readIdx nif i = readIdx σ.nif i) :
    PhaseOk m base init { σ with nif := nif } phase := by
  have hreading : ∀ {i}, Reading m σ i → Reading m { σ with nif := nif } i := by
    intro i h
    refine ⟨?_, h.ring, h.ring_lt⟩
    dsimp only
    rw [hcur]
    exact h.nmSlot
  cases phase with
  | idle =>
      obtain ⟨hpacket, hsize, hnone, hperm⟩ := h
      exact ⟨hpacket, hsize, hnone, hbufs ▸ hperm⟩
  | started packet =>
      obtain ⟨hnone, hperm, i, hi, haddr⟩ := h
      exact ⟨hnone, hbufs ▸ hperm, i, hreading hi, hread i ▸ haddr⟩
  | assigned packet =>
      obtain ⟨hassigned, hperm, i, hi, haddr⟩ := h
      exact ⟨hassigned, hbufs ▸ hperm, i, hreading hi, hread i ▸ haddr⟩
  | written free =>
      cases free with
      | none =>
          obtain ⟨hnone, hperm, i, hi⟩ := h
          exact ⟨hnone, hbufs ▸ hperm, i, hreading hi⟩
      | some buff =>
          obtain ⟨hnone, i, y, hi, haddr, hsmall, hperm⟩ := h
          refine ⟨hnone, i, y, hreading hi, haddr, hsmall, ?_⟩
          dsimp only
          rw [hbufs, hread]
          exact hperm

/-- A call keeps the invariant; out of its turn it is refused. -/
theorem Forwarding.call {c : RoundCall} (h : Forwarding m base init σ)
    (hstep : callNext σ c σ.phase = some σ') : Forwarding m base init σ' := by
  cases hphase : σ.phase with
  | idle =>
      rw [hphase] at hstep
      cases c with
      | startRead => exact h.startRead hphase hstep
      | assignWrite | endWrite | endRead => cases hstep
  | started packet =>
      rw [hphase] at hstep
      cases c with
      | assignWrite len => exact h.assignWrite hphase hstep
      | startRead | endWrite | endRead => cases hstep
  | assigned packet =>
      rw [hphase] at hstep
      cases c with
      | endWrite len => exact h.endWrite hphase hstep
      | startRead | assignWrite | endRead => cases hstep
  | written free =>
      rw [hphase] at hstep
      cases c with
      | endRead => exact h.endRead hphase hstep
      | startRead | assignWrite | endWrite => cases hstep

/-- Each step keeps the invariant. -/
theorem Forwarding.step {e : ForwardEvent} (h : Forwarding m base init σ)
    (hstep : forwardStep σ e = some σ') : Forwarding m base init σ' := by
  cases e with
  | call c => exact h.call hstep
  | syncTx i tail len flags =>
      obtain rfl := Option.some.inj hstep
      have hshape := syncSlots_sameShape (σ.nif.tx i) tail len flags
      exact { h with
        rings := h.rings.setTx hshape (h.rings.tx_cur i)
        phase := h.phase.of_sync (bufIdxs_setTx hshape fun _ => rfl) (fun _ => rfl) fun _ => rfl }
  | syncRx i tail len flags =>
      obtain rfl := Option.some.inj hstep
      have hshape := syncSlots_sameShape (σ.nif.rx i) tail len flags
      have hcur : ∀ j, ((σ.nif.setRx i (syncSlots (σ.nif.rx i) tail len flags)).rx j).cur
          = (σ.nif.rx j).cur := by
        intro j
        by_cases hj : j = i
        · rw [hj, NetmapIf.setRx_rx_self]
          rfl
        · rw [NetmapIf.setRx_rx_of_ne hj]
      refine { h with
        rings := h.rings.setRx hshape (h.rings.rx_cur i)
        phase := h.phase.of_sync (bufIdxs_setRx hshape fun _ => rfl) hcur fun j => ?_ }
      rw [readIdx, hcur]
      exact @slotAt_setRx _ i _ (.rx j _) fun _ _ => rfl
  | store mem =>
      obtain rfl := Option.some.inj hstep
      exact { h with
        rings := ⟨⟨h.rings.shared.tx, h.rings.shared.rx⟩, h.rings.tx_cur, h.rings.rx_cur⟩
        phase := @PhaseOk.of_sync _ _ _ σ { σ.nif with mem := mem } _ h.phase rfl
          (fun _ => rfl) fun _ => rfl }

/-- The two streams as they are opened on the same memory. -/
theorem forwarding_opened {idescr odescr : CamioDescr} {ilocal olocal : Bool} {txSlots : Nat}
    {is : IstreamNetmap} {os : OstreamNetmap} {nif : NetmapIf}
    (histream : camioIstreamNetmapOpen camioIstreamNetmapConstruct idescr (.ok m) ilocal nif
      = .ok is)
    (hostream : camioOstreamNetmapOpen camioOstreamNetmapConstruct odescr (.ok m) olocal txSlots nif
      = .ok os)
    (hrings : Interchangeable base nif) (hmapped : Mapped m base nif) :
    Forwarding m base (bufIdxs m nif) ⟨is, os, nif, .idle⟩ := by
  rw [camioIstreamNetmapOpen] at histream
  rw [camioOstreamNetmapOpen] at hostream
  split at histream
  next => cases histream
  next =>
    split at histream
    next => cases histream
    next =>
      split at hostream
      next => cases hostream
      next =>
        split at hostream
        next => cases hostream
        next =>
          obtain rfl := Except.ok.inj histream
          obtain rfl := Except.ok.inj hostream
          refine {
            rings := hrings
            isOpen := rfl
            istream_bottom := (hrings.shared.rx _).1
            ostream_bottom := (hrings.shared.tx _).1
            istream_end := ?_
            ostream_end := ?_
            small := fun idx hidx => ?_
            phase := ⟨rfl, rfl, rfl, .refl _⟩ }
          · dsimp only
            split <;> omega
          · dsimp only
            split <;> omega
          · have hinside := hmapped.inside idx hidx
            have hsize := hmapped.size
            have hbottom := hmapped.bottom
            omega

/-- After each complete round of a forwarding run, the buffer indices over all slots are a
    permutation of the initial ones, and still pairwise distinct. -/
theorem forward_conserves_buffers {idescr odescr : CamioDescr} {ilocal olocal : Bool}
    {txSlots : Nat} {is : IstreamNetmap} {os : OstreamNetmap} {nif : NetmapIf} {σ : Forwarder}
    {es : List ForwardEvent}
    (histream : camioIstreamNetmapOpen camioIstreamNetmapConstruct idescr (.ok m) ilocal nif
      = .ok is)
    (hostream : camioOstreamNetmapOpen camioOstreamNetmapConstruct odescr (.ok m) olocal txSlots nif
      = .ok os)
    (hrings : Interchangeable base nif) (hmapped : Mapped m base nif)
    (hdistinct : (bufIdxs m nif).Nodup) (hrun : run forwardStep ⟨is, os, nif, .idle⟩ es = some σ)
    (hround : σ.phase = .idle) :
    (bufIdxs m σ.nif).Perm (bufIdxs m nif) ∧ (bufIdxs m σ.nif).Nodup := by
  have hforwarding := run_invariant (Forwarding m base (bufIdxs m nif)) (fun _ _ _ h => h.step)
    (forwarding_opened histream hostream hrings hmapped) hrun
  have hok : PhaseOk m base (bufIdxs m nif) σ .idle := hround ▸ hforwarding.phase
  obtain ⟨-, -, -, hperm⟩ := hok
  exact ⟨hperm, hperm.nodup_iff.mpr hdistinct⟩

end Runs

/-- Two rounds, with packets coming in between. -/
def demoRounds : List ForwardEvent :=
  [.call .startRead, .call (.assignWrite 60), .call (.endWrite 60), .call .endRead,
    .syncRx 0 0 (fun _ => 90) fun _ => 0,
    .call .startRead, .call (.assignWrite 90), .call (.endWrite 90), .call .endRead]

theorem demoNif_interchangeable : Interchangeable 4096 demoNif :=
  ⟨⟨fun _ => ⟨rfl, rfl⟩, fun _ => ⟨rfl, rfl⟩⟩, fun _ => Nat.succ_pos 3, fun _ => Nat.succ_pos 3⟩

theorem demoNif_mapped : Mapped ⟨0, 65536, 1, 1⟩ 4096 demoNif :=
  ⟨by decide, by decide, by decide⟩

theorem demoRounds_complete :
    ∃ σ, run forwardStep ⟨demoIstream, demoOstream, demoNif, .idle⟩ demoRounds = some σ ∧
      σ.phase = .idle := ⟨_, rfl, rfl⟩

theorem forward_conserves_buffers_twice :
    ∃ σ, run forwardStep ⟨demoIstream, demoOstream, demoNif, .idle⟩ demoRounds = some σ ∧
      (bufIdxs ⟨0, 65536, 1, 1⟩ σ.nif).Perm (bufIdxs ⟨0, 65536, 1, 1⟩ demoNif) := by
  obtain ⟨σ, hrun, hround⟩ := demoRounds_complete
  exact ⟨σ, hrun, (forward_conserves_buffers demoIstream_opened demoOstream_opened
    demoNif_interchangeable demoNif_mapped (by decide) hrun hround).1⟩

end Camio.Netmap
