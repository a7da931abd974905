/-
  Camio.Netmap.Stalled

  Forwarding by assigned packets on one memory, seen from the device: the packets are put
  into the tx rings, and the device never learns of them.

  Putting a buffer into a slot moves `cur` on and leaves `head` where it was, and the device
  sends what lies before `head`.  It has nothing to send, and so no slot comes free once the
  rings are full.
-/

import Camio.Netmap.Bridge

namespace Camio.Netmap

open Camio.Lib Camio.Descr

/-- The index of a buffer in the mapped memory. -/
def InMapping (m : Mapping) (base idx : Nat) : Prop :=
  idx * 2048 < 2 ^ 32 ∧ base + idx * 2048 ≤ m.nmMem + m.memSize

/-- The address of such a buffer. -/
def IsBuffer (m : Mapping) (base a : Nat) : Prop :=
  ∃ idx, InMapping m base idx ∧ a = base + idx * 2048

/-- What the program holds in a round are addresses of buffers; it has never asked for one to
    copy a packet to. -/
def StageBuffers (m : Mapping) (base : Nat) (s : OstreamNetmap) : Stage → Prop
  | .idle => True
  | .started p => IsBuffer m base p
  | .assigned p => s.assignedBuffer = some p ∧ IsBuffer m base p
  | .granted _ _ | .filled _ _ => False
  | .written free => ∀ p, free = some p → IsBuffer m base p

/-- All slots have buffers of the mapped memory. -/
def SlotsIn (m : Mapping) (base : Nat) (card : Card) (nif : NetmapIf) : Prop :=
  ∀ p, InRing card nif p → InMapping m base (nif.slotAt p).bufIdx

/-- What the calls keep of the ostream's range. -/
structure OnMapping (m : Mapping) (base : Nat) (s : OstreamNetmap) : Prop where
  bottom : s.packetBuffBottom = base
  nmMem : s.nmMem = m.nmMem
  memSize : s.memSize = m.memSize

/-- A tx ring whose `head` has stayed where the device is, with `n` packets behind it. -/
structure Hidden (r : NetmapRing) (hwcur n : Nat) : Prop where
  head : r.head = hwcur
  head_lt : r.head < r.numSlots
  tail_lt : r.tail < r.numSlots
  cur_lt : r.cur < r.numSlots
  cur_le : steps r.numSlots r.head r.cur ≤ steps r.numSlots r.head r.tail
  count : steps r.numSlots r.head r.cur = n

/-- The invariant: all buffers are those of the mapped memory, and no packet is visible. -/
structure Stalled (m : Mapping) (base txSlots : Nat) (os : OstreamNetmap) (σ : Bridge) : Prop where
  rings : Interchangeable base σ.nif
  slots : SlotsIn m base σ.card σ.nif
  rx_end : σ.istream.ringEnd ≤ σ.card.rxRings
  tx_end : os.ringEnd ≤ σ.card.txRings
  tx_range : σ.ostream.ringBegin = os.ringBegin ∧ σ.ostream.ringEnd = os.ringEnd
  istream_bottom : σ.istream.packetBuffBottom = base
  ostream : OnMapping m base σ.ostream
  packet : ∀ p, σ.istream.packet = some p → IsBuffer m base p
  stage : StageBuffers m base σ.ostream σ.stage
  tx : ∀ j < σ.card.txRings,
    Hidden (σ.nif.tx j) (σ.card.hwcur j) (packetsOf j σ.committed).length
  tx_slots : ∀ j < σ.card.txRings, (σ.nif.tx j).numSlots = txSlots
  sent : ∀ j, σ.card.sent j = []
  committed : ∀ p ∈ σ.committed, os.ringBegin ≤ p.1 ∧ p.1 < os.ringEnd

section Hidden

variable {r r' : NetmapRing} {hwcur n : Nat}

/-- A packet more. -/
theorem Hidden.push (h : Hidden r hwcur n) (hspace : r.cur ≠ r.tail)
    (hslots : r'.numSlots = r.numSlots) (hcur : r'.cur = nmRingNext r r.cur)
    (hhead : r'.head = r.head) (htail : r'.tail = r.tail) : Hidden r' hwcur (n + 1) := by
  obtain ⟨hhw, hheadlt, htaillt, hcurlt, hle, hcount⟩ := h
  -- with space `cur` is not at the tail, and so the slot behind it is not at `head`
  have hne : steps r.numSlots r.head r.cur ≠ steps r.numSlots r.head r.tail := by
    simp only [steps] at hle ⊢
    split_ifs at hle ⊢ <;> omega
  have hlt := steps_lt hheadlt htaillt
  have hroom : nextSlot r.numSlots r.cur ≠ r.head := by
    simp only [steps, nextSlot] at hne hle hlt ⊢
    split_ifs at hne hle hlt ⊢ <;> omega
  have hstep := steps_push hheadlt hroom
  rw [nmRingNext] at hcur
  refine ⟨hhead.trans hhw, ?_, ?_, ?_, ?_, ?_⟩
  · rw [hhead, hslots]
    exact hheadlt
  · rw [htail, hslots]
    exact htaillt
  · rw [hcur, hslots]
    exact nextSlot_lt hcurlt
  · rw [hslots, hhead, hcur, htail, hstep]
    omega
  · rw [hslots, hhead, hcur, hstep, hcount]

/-- The device gives a slot back. -/
theorem Hidden.grow (h : Hidden r hwcur n) (hroom : nmRingNext r r.tail ≠ hwcur) :
    Hidden { r with tail := nmRingNext r r.tail } hwcur n := by
  obtain ⟨hhw, hheadlt, htaillt, hcurlt, hle, hcount⟩ := h
  rw [← hhw] at hroom
  have hstep := steps_push hheadlt hroom
  refine ⟨hhw, hheadlt, nextSlot_lt htaillt, hcurlt, ?_, hcount⟩
  show steps r.numSlots r.head r.cur ≤ steps r.numSlots r.head (nextSlot r.numSlots r.tail)
  omega

end Hidden

/-! ## Buffers of the mapped memory -/

section Slots

variable {m : Mapping} {base i j : Nat} {card : Card} {nif : NetmapIf} {r : NetmapRing}
  {s s' : IstreamNetmap}

/-- Writes to an rx ring that put only such buffers into its slots. -/
theorem SlotsIn.setRx {mem : Mem} (h : SlotsIn m base card nif)
    (hslots : r.numSlots = (nif.rx i).numSlots)
    (hidx : ∀ c, (r.slot c).bufIdx = ((nif.rx i).slot c).bufIdx ∨
      InMapping m base (r.slot c).bufIdx) :
    SlotsIn m base card { nif.setRx i r with mem := mem } := by
  rintro (⟨k, c⟩ | ⟨k, c⟩) hp
  · exact h (.tx k c) hp
  · by_cases hk : k = i
    · subst hk
      simp only [InRing, NetmapIf.setRx_rx_self, hslots] at hp
      simp only [NetmapIf.slotAt, NetmapIf.setRx_rx_self]
      rcases hidx c with heq | hin
      · rw [heq]
        exact h (.rx k c) hp
      · exact hin
    · simp only [InRing, NetmapIf.setRx_rx_of_ne hk] at hp
      simp only [NetmapIf.slotAt, NetmapIf.setRx_rx_of_ne hk]
      exact h (.rx k c) hp

/-- And to a tx ring. -/
theorem SlotsIn.setTx (h : SlotsIn m base card nif) (hslots : r.numSlots = (nif.tx j).numSlots)
    (hidx : ∀ c, (r.slot c).bufIdx = ((nif.tx j).slot c).bufIdx ∨
      InMapping m base (r.slot c).bufIdx) :
    SlotsIn m base card (nif.setTx j r) := by
  rintro (⟨k, c⟩ | ⟨k, c⟩) hp
  · by_cases hk : k = j
    · subst hk
      simp only [InRing, NetmapIf.setTx_tx_self, hslots] at hp
      simp only [NetmapIf.slotAt, NetmapIf.setTx_tx_self]
      rcases hidx c with heq | hin
      · rw [heq]
        exact h (.tx k c) hp
      · exact hin
    · simp only [InRing, NetmapIf.setTx_tx_of_ne hk] at hp
      simp only [NetmapIf.slotAt, NetmapIf.setTx_tx_of_ne hk]
      exact h (.tx k c) hp
  · exact h (.rx k c) hp

/-- The buffer of a slot with such an index. -/
theorem isBuffer_slotBuffer {c : Nat} (hbase : r.bufs = base ∧ r.nrBufSize = 2048)
    (h : InMapping m base (r.slot c).bufIdx) : IsBuffer m base (slotBuffer r c) :=
  ⟨_, h, netmapBuf_eq hbase h.1⟩

/-- `prepare_next` keeps the packet, or takes that of a ring with packets. -/
theorem prepareNext_cases (s : IstreamNetmap) (nif : NetmapIf) :
    (prepareNext s nif).2 = s ∨
      ∃ i, fullRing s nif = some i ∧ (prepareNext s nif).2 = withPacket s nif i := by
  rw [prepareNext]
  split
  next => exact Or.inl rfl
  next =>
    cases fullRing s nif with
    | none => exact Or.inl rfl
    | some i => exact Or.inr ⟨i, rfl, rfl⟩

theorem ready_cases (s : IstreamNetmap) (nif : NetmapIf) :
    (camioIstreamNetmapReady s nif).2 = s ∨
      ∃ i, fullRing s nif = some i ∧ (camioIstreamNetmapReady s nif).2 = withPacket s nif i := by
  rw [camioIstreamNetmapReady]
  split
  next => exact Or.inl rfl
  next => exact prepareNext_cases s nif

theorem startRead_cases {p size : Nat}
    (h : camioIstreamNetmapStartRead s nif = some (some p, size, s')) :
    s'.packet = some p ∧ (s' = s ∨ ∃ i, fullRing s nif = some i ∧ s' = withPacket s nif i) := by
  rw [camioIstreamNetmapStartRead] at h
  split at h
  next => simp at h
  next =>
    split at h
    next =>
      dsimp only at h
      split at h
      next => simp at h
      next =>
        obtain ⟨hp, -, rfl⟩ : (prepareNext s nif).2.packet = some p ∧
            (prepareNext s nif).2.packetSize = size ∧ (prepareNext s nif).2 = s' := by
          simpa using h
        exact ⟨hp, prepareNext_cases s nif⟩
    next =>
      obtain ⟨hp, -, rfl⟩ : s.packet = some p ∧ s.packetSize = size ∧ s = s' := by simpa using h
      exact ⟨hp, Or.inl rfl⟩

/-- What `end_read` does to the slots: one of them may get the buffer that it is given. -/
theorem endRead_slots {out : Int} {free : Option Nat} {nif' : NetmapIf}
    (hrings : Interchangeable base nif) (hslots : SlotsIn m base card nif)
    (hbottom : s.packetBuffBottom = base) (hfree : ∀ p, free = some p → IsBuffer m base p)
    (h : camioIstreamNetmapEndRead s nif free = some (out, s', nif')) :
    s' = { s with packetSize := 0, packet := none } ∧ nif'.tx = nif.tx ∧
      Interchangeable base nif' ∧ SlotsIn m base card nif' := by
  obtain ⟨nif1, hrefill, hreturn⟩ := Option.bind_eq_some_iff.mp h
  obtain ⟨k, -, hresult⟩ := Option.map_eq_some_iff.mp hreturn
  obtain ⟨-, rfl, rfl⟩ := hresult
  -- a buffer that is handed back goes into the slot that was read
  have hfilled : nif1.tx = nif.tx ∧ Interchangeable base nif1 ∧ SlotsIn m base card nif1 := by
    cases free with
    | none =>
        obtain rfl := Option.some.inj hrefill
        exact ⟨rfl, hrings, hslots⟩
    | some p =>
        obtain ⟨⟨i, c⟩, -, rfl⟩ := Option.map_eq_some_iff.mp hrefill
        obtain ⟨y, hy, rfl⟩ := hfree p rfl
        refine ⟨rfl, hrings.setRx ⟨rfl, rfl, rfl⟩ (hrings.rx_cur i),
          @SlotsIn.setRx m base i card nif _ nif.mem hslots rfl fun d => ?_⟩
        by_cases hd : d = c
        · subst hd
          rw [NetmapRing.setSlot_slot_self]
          dsimp only
          rw [hbottom, bufIdx_int_eq hy.1]
          exact Or.inr hy
        · rw [NetmapRing.setSlot_slot_of_ne hd]
          exact Or.inl rfl
  obtain ⟨htx, hrings1, hslots1⟩ := hfilled
  refine ⟨rfl, htx, hrings1.setRx ⟨rfl, rfl, rfl⟩ (nextSlot_lt (hrings1.rx_cur k)), ?_⟩
  exact @SlotsIn.setRx m base k card nif1 _ nif1.mem hslots1 rfl fun d => Or.inl rfl

end Slots

/-! ## Swapped packets -/

section Swaps

variable {s s' : OstreamNetmap} {nif nif' : NetmapIf} {len p : Nat} {r : Option Nat}

/-- What `end_write` does with an assigned buffer of the memory of the tx ring: it takes the
    place of that in the current slot of a ring with space, and `cur` moves on alone. -/
structure Swapped (s : OstreamNetmap) (nif : NetmapIf) (p : Nat) (s' : OstreamNetmap)
    (nif' : NetmapIf) (ring : NetmapRing) : Prop where
  stream : s'.ringBegin = s.ringBegin ∧ s'.ringEnd = s.ringEnd ∧ s'.nmMem = s.nmMem ∧
    s'.memSize = s.memSize ∧ s'.packetBuffBottom = s.packetBuffBottom
  free : freeRing s nif = some s'.ringNum
  nif_eq : nif' = nif.setTx s'.ringNum ring
  shape : (nif.tx s'.ringNum).SameShape ring
  cur : ring.cur = nmRingNext (nif.tx s'.ringNum) (nif.tx s'.ringNum).cur
  head : ring.head = (nif.tx s'.ringNum).head
  tail : ring.tail = (nif.tx s'.ringNum).tail
  idx_cur : (ring.slot (nif.tx s'.ringNum).cur).bufIdx = (p - s.packetBuffBottom) / 2048 % 2 ^ 32
  idx_ne : ∀ c ≠ (nif.tx s'.ringNum).cur,
    (ring.slot c).bufIdx = ((nif.tx s'.ringNum).slot c).bufIdx

theorem endWrite_swapped
    (h : camioOstreamNetmapEndWrite s nif len true = .ok (some (r, s', nif')))
    (hassigned : s.assignedBuffer = some p) (hin : InBufferRange s p) :
    r = some (slotBuffer (nif.tx s'.ringNum) (nif.tx s'.ringNum).cur) ∧
      ∃ ring, Swapped s nif p s' nif' ring := by
  obtain ⟨-, hend⟩ := endWrite_spec h
  generalize hresult : (s', nif') = t at hend
  cases hend with
  | started hnone => simp [hnone] at hassigned
  | copied a i ha hout =>
      obtain rfl := Option.some.inj (ha.symm.trans hassigned)
      exact absurd hin hout
  | swapped a i ha _ hring =>
      obtain rfl := Option.some.inj (ha.symm.trans hassigned)
      obtain ⟨rfl, rfl⟩ := Prod.mk.inj hresult
      refine ⟨rfl, _, ⟨⟨rfl, rfl, rfl, rfl, rfl⟩, hring, rfl, ⟨rfl, rfl, rfl⟩, rfl, rfl, rfl, ?_,
        fun c hc => ?_⟩⟩
      · exact congrArg _ (NetmapRing.setSlot_slot_self ..)
      · exact congrArg _ (NetmapRing.setSlot_slot_of_ne hc ..)

end Swaps

/-! ## Steps -/

section Steps

variable {m : Mapping} {base txSlots i j : Nat} {os : OstreamNetmap} {σ σ' : Bridge}

theorem freeRing_range {s : OstreamNetmap} {nif : NetmapIf} (h : freeRing s nif = some j) :
    s.ringBegin ≤ j ∧ j < s.ringEnd := by
  have hmem := List.mem_of_find?_eq_some h
  rw [List.mem_range'_1] at hmem
  omega

/-- The packet that the istream takes is in one of the buffers. -/
theorem Stalled.taken (h : Stalled m base txSlots os σ)
    (hring : fullRing σ.istream σ.nif = some i) :
    IsBuffer m base (slotBuffer (σ.nif.rx i) (σ.nif.rx i).cur) :=
  isBuffer_slotBuffer (h.rings.shared.rx i)
    (h.slots (.rx i _) ⟨Nat.lt_of_lt_of_le (fullRing_lt hring) h.rx_end, h.rings.rx_cur i⟩)

/-- The istream has kept its packet, or has taken one. -/
theorem Stalled.istream {s : IstreamNetmap} {stage : Stage} (h : Stalled m base txSlots os σ)
    (hs : s = σ.istream ∨ ∃ i, fullRing σ.istream σ.nif = some i ∧
      s = withPacket σ.istream σ.nif i)
    (hstage : StageBuffers m base σ.ostream stage) :
    Stalled m base txSlots os { σ with istream := s, stage := stage } := by
  rcases hs with rfl | ⟨i, hring, rfl⟩
  · exact { h with stage := hstage }
  · refine { h with
      rx_end := h.rx_end, istream_bottom := h.istream_bottom, stage := hstage
      packet := fun p hp => ?_ }
    obtain rfl := Option.some.inj hp
    exact h.taken hring

theorem Stalled.startRead (h : Stalled m base txSlots os σ) {p size : Nat} {s : IstreamNetmap}
    (hread : camioIstreamNetmapStartRead σ.istream σ.nif = some (some p, size, s)) :
    IsBuffer m base p := by
  obtain ⟨hp, rfl | ⟨i, hring, rfl⟩⟩ := startRead_cases hread
  · exact h.packet p hp
  · obtain rfl := Option.some.inj hp
    exact h.taken hring

/-- `end_write` puts the packet into a tx ring, where it is hidden. -/
theorem Stalled.endWrite {p len : Nat} {free : Option Nat} {s : OstreamNetmap} {nif : NetmapIf}
    {packet : List UInt8} (h : Stalled m base txSlots os σ) (hstage : σ.stage = .assigned p)
    (hwrite : camioOstreamNetmapEndWrite σ.ostream σ.nif len true = .ok (some (free, s, nif))) :
    Stalled m base txSlots os { σ with
      ostream := s, nif := nif, stage := .written free
      committed := σ.committed ++ [(s.ringNum, packet)] } := by
  obtain ⟨hassigned, idx, hidx, rfl⟩ : StageBuffers m base σ.ostream (.assigned p) :=
    hstage ▸ h.stage
  have hbottom := h.ostream.bottom
  have hin : InBufferRange σ.ostream (base + idx * 2048) := by
    refine ⟨?_, ?_⟩
    · rw [hbottom]
      exact Nat.le_add_right ..
    · rw [h.ostream.nmMem, h.ostream.memSize]
      exact hidx.2
  obtain ⟨rfl, ring, ⟨hbegin, hend, hmem, hsize, hbot⟩, hfree, rfl, hshape, hcur, hhead, htail,
    hidxcur, hidxne⟩ := endWrite_swapped hwrite hassigned hin
  generalize s.ringNum = k at *
  have hrange := freeRing_range hfree
  rw [h.tx_range.1, h.tx_range.2] at hrange
  have hk : k < σ.card.txRings := Nat.lt_of_lt_of_le hrange.2 h.tx_end
  have hcurlt := h.rings.tx_cur k
  have hspace : (σ.nif.tx k).cur ≠ (σ.nif.tx k).tail := by
    have hpos := freeRing_some hfree
    have htlt := (h.tx k hk).tail_lt
    simp only [nmRingSpace] at hpos
    split at hpos <;> omega
  refine {
    rings := h.rings.setTx hshape ?_
    slots := h.slots.setTx hshape.numSlots fun c => ?_
    rx_end := h.rx_end
    tx_end := h.tx_end
    tx_range := ⟨hbegin.trans h.tx_range.1, hend.trans h.tx_range.2⟩
    istream_bottom := h.istream_bottom
    ostream := ⟨hbot.trans hbottom, hmem.trans h.ostream.nmMem, hsize.trans h.ostream.memSize⟩
    packet := h.packet
    stage := ?_
    tx := fun j hj => ?_
    tx_slots := fun j hj => ?_
    sent := h.sent
    committed := fun q hq => ?_ }
  · rw [hcur, hshape.numSlots]
    exact nextSlot_lt hcurlt
  · by_cases hc : c = (σ.nif.tx k).cur
    · rw [hc, hidxcur, hbottom, bufIdx_eq hidx.1]
      exact Or.inr hidx
    · exact Or.inl (hidxne c hc)
  · intro q hq
    obtain rfl := Option.some.inj hq
    exact isBuffer_slotBuffer (h.rings.shared.tx k) (h.slots (.tx k _) ⟨hk, hcurlt⟩)
  · have hold := h.tx j hj
    dsimp only
    rw [packetsOf_append]
    by_cases hjk : j = k
    · subst hjk
      rw [NetmapIf.setTx_tx_self, packetsOf_self, List.length_append, List.length_singleton]
      exact hold.push hspace hshape.numSlots hcur hhead htail
    · rw [NetmapIf.setTx_tx_of_ne hjk, packetsOf_of_ne (Ne.symm hjk), List.append_nil]
      exact hold
  · have hold := h.tx_slots j hj
    dsimp only
    by_cases hjk : j = k
    · subst hjk
      rw [NetmapIf.setTx_tx_self, hshape.numSlots, hold]
    · rw [NetmapIf.setTx_tx_of_ne hjk, hold]
  · rcases List.mem_append.mp hq with hq | hq
    · exact h.committed q hq
    · obtain rfl := List.mem_singleton.mp hq
      exact hrange

theorem receive_shape {card : Card} {nif nif' : NetmapIf} {packet : List UInt8} {flags : Nat}
    (h : receive card nif i packet flags = some nif') :
    ∃ ring mem, nif' = { nif.setRx i ring with mem := mem } ∧ (nif.rx i).SameShape ring ∧
      ring.cur = (nif.rx i).cur ∧ ∀ c, (ring.slot c).bufIdx = ((nif.rx i).slot c).bufIdx := by
  rw [receive] at h
  split at h
  next =>
    obtain rfl := Option.some.inj h
    refine ⟨_, _, rfl, ⟨rfl, rfl, rfl⟩, rfl, fun c => ?_⟩
    by_cases hc : c = (nif.rx i).tail
    · simp [hc]
    · simp [NetmapRing.setSlot_slot_of_ne hc]
  next => simp at h

theorem Stalled.of_receive {packet : List UInt8} {flags : Nat} {nif : NetmapIf}
    {arrived : Nat → List (List UInt8)} (h : Stalled m base txSlots os σ)
    (hreceive : receive σ.card σ.nif i packet flags = some nif) :
    Stalled m base txSlots os { σ with nif := nif, arrived := arrived } := by
  obtain ⟨ring, mem, rfl, hshape, hcur, hidx⟩ := receive_shape hreceive
  have hcurlt : ring.cur < ring.numSlots := by
    rw [hcur, hshape.numSlots]
    exact h.rings.rx_cur i
  have hrings := h.rings.setRx hshape hcurlt
  exact { h with
    rings := ⟨⟨hrings.shared.tx, hrings.shared.rx⟩, hrings.tx_cur, hrings.rx_cur⟩
    slots := h.slots.setRx hshape.numSlots fun c => Or.inl (hidx c) }

theorem Stalled.of_reclaim {nif : NetmapIf} (h : Stalled m base txSlots os σ)
    (hreclaim : reclaim σ.card σ.nif j = some nif) :
    Stalled m base txSlots os { σ with nif := nif } := by
  obtain ⟨hj, hroom, rfl⟩ := reclaim_spec hreclaim
  refine { h with
    rings := h.rings.setTx ⟨rfl, rfl, rfl⟩ (h.rings.tx_cur j)
    slots := h.slots.setTx rfl fun c => Or.inl rfl
    tx := fun k hk => ?_
    tx_slots := fun k hk => ?_ }
  · by_cases hkj : k = j
    · subst hkj
      simp only [NetmapIf.setTx_tx_self]
      exact (h.tx k hk).grow hroom
    · simp only [NetmapIf.setTx_tx_of_ne hkj]
      exact h.tx k hk
  · by_cases hkj : k = j
    · subst hkj
      simp only [NetmapIf.setTx_tx_self]
      exact h.tx_slots k hk
    · simp only [NetmapIf.setTx_tx_of_ne hkj]
      exact h.tx_slots k hk

/-- Every step but `start_write` keeps the invariant; the device finds nothing to send. -/
theorem Stalled.step {e : BridgeEvent} (h : Stalled m base txSlots os σ) (he : e ≠ .startWrite)
    (hstep : bridgeStep σ e = some σ') : Stalled m base txSlots os σ' := by
  cases e with
  | ready =>
      obtain ⟨-, rfl⟩ := bridgeStep_ready hstep
      exact h.istream (ready_cases ..) h.stage
  | startRead =>
      obtain ⟨-, p, size, s, hread, rfl⟩ := bridgeStep_startRead hstep
      have hread' := @Stalled.istream _ _ _ _ _ s (.started p) h (startRead_cases hread).2
        (h.startRead hread)
      exact { hread' with }
  | assignWrite =>
      obtain ⟨p, hstage, rfl⟩ := bridgeStep_assignWrite hstep
      have hbuffer : StageBuffers m base σ.ostream (.started p) := hstage ▸ h.stage
      exact { h with
        tx_range := h.tx_range, stage := ⟨rfl, hbuffer⟩
        ostream := ⟨h.ostream.bottom, h.ostream.nmMem, h.ostream.memSize⟩ }
  | startWrite => exact absurd rfl he
  | copy =>
      obtain ⟨p, buffer, hstage, -⟩ := bridgeStep_copy hstep
      have hnever : StageBuffers m base σ.ostream (.granted p buffer) := hstage ▸ h.stage
      exact hnever.elim
  | endWrite =>
      obtain ⟨⟨p, hstage⟩ | ⟨p, buffer, hstage⟩, free, s, nif, hwrite, rfl⟩ :=
        bridgeStep_endWrite hstep
      · exact h.endWrite hstage hwrite
      · have hnever : StageBuffers m base σ.ostream (.filled p buffer) := hstage ▸ h.stage
        exact hnever.elim
  | endRead =>
      obtain ⟨free, hstage, r, s, nif, hend, rfl⟩ := bridgeStep_endRead hstep
      have hfree : StageBuffers m base σ.ostream (.written free) := hstage ▸ h.stage
      obtain ⟨rfl, htx, hrings, hslots⟩ := endRead_slots h.rings h.slots h.istream_bottom hfree hend
      refine { h with
        rings := hrings, slots := hslots, rx_end := h.rx_end
        istream_bottom := h.istream_bottom, packet := fun p hp => ?_, stage := trivial
        tx := fun j hj => ?_, tx_slots := fun j hj => ?_ }
      · simp at hp
      · dsimp only
        rw [htx]
        exact h.tx j hj
      · dsimp only
        rw [htx]
        exact h.tx_slots j hj
  | receive i packet flags =>
      obtain ⟨nif, hreceive, rfl⟩ := Option.map_eq_some_iff.mp hstep
      exact h.of_receive hreceive
  | transmit j flags =>
      obtain ⟨⟨card, nif⟩, htransmit, rfl⟩ := Option.map_eq_some_iff.mp hstep
      obtain ⟨hj, hne, -, -⟩ := transmit_spec htransmit
      -- `hwcur` is at `head`: there is nothing to send
      exact absurd (h.tx j hj).head.symm hne
  | reclaim j =>
      obtain ⟨nif, hreclaim, rfl⟩ := Option.map_eq_some_iff.mp hstep
      exact h.of_reclaim hreclaim

end Steps

/-! ## Runs -/

section Runs

variable {m : Mapping} {base txSlots : Nat} {is : IstreamNetmap} {os : OstreamNetmap}
  {nif : NetmapIf} {σ : Bridge}

theorem inMapping_of {idx : Nat} (hsize : m.memSize < 2 ^ 32) (hbottom : m.nmMem ≤ base)
    (hinside : base + (idx + 1) * 2048 ≤ m.nmMem + m.memSize) : InMapping m base idx := by
  have hle : idx * 2048 ≤ (idx + 1) * 2048 := Nat.mul_le_mul_right _ (Nat.le_succ idx)
  exact ⟨by omega, Nat.le_trans (Nat.add_le_add_left hle base) hinside⟩

/-- With all packets sent and no slot given out, none is hidden. -/
theorem hidden_start {r : NetmapRing} (h : TxQueue r r.head) : Hidden r r.head 0 where
  head := rfl
  head_lt := h.head_lt
  tail_lt := h.tail_lt
  cur_lt := h.cur ▸ h.head_lt
  cur_le := by simp [h.cur]
  count := by simp [h.cur]

theorem stalled_start {idescr odescr : CamioDescr} {ilocal olocal : Bool}
    (histream : camioIstreamNetmapOpen camioIstreamNetmapConstruct idescr (.ok m) ilocal nif
      = .ok is)
    (hostream : camioOstreamNetmapOpen camioOstreamNetmapConstruct odescr (.ok m) olocal txSlots
      nif = .ok os)
    (hrings : Interchangeable base nif) (hmapped : Mapped m base nif)
    (htx : ∀ j < m.nmTxRings + 1, TxQueue (nif.tx j) (nif.tx j).head)
    (hslots : ∀ j < m.nmTxRings + 1, (nif.tx j).numSlots = txSlots) :
    Stalled m base txSlots os (bridgeStart m m is os nif) := by
  obtain ⟨m1, hm, rfl⟩ := istreamOpen_spec histream
  obtain ⟨m2, hm', rfl⟩ := ostreamOpen_spec hostream
  obtain rfl := Except.ok.inj hm
  obtain rfl := Except.ok.inj hm'
  refine {
    rings := hrings
    slots := fun p hp => ?_
    rx_end := ?_
    tx_end := ?_
    tx_range := ⟨rfl, rfl⟩
    istream_bottom := (hrings.shared.rx _).1
    ostream := ⟨(hrings.shared.tx _).1, rfl, rfl⟩
    packet := fun p hp => ?_
    stage := trivial
    tx := fun j hj => hidden_start (htx j hj)
    tx_slots := hslots
    sent := fun j => rfl
    committed := fun p hp => ?_ }
  -- the slots of all rings are among those whose buffers are in the mapping
  · have hmem : p ∈ slotPositions m nif := by
      cases p with
      | tx j c => exact mem_slotPositions_tx.mpr hp
      | rx i c => exact mem_slotPositions_rx.mpr hp
    have hinside := hmapped.inside _ (mem_bufIdxs hmem)
    have hsize := hmapped.size
    have hbottom := hmapped.bottom
    exact inMapping_of hsize hbottom hinside
  · dsimp only [bridgeStart]
    split <;> omega
  · dsimp only
    split <;> simp [bridgeStart]
  · simp [bridgeStart, camioIstreamNetmapConstruct] at hp
  · simp [bridgeStart] at hp

/-- In every run of a program that assigns all of its packets, on the memory of one device, the
    device never sends a packet, and no more packets are ever put into the tx rings than they
    have slots to begin with, one of each ring staying free. -/
theorem zero_copy_sends_nothing {idescr odescr : CamioDescr} {ilocal olocal : Bool}
    {es : List BridgeEvent}
    (histream : camioIstreamNetmapOpen camioIstreamNetmapConstruct idescr (.ok m) ilocal nif
      = .ok is)
    (hostream : camioOstreamNetmapOpen camioOstreamNetmapConstruct odescr (.ok m) olocal txSlots
      nif = .ok os)
    (hrings : Interchangeable base nif) (hmapped : Mapped m base nif)
    (htx : ∀ j < m.nmTxRings + 1, TxQueue (nif.tx j) (nif.tx j).head)
    (hslots : ∀ j < m.nmTxRings + 1, (nif.tx j).numSlots = txSlots)
    (hassigns : .startWrite ∉ es)
    (hrun : run bridgeStep (bridgeStart m m is os nif) es = some σ) :
    (∀ j, σ.card.sent j = []) ∧
      σ.committed.length ≤ (os.ringEnd - os.ringBegin) * (txSlots - 1) := by
  have halong : Along bridgeStep (fun _ e => e ≠ .startWrite) (bridgeStart m m is os nif) es :=
    along_of_forall fun _ _ he => ne_of_mem_of_not_mem he hassigns
  have h := run_invariant_along (Stalled m base txSlots os) (fun _ _ _ h he => h.step he)
    (stalled_start histream hostream hrings hmapped htx hslots) halong hrun
  refine ⟨h.sent, @length_le_of_packetsOf _ os.ringBegin _ _ (fun p hp => ?_) fun j hj hlt => ?_⟩
  · have hrange := h.committed p hp
    omega
  · have hjlt : j < σ.card.txRings := Nat.lt_of_lt_of_le (by omega) h.tx_end
    have hring := h.tx j hjlt
    have hlt := steps_lt hring.head_lt hring.cur_lt
    rw [hring.count, h.tx_slots j hjlt] at hlt
    omega

end Runs

/-- A packet is forwarded. -/
def demoRound : List BridgeEvent := [.ready, .startRead, .assignWrite, .endWrite, .endRead]

/-- Three packets fill the tx ring. -/
theorem demoRounds_committed :
    ∃ σ, run bridgeStep (bridgeStart ⟨0, 65536, 1, 1⟩ ⟨0, 65536, 1, 1⟩ demoIstream demoOstream
        demoNif) (demoRound ++ demoRound ++ demoRound) = some σ ∧ σ.committed.length = 3 :=
  ⟨_, rfl, rfl⟩

theorem zero_copy_sends_nothing_demo :
    ∃ σ, run bridgeStep (bridgeStart ⟨0, 65536, 1, 1⟩ ⟨0, 65536, 1, 1⟩ demoIstream demoOstream
        demoNif) (demoRound ++ demoRound ++ demoRound) = some σ ∧ σ.committed.length = 3 ∧
      (∀ j, σ.card.sent j = []) ∧
        σ.committed.length ≤ (demoOstream.ringEnd - demoOstream.ringBegin) * (4 - 1) := by
  obtain ⟨σ, hrun, hlength⟩ := demoRounds_committed
  have htx : ∀ j < 1 + 1, TxQueue (demoNif.tx j) (demoNif.tx j).head := fun j _ =>
    ⟨Nat.succ_pos 3, Nat.succ_pos 3, Nat.lt_succ_self 3, rfl, Nat.zero_le _⟩
  exact ⟨σ, hrun, hlength, zero_copy_sends_nothing demoIstream_opened demoOstream_opened
    demoNif_interchangeable demoNif_mapped htx (fun _ _ => rfl) (by simp [demoRound]) hrun⟩

end Camio.Netmap
