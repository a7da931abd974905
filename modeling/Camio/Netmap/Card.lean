/-
  Camio.Netmap.Card

  The device behind the rings, as `netmap.h` describes what the kernel does with them.

  An arriving packet goes into the slot at the `tail` of an rx ring; one slot always stays
  free.  On a tx ring the device has a position of its own: it sends the slots from there
  up to `head`, and moves `tail` on over slots that it has sent.
-/

import Camio.Lib.Window
import Camio.Netmap.Ring

namespace Camio.Netmap

open Camio.Lib

/-- The address of the buffer in slot `c`. -/
def slotBuffer (r : NetmapRing) (c : Nat) : Nat := netmapBuf r (r.slot c).bufIdx

/-- The packet in slot `c`. -/
def slotBytes (mem : Mem) (r : NetmapRing) (c : Nat) : List UInt8 :=
  mem.read (slotBuffer r c) (r.slot c).len

/-- The packets in the slots from `head` to `tail`. -/
def packetsIn (mem : Mem) (r : NetmapRing) (head tail : Nat) : List (List UInt8) :=
  (window r.numSlots head tail).map (slotBytes mem r)

/-- How many rings there are; and for each tx ring, the slot that the device sends next and
    what it has sent. -/
structure Card where
  rxRings : Nat
  txRings : Nat
  hwcur : Nat → Nat
  sent : Nat → List (List UInt8)

/-- A packet arrives in rx ring `i`.  No packet is empty, and none is longer than a
    buffer. -/
def receive (card : Card) (nif : NetmapIf) (i : Nat) (packet : List UInt8) (flags : Nat) :
    Option NetmapIf :=
  let ring := nif.rx i
  if i < card.rxRings ∧ packet ≠ [] ∧ packet.length ≤ 2048 ∧
      nmRingNext ring ring.tail ≠ ring.head then
    let slot := ring.slot ring.tail
    let filled := ring.setSlot ring.tail ⟨slot.bufIdx, packet.length, flags⟩
    some { nif.setRx i { filled with tail := nmRingNext ring ring.tail } with
      mem := nif.mem.write (slotBuffer ring ring.tail) packet }
  else none

/-- The device sends the next packet of tx ring `j`. -/
def transmit (card : Card) (nif : NetmapIf) (j flags : Nat) : Option (Card × NetmapIf) :=
  let ring := nif.tx j
  let c := card.hwcur j
  if j < card.txRings ∧ c ≠ ring.head then
    some ({ card with
        hwcur := Function.update card.hwcur j (nmRingNext ring c)
        sent := Function.update card.sent j (card.sent j ++ [slotBytes nif.mem ring c]) },
      nif.setTx j (ring.setSlot c { ring.slot c with flags := flags }))
  else none

/-- The device gives a slot of tx ring `j` back that it has sent. -/
def reclaim (card : Card) (nif : NetmapIf) (j : Nat) : Option NetmapIf :=
  let ring := nif.tx j
  if j < card.txRings ∧ nmRingNext ring ring.tail ≠ card.hwcur j then
    some (nif.setTx j { ring with tail := nmRingNext ring ring.tail })
  else none

/-- An rx ring of which the program has returned all that it has passed. -/
structure RxQueue (r : NetmapRing) : Prop where
  head_lt : r.head < r.numSlots
  tail_lt : r.tail < r.numSlots
  cur : r.cur = r.head

/-- A tx ring of which the program shows the device all that it has written; the device has
    come from its `tail` to `hwcur`. -/
structure TxQueue (r : NetmapRing) (hwcur : Nat) : Prop where
  hwcur_lt : hwcur < r.numSlots
  head_lt : r.head < r.numSlots
  tail_lt : r.tail < r.numSlots
  cur : r.cur = r.head
  order : steps r.numSlots hwcur r.head ≤ steps r.numSlots hwcur r.tail

/-! ## Slots and packets -/

section Slots

variable {r r' : NetmapRing} {mem : Mem} {c : Nat}

/-- A write to the buffer of another slot leaves the packet of this one. -/
theorem slotBytes_write {a : Nat} {bytes : List UInt8}
    (hsep : a + 2048 ≤ slotBuffer r c ∨ slotBuffer r c + 2048 ≤ a) (hlen : (r.slot c).len ≤ 2048)
    (hbytes : bytes.length ≤ 2048) :
    slotBytes (mem.write a bytes) r c = slotBytes mem r c :=
  Mem.read_write_disjoint (by omega)

/-- A packet is that of its buffer and length. -/
theorem slotBytes_congr (hbuffer : slotBuffer r' c = slotBuffer r c)
    (hlen : (r'.slot c).len = (r.slot c).len) : slotBytes mem r' c = slotBytes mem r c := by
  rw [slotBytes, hbuffer, hlen, slotBytes]

/-- A slot that gets the same buffer. -/
theorem slotBuffer_setSlot (d : Nat) {slot : NetmapSlot}
    (h : slot.bufIdx = (r.slot c).bufIdx) : slotBuffer (r.setSlot c slot) d = slotBuffer r d := by
  -- only the index of the slot's buffer counts
  by_cases hd : d = c
  · subst hd
    simp only [slotBuffer, NetmapRing.setSlot_slot_self, h]
    rfl
  · simp only [slotBuffer, NetmapRing.setSlot_slot_of_ne hd]
    rfl

end Slots

/-! ## What the device does -/

section Device

variable {nif nif' : NetmapIf} {card card' : Card} {i j flags : Nat} {packet : List UInt8}

/-- A packet has arrived in ring `i`, in the slot that was its tail. -/
structure Received (nif : NetmapIf) (i : Nat) (packet : List UInt8) (nif' : NetmapIf)
    (ring : NetmapRing) : Prop where
  nif_eq : nif' = { nif.setRx i ring with
    mem := nif.mem.write (slotBuffer (nif.rx i) (nif.rx i).tail) packet }
  numSlots : ring.numSlots = (nif.rx i).numSlots
  cur : ring.cur = (nif.rx i).cur
  head : ring.head = (nif.rx i).head
  tail : ring.tail = nmRingNext (nif.rx i) (nif.rx i).tail
  buffer : ∀ c, slotBuffer ring c = slotBuffer (nif.rx i) c
  len_tail : (ring.slot (nif.rx i).tail).len = packet.length
  len_ne : ∀ c ≠ (nif.rx i).tail, (ring.slot c).len = ((nif.rx i).slot c).len

theorem receive_spec (h : receive card nif i packet flags = some nif') :
    i < card.rxRings ∧ packet ≠ [] ∧ packet.length ≤ 2048 ∧
      nmRingNext (nif.rx i) (nif.rx i).tail ≠ (nif.rx i).head ∧
      ∃ ring, Received nif i packet nif' ring := by
  rw [receive] at h
  split at h
  next hok =>
    obtain ⟨hi, hne, hlen, hroom⟩ := hok
    obtain rfl := Option.some.inj h
    have hbuffer := fun c => @slotBuffer_setSlot (nif.rx i) (nif.rx i).tail c
      ⟨((nif.rx i).slot (nif.rx i).tail).bufIdx, packet.length, flags⟩ rfl
    refine ⟨hi, hne, hlen, hroom, _, ⟨rfl, rfl, rfl, rfl, rfl, hbuffer, ?_, fun c hc => ?_⟩⟩
    · simp
    · simp [NetmapRing.setSlot_slot_of_ne hc]
  next => simp at h

theorem transmit_spec (h : transmit card nif j flags = some (card', nif')) :
    j < card.txRings ∧ card.hwcur j ≠ (nif.tx j).head ∧
      card' = { card with
        hwcur := Function.update card.hwcur j (nmRingNext (nif.tx j) (card.hwcur j))
        sent := Function.update card.sent j
          (card.sent j ++ [slotBytes nif.mem (nif.tx j) (card.hwcur j)]) } ∧
      nif' = nif.setTx j ((nif.tx j).setSlot (card.hwcur j)
        { (nif.tx j).slot (card.hwcur j) with flags := flags }) := by
  rw [transmit] at h
  split at h
  next hok =>
    obtain ⟨rfl, rfl⟩ := Prod.mk.inj (Option.some.inj h)
    exact ⟨hok.1, hok.2, rfl, rfl⟩
  next => simp at h

theorem reclaim_spec (h : reclaim card nif j = some nif') :
    j < card.txRings ∧ nmRingNext (nif.tx j) (nif.tx j).tail ≠ card.hwcur j ∧
      nif' = nif.setTx j { nif.tx j with tail := nmRingNext (nif.tx j) (nif.tx j).tail } := by
  rw [reclaim] at h
  split at h
  next hok => exact ⟨hok.1, hok.2, (Option.some.inj h).symm⟩
  next => simp at h

end Device

/-! ## Packets in a row -/

section Rows

variable {r r' : NetmapRing} {mem mem' : Mem} {head tail : Nat} {packet : List UInt8}

theorem packetsIn_congr (hslots : r'.numSlots = r.numSlots) (hh : head < r.numSlots)
    (ht : tail < r.numSlots)
    (h : ∀ c < r.numSlots, InWindow r.numSlots head tail c →
      slotBytes mem' r' c = slotBytes mem r c) :
    packetsIn mem' r' head tail = packetsIn mem r head tail := by
  rw [packetsIn, hslots]
  exact window_map_congr hh ht h

/-- A packet stored at the tail comes last. -/
theorem packetsIn_push (hslots : r'.numSlots = r.numSlots) (hh : head < r.numSlots)
    (ht : tail < r.numSlots) (hroom : nmRingNext r tail ≠ head)
    (hpacket : slotBytes mem' r' tail = packet)
    (h : ∀ c < r.numSlots, InWindow r.numSlots head tail c →
      slotBytes mem' r' c = slotBytes mem r c) :
    packetsIn mem' r' head (nmRingNext r tail) = packetsIn mem r head tail ++ [packet] := by
  rw [packetsIn, hslots]
  exact window_map_push hh ht hroom hpacket h

/-- The packet at the head comes first. -/
theorem packetsIn_pop (hh : head < r.numSlots) (ht : tail < r.numSlots) (hne : head ≠ tail) :
    packetsIn mem r head tail
      = slotBytes mem r head :: packetsIn mem r (nmRingNext r head) tail :=
  window_map_pop hh ht hne

@[simp] theorem packetsIn_self (mem : Mem) (r : NetmapRing) (c : Nat) :
    packetsIn mem r c c = [] := by simp [packetsIn]

end Rows

/-! ## The queues -/

section Queues

variable {r : NetmapRing} {hwcur : Nat}

theorem RxQueue.cur_lt (h : RxQueue r) : r.cur < r.numSlots := h.cur ▸ h.head_lt

theorem TxQueue.valid (h : TxQueue r hwcur) : r.Valid where
  head := h.head_lt
  cur := h.cur ▸ h.head_lt
  tail := h.tail_lt
  cur_le := by
    rw [h.cur, steps_self]
    exact Nat.zero_le _

/-- A ring with space for a packet keeps a slot between it and what has not been sent. -/
theorem TxQueue.room (h : TxQueue r hwcur) (hspace : r.cur ≠ r.tail) :
    nextSlot r.numSlots r.head ≠ hwcur := by
  obtain ⟨hhw, hhead, htail, hcur, horder⟩ := h
  rw [hcur] at hspace
  simp only [steps, nextSlot] at horder ⊢
  split_ifs at horder ⊢ <;> omega

/-- Writing a packet keeps the order. -/
theorem TxQueue.push {r' : NetmapRing} (h : TxQueue r hwcur) (hspace : r.cur ≠ r.tail)
    (hslots : r'.numSlots = r.numSlots) (hcur : r'.cur = nmRingNext r r.cur)
    (hhead : r'.head = nmRingNext r r.cur) (htail : r'.tail = r.tail) : TxQueue r' hwcur := by
  have hroom := h.room hspace
  have hstep := steps_push h.hwcur_lt hroom
  -- with space, `head` has not come to the tail
  have hpos : steps r.numSlots hwcur r.head ≠ steps r.numSlots hwcur r.tail := by
    have hne := h.cur ▸ hspace
    have hhw := h.hwcur_lt
    have hlt := h.head_lt
    have htlt := h.tail_lt
    simp only [steps]
    split_ifs <;> omega
  have horder := h.order
  rw [nmRingNext, h.cur] at hcur hhead
  refine ⟨?_, ?_, ?_, hcur.trans hhead.symm, ?_⟩
  · rw [hslots]
    exact h.hwcur_lt
  · rw [hhead, hslots]
    exact nextSlot_lt h.head_lt
  · rw [htail, hslots]
    exact h.tail_lt
  · rw [hhead, htail, hslots, hstep]
    omega

/-- So does the device's sending one. -/
theorem TxQueue.pop (h : TxQueue r hwcur) (hne : hwcur ≠ r.head) :
    TxQueue r (nmRingNext r hwcur) := by
  have hhead := steps_nextSlot h.hwcur_lt h.head_lt hne
  -- the device has not come to its tail either, since `head` lies between
  have htail : hwcur ≠ r.tail := by
    rintro rfl
    have horder := h.order
    rw [steps_self] at horder
    omega
  have hstep := steps_nextSlot h.hwcur_lt h.tail_lt htail
  have horder := h.order
  refine ⟨nextSlot_lt h.hwcur_lt, h.head_lt, h.tail_lt, h.cur, ?_⟩
  rw [nmRingNext]
  omega

/-- And its giving a slot back. -/
theorem TxQueue.grow (h : TxQueue r hwcur) (hroom : nmRingNext r r.tail ≠ hwcur) :
    TxQueue { r with tail := nmRingNext r r.tail } hwcur := by
  have hstep := steps_push h.hwcur_lt hroom
  have horder := h.order
  refine ⟨h.hwcur_lt, h.head_lt, nextSlot_lt h.tail_lt, h.cur, ?_⟩
  show steps r.numSlots hwcur r.head ≤ steps r.numSlots hwcur (nextSlot r.numSlots r.tail)
  omega

/-- With a slot back there is space. -/
theorem TxQueue.grow_space (h : TxQueue r hwcur) (hroom : nmRingNext r r.tail ≠ hwcur) :
    0 < nmRingSpace { r with tail := nmRingNext r r.tail } := by
  refine (h.grow hroom).valid.space_pos_iff.mpr fun hcur => ?_
  have hstep := steps_push h.hwcur_lt hroom
  have horder := h.order
  have hhead : r.head = nextSlot r.numSlots r.tail := h.cur.symm.trans hcur
  rw [hhead] at horder
  omega

/-- A slot's flags are of no account. -/
theorem TxQueue.setSlot (h : TxQueue r hwcur) (c : Nat) (slot : NetmapSlot) :
    TxQueue (r.setSlot c slot) hwcur := ⟨h.hwcur_lt, h.head_lt, h.tail_lt, h.cur, h.order⟩

end Queues

end Camio.Netmap
