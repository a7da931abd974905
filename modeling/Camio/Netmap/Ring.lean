/-
  Camio.Netmap.Ring

  `netmap.h` and `netmap_user.h`: rings of slots in the memory that a netmap device maps.
  A slot names a packet buffer by its index.  The slots from `head` to `tail` belong to
  the program, which has used those up to `cur`; the others belong to the kernel.
-/

import Mathlib.Algebra.Group.Int.Defs
import Mathlib.Logic.Function.Basic
import Camio.Lib.ByteMem
import Camio.Lib.Circular

namespace Camio.Netmap

open Camio.Lib

/-- `struct netmap_slot`. -/
structure NetmapSlot where
  bufIdx : Nat
  len : Nat
  flags : Nat
deriving DecidableEq

/-- `NS_BUF_CHANGED` -/
def nsBufChanged : Nat := 0x0001

/-- `NS_REPORT` -/
def nsReport : Nat := 0x0002

/-- `struct netmap_ring`.  `bufs` is the address of the first buffer, `ring + buf_ofs`. -/
structure NetmapRing where
  bufs : Nat
  numSlots : Nat
  nrBufSize : Nat
  head : Nat
  cur : Nat
  tail : Nat
  slot : Nat → NetmapSlot

/-- `struct netmap_if`: the tx and the rx rings, with the memory that their buffers lie
    in. -/
structure NetmapIf where
  tx : Nat → NetmapRing
  rx : Nat → NetmapRing
  mem : Mem

/-- What the parameters or the registration of the device say about the mapped memory:
    its address and size, and the numbers of hardware rings. -/
structure Mapping where
  nmMem : Nat
  memSize : Nat
  nmTxRings : Nat
  nmRxRings : Nat

/-- `NETMAP_BUF`; the product is one of two `uint32_t`. -/
def netmapBuf (ring : NetmapRing) (index : Nat) : Nat :=
  ring.bufs + index * ring.nrBufSize % 2 ^ 32

/-- `nm_ring_next`. -/
def nmRingNext (r : NetmapRing) (i : Nat) : Nat := nextSlot r.numSlots i

/-- `nm_ring_space`.  The indices of slots fit an `int`. -/
def nmRingSpace (r : NetmapRing) : Nat :=
  let ret : Int := r.tail - r.cur
  (if ret < 0 then ret + r.numSlots else ret).toNat

/-- `nm_ring_empty`. -/
def nmRingEmpty (r : NetmapRing) : Bool := r.cur = r.tail

/-- A write to the fields of slot `i`. -/
def NetmapRing.setSlot (r : NetmapRing) (i : Nat) (slot : NetmapSlot) : NetmapRing :=
  { r with slot := Function.update r.slot i slot }

/-- A write to tx ring `i`. -/
def NetmapIf.setTx (nif : NetmapIf) (i : Nat) (r : NetmapRing) : NetmapIf :=
  { nif with tx := Function.update nif.tx i r }

/-- A write to rx ring `i`. -/
def NetmapIf.setRx (nif : NetmapIf) (i : Nat) (r : NetmapRing) : NetmapIf :=
  { nif with rx := Function.update nif.rx i r }

section Updates

variable {i j : Nat}

@[simp] theorem NetmapRing.setSlot_slot_self (r : NetmapRing) (i : Nat) (slot : NetmapSlot) :
    (r.setSlot i slot).slot i = slot := Function.update_self ..

theorem NetmapRing.setSlot_slot_of_ne (h : j ≠ i) (r : NetmapRing) (slot : NetmapSlot) :
    (r.setSlot i slot).slot j = r.slot j := Function.update_of_ne h ..

@[simp] theorem NetmapIf.setTx_tx_self (nif : NetmapIf) (i : Nat) (r : NetmapRing) :
    (nif.setTx i r).tx i = r := Function.update_self ..

theorem NetmapIf.setTx_tx_of_ne (h : j ≠ i) (nif : NetmapIf) (r : NetmapRing) :
    (nif.setTx i r).tx j = nif.tx j := Function.update_of_ne h ..

@[simp] theorem NetmapIf.setRx_rx_self (nif : NetmapIf) (i : Nat) (r : NetmapRing) :
    (nif.setRx i r).rx i = r := Function.update_self ..

theorem NetmapIf.setRx_rx_of_ne (h : j ≠ i) (nif : NetmapIf) (r : NetmapRing) :
    (nif.setRx i r).rx j = nif.rx j := Function.update_of_ne h ..

@[simp] theorem NetmapIf.setRx_setRx (nif : NetmapIf) (i : Nat) (r r' : NetmapRing) :
    (nif.setRx i r).setRx i r' = nif.setRx i r' := by
  simp only [NetmapIf.setRx, Function.update_idem]

end Updates

/-- The three indices are those of slots, and `cur` is none of the kernel's. -/
structure NetmapRing.Valid (r : NetmapRing) : Prop where
  head : r.head < r.numSlots
  cur : r.cur < r.numSlots
  tail : r.tail < r.numSlots
  cur_le : steps r.numSlots r.head r.cur ≤ steps r.numSlots r.head r.tail

/-- The slot belongs to the program. -/
def NetmapRing.Owned (r : NetmapRing) (slot : Nat) : Prop :=
  InWindow r.numSlots r.head r.tail slot

/-- "All packet buffers are interchangeable": the rings share one array of buffers of
    2048 bytes, at this address. -/
structure NetmapIf.SharedBase (nif : NetmapIf) (base : Nat) : Prop where
  tx : ∀ i, (nif.tx i).bufs = base ∧ (nif.tx i).nrBufSize = 2048
  rx : ∀ i, (nif.rx i).bufs = base ∧ (nif.rx i).nrBufSize = 2048

section Rings

variable {r : NetmapRing}

theorem NetmapRing.Valid.space_pos_iff (h : r.Valid) : 0 < nmRingSpace r ↔ r.cur ≠ r.tail := by
  have hcur := h.cur
  have htail := h.tail
  simp only [nmRingSpace]
  split <;> omega

/-- With space, slot `cur` belongs to the program. -/
theorem NetmapRing.Valid.owned_cur (h : r.Valid) (hspace : r.cur ≠ r.tail) : r.Owned r.cur :=
  inWindow_of_later h.head h.cur h.tail h.cur_le h.cur (inWindow_head h.cur hspace)

end Rings

/-- A device with rings of four slots, with buffers of 2048 bytes from address 4096 on; the
    program has three slots of each. -/
def demoNif : NetmapIf :=
  { tx := fun i => ⟨4096, 4, 2048, 0, 0, 3, fun c => ⟨4 * i + c, 0, 0⟩⟩
    rx := fun i => ⟨4096, 4, 2048, 0, 0, 3, fun c => ⟨8 + 4 * i + c, 60, 0⟩⟩
    mem := fun x => UInt8.ofNat x }

theorem demoNif_valid (i : Nat) : (demoNif.tx i).Valid :=
  ⟨Nat.succ_pos 3, Nat.succ_pos 3, Nat.lt_succ_self 3, Nat.zero_le _⟩

end Camio.Netmap
