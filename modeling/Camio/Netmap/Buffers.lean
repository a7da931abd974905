/-
  Camio.Netmap.Buffers

  The buffer indices in all slots of a device, and what writes to the rings do to them.
-/

import Camio.Lib.Exchange
import Camio.Netmap.Ring

namespace Camio.Netmap

open Camio.Lib

/-- Where a slot is: in a tx or an rx ring, by ring and index. -/
inductive SlotPos where
  | tx (ring slot : Nat)
  | rx (ring slot : Nat)
deriving DecidableEq

/-- The slot at a place. -/
def NetmapIf.slotAt (nif : NetmapIf) : SlotPos → NetmapSlot
  | .tx i c => (nif.tx i).slot c
  | .rx i c => (nif.rx i).slot c

/-- All slots of the device, those of the rings to and from the host with them. -/
def slotPositions (m : Mapping) (nif : NetmapIf) : List SlotPos :=
  ((List.range (m.nmTxRings + 1)).flatMap fun i =>
    (List.range (nif.tx i).numSlots).map (.tx i)) ++
  (List.range (m.nmRxRings + 1)).flatMap fun i => (List.range (nif.rx i).numSlots).map (.rx i)

/-- The `buf_idx` values over all slots. -/
def bufIdxs (m : Mapping) (nif : NetmapIf) : List Nat :=
  (slotPositions m nif).map fun p => (nif.slotAt p).bufIdx

/-- A ring has the same buffers and the same number of slots. -/
structure NetmapRing.SameShape (r r' : NetmapRing) : Prop where
  bufs : r'.bufs = r.bufs
  nrBufSize : r'.nrBufSize = r.nrBufSize
  numSlots : r'.numSlots = r.numSlots

/-- All rings have. -/
structure NetmapIf.SameShape (nif nif' : NetmapIf) : Prop where
  tx : ∀ i, (nif.tx i).SameShape (nif'.tx i)
  rx : ∀ i, (nif.rx i).SameShape (nif'.rx i)

section Shapes

variable {nif nif' : NetmapIf} {i : Nat} {r : NetmapRing}

@[refl] theorem NetmapRing.SameShape.refl (r : NetmapRing) : r.SameShape r := ⟨rfl, rfl, rfl⟩

theorem sameShape_setTx (h : (nif.tx i).SameShape r) : nif.SameShape (nif.setTx i r) where
  tx := by
    intro j
    by_cases hj : j = i
    · subst hj
      rw [NetmapIf.setTx_tx_self]
      exact h
    · rw [NetmapIf.setTx_tx_of_ne hj]
  rx := fun j => .refl _

theorem sameShape_setRx (h : (nif.rx i).SameShape r) : nif.SameShape (nif.setRx i r) where
  tx := fun j => .refl _
  rx := by
    intro j
    by_cases hj : j = i
    · subst hj
      rw [NetmapIf.setRx_rx_self]
      exact h
    · rw [NetmapIf.setRx_rx_of_ne hj]

theorem NetmapIf.SharedBase.of_sameShape {base : Nat} (hbase : nif.SharedBase base)
    (h : nif.SameShape nif') : nif'.SharedBase base where
  tx := fun i => ⟨(h.tx i).bufs.trans (hbase.tx i).1, (h.tx i).nrBufSize.trans (hbase.tx i).2⟩
  rx := fun i => ⟨(h.rx i).bufs.trans (hbase.rx i).1, (h.rx i).nrBufSize.trans (hbase.rx i).2⟩

end Shapes

/-! ## All slots -/

section Slots

variable {m : Mapping} {nif nif' : NetmapIf}

theorem mem_slotPositions_tx {i c : Nat} :
    SlotPos.tx i c ∈ slotPositions m nif ↔ i < m.nmTxRings + 1 ∧ c < (nif.tx i).numSlots := by
  simp [slotPositions]

theorem mem_slotPositions_rx {i c : Nat} :
    SlotPos.rx i c ∈ slotPositions m nif ↔ i < m.nmRxRings + 1 ∧ c < (nif.rx i).numSlots := by
  simp [slotPositions]

/-- The slots of some rings, each once. -/
theorem nodup_ringSlots {pos : Nat → Nat → SlotPos} (n : Nat) (numSlots : Nat → Nat)
    (hinj : ∀ {i c j d}, pos i c = pos j d → i = j ∧ c = d) :
    ((List.range n).flatMap fun i => (List.range (numSlots i)).map (pos i)).Nodup := by
  rw [List.nodup_flatMap]
  constructor
  · intro i _
    exact List.nodup_range.map fun c d h => (hinj h).2
  · refine List.nodup_range.imp ?_
    intro i j hij p hi hj
    obtain ⟨c, -, rfl⟩ := List.mem_map.mp hi
    obtain ⟨d, -, hd⟩ := List.mem_map.mp hj
    exact hij (hinj hd).1.symm

theorem slotPositions_nodup (m : Mapping) (nif : NetmapIf) : (slotPositions m nif).Nodup := by
  refine List.Nodup.append (nodup_ringSlots _ _ ?_) (nodup_ringSlots _ _ ?_) ?_
  · intro i c j d h
    cases h
    exact ⟨rfl, rfl⟩
  · intro i c j d h
    cases h
    exact ⟨rfl, rfl⟩
  · intro p htx hrx
    obtain ⟨i, -, hi⟩ := List.mem_flatMap.mp htx
    obtain ⟨c, -, rfl⟩ := List.mem_map.mp hi
    obtain ⟨j, -, hj⟩ := List.mem_flatMap.mp hrx
    obtain ⟨d, -, hd⟩ := List.mem_map.mp hj
    cases hd

theorem slotPositions_congr (h : nif.SameShape nif') :
    slotPositions m nif' = slotPositions m nif := by
  simp only [slotPositions, (h.tx _).numSlots, (h.rx _).numSlots]

/-- Where no buffer index changes, they are the same over all slots. -/
theorem bufIdxs_congr (hshape : nif.SameShape nif')
    (h : ∀ p, (nif'.slotAt p).bufIdx = (nif.slotAt p).bufIdx) : bufIdxs m nif' = bufIdxs m nif := by
  simp only [bufIdxs, slotPositions_congr hshape, h]

/-- Where one changes, it is exchanged. -/
theorem bufIdxs_exchange {p : SlotPos} (hshape : nif.SameShape nif') (hp : p ∈ slotPositions m nif)
    (h : ∀ q ≠ p, (nif'.slotAt q).bufIdx = (nif.slotAt q).bufIdx) :
    ((nif.slotAt p).bufIdx :: bufIdxs m nif').Perm ((nif'.slotAt p).bufIdx :: bufIdxs m nif) := by
  rw [bufIdxs, slotPositions_congr hshape]
  exact exchange_perm (slotPositions_nodup m nif) hp fun q _ hq => h q hq

theorem mem_bufIdxs {p : SlotPos} (hp : p ∈ slotPositions m nif) :
    (nif.slotAt p).bufIdx ∈ bufIdxs m nif := List.mem_map_of_mem hp

end Slots

/-! ## Writes to one ring -/

section Rings

variable {m : Mapping} {nif : NetmapIf} {i c : Nat} {r : NetmapRing}

theorem slotAt_setTx {p : SlotPos}
    (h : ∀ c, p = .tx i c → (r.slot c).bufIdx = ((nif.tx i).slot c).bufIdx) :
    ((nif.setTx i r).slotAt p).bufIdx = (nif.slotAt p).bufIdx := by
  cases p with
  | rx j d => rfl
  | tx j d =>
      dsimp only [NetmapIf.slotAt]
      by_cases hj : j = i
      · subst hj
        rw [NetmapIf.setTx_tx_self]
        exact h d rfl
      · rw [NetmapIf.setTx_tx_of_ne hj]

theorem slotAt_setRx {p : SlotPos}
    (h : ∀ c, p = .rx i c → (r.slot c).bufIdx = ((nif.rx i).slot c).bufIdx) :
    ((nif.setRx i r).slotAt p).bufIdx = (nif.slotAt p).bufIdx := by
  cases p with
  | tx j d => rfl
  | rx j d =>
      dsimp only [NetmapIf.slotAt]
      by_cases hj : j = i
      · subst hj
        rw [NetmapIf.setRx_rx_self]
        exact h d rfl
      · rw [NetmapIf.setRx_rx_of_ne hj]

theorem bufIdxs_setTx (hshape : (nif.tx i).SameShape r)
    (h : ∀ c, (r.slot c).bufIdx = ((nif.tx i).slot c).bufIdx) :
    bufIdxs m (nif.setTx i r) = bufIdxs m nif :=
  bufIdxs_congr (sameShape_setTx hshape) fun _ => slotAt_setTx fun c _ => h c

theorem bufIdxs_setRx (hshape : (nif.rx i).SameShape r)
    (h : ∀ c, (r.slot c).bufIdx = ((nif.rx i).slot c).bufIdx) :
    bufIdxs m (nif.setRx i r) = bufIdxs m nif :=
  bufIdxs_congr (sameShape_setRx hshape) fun _ => slotAt_setRx fun c _ => h c

theorem bufIdxs_setTx_exchange (hshape : (nif.tx i).SameShape r)
    (hpos : SlotPos.tx i c ∈ slotPositions m nif)
    (h : ∀ d ≠ c, (r.slot d).bufIdx = ((nif.tx i).slot d).bufIdx) :
    (((nif.tx i).slot c).bufIdx :: bufIdxs m (nif.setTx i r)).Perm
      ((r.slot c).bufIdx :: bufIdxs m nif) := by
  have hexchange := bufIdxs_exchange (sameShape_setTx hshape) hpos fun q hq =>
    slotAt_setTx fun d hd => h d fun hdc => hq (hd.trans (hdc ▸ rfl))
  dsimp only [NetmapIf.slotAt] at hexchange
  rwa [NetmapIf.setTx_tx_self] at hexchange

theorem bufIdxs_setRx_exchange (hshape : (nif.rx i).SameShape r)
    (hpos : SlotPos.rx i c ∈ slotPositions m nif)
    (h : ∀ d ≠ c, (r.slot d).bufIdx = ((nif.rx i).slot d).bufIdx) :
    (((nif.rx i).slot c).bufIdx :: bufIdxs m (nif.setRx i r)).Perm
      ((r.slot c).bufIdx :: bufIdxs m nif) := by
  have hexchange := bufIdxs_exchange (sameShape_setRx hshape) hpos fun q hq =>
    slotAt_setRx fun d hd => h d fun hdc => hq (hd.trans (hdc ▸ rfl))
  dsimp only [NetmapIf.slotAt] at hexchange
  rwa [NetmapIf.setRx_rx_self] at hexchange

end Rings

/-! ## Addresses and indices -/

section Addresses

variable {base idx : Nat} {r : NetmapRing}

/-- The buffer at an index. -/
theorem netmapBuf_eq (hbase : r.bufs = base ∧ r.nrBufSize = 2048) (hidx : idx * 2048 < 2 ^ 32) :
    netmapBuf r idx = base + idx * 2048 := by
  rw [netmapBuf, hbase.1, hbase.2, Nat.mod_eq_of_lt hidx]

/-- The index that a stream computes from the address of a buffer. -/
theorem bufIdx_eq (hidx : idx * 2048 < 2 ^ 32) :
    (base + idx * 2048 - base) / 2048 % 2 ^ 32 = idx := by
  rw [Nat.add_sub_cancel_left, Nat.mul_div_cancel _ (by decide), Nat.mod_eq_of_lt (by omega)]

/-- As the istream computes it, with a signed difference. -/
theorem bufIdx_int_eq (hidx : idx * 2048 < 2 ^ 32) :
    ((((base + idx * 2048 : Nat) : Int) - base).tdiv 2048 % 2 ^ 32).toNat = idx := by
  have hdiff : ((base + idx * 2048 : Nat) : Int) - base = (idx * 2048 : Nat) := by omega
  have hquot : ((idx * 2048 : Nat) : Int).tdiv 2048 = idx := by
    rw [Int.natCast_mul]
    exact Int.mul_tdiv_cancel _ (by decide)
  rw [hdiff, hquot]
  omega

end Addresses

end Camio.Netmap
