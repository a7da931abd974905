/-
  Camio.Erf.Record

  `dag_record_t` of `dag/dagapi.h`, the record that the DAG stream finds in its memory and
  that the ExaNIC stream builds in its own.  The lengths are kept in network byte order;
  `rlen` is that of the whole record, `wlen` that of the packet on the wire.
-/

import Camio.Lib.ByteMem
import Camio.Lib.ByteOrder

namespace Camio.Erf

open Camio.Lib

/-! ## Layout -/

abbrev tsOffset : Nat := 0
abbrev typeOffset : Nat := 8
abbrev flagsOffset : Nat := 9
abbrev rlenOffset : Nat := 10
abbrev lctrOffset : Nat := 12
abbrev wlenOffset : Nat := 14

/-- `rec.eth.dst`, behind `offset` and `pad`. -/
abbrev dstOffset : Nat := 18

/-- `ntohs(rlen)` of the record at `p`. -/
def recordRlen (m : Mem) (p : Nat) : Nat := ntohs (m.read16 (p + rlenOffset))

/-- `ntohs(wlen)` of the record at `p`. -/
def recordWlen (m : Mem) (p : Nat) : Nat := ntohs (m.read16 (p + wlenOffset))

/-- `type` of the record at `p`. -/
def recordType (m : Mem) (p : Nat) : UInt8 := m (p + typeOffset)

/-- `flags` with `iface` and `reserved` set. -/
def setFlags (flags : UInt8) (iface : Nat) : UInt8 :=
  flags &&& 0xFC ||| UInt8.ofNat (iface % 4) ||| 0x40

/-- The fields of a record, in the order of the statements that set them. -/
def setFields (m : Mem) (p ts iface rlen wlen : Nat) : Mem :=
  let m := m.write64 (p + tsOffset) ts
  let m := m.write (p + typeOffset) [0]
  let m := m.write (p + flagsOffset) [setFlags (m (p + flagsOffset)) iface]
  let m := m.write16 (p + rlenOffset) (htons rlen)
  let m := m.write16 (p + lctrOffset) 0
  m.write16 (p + wlenOffset) (htons wlen)

/-- A field of `n` bytes ends where the next one starts, or before. -/
theorem field_end_le {i n j : Nat} (h : i + n ≤ j) (p : Nat) : p + i + n ≤ p + j := by omega

section Fields

variable (m : Mem) (p ts iface rlen wlen : Nat)

theorem recordRlen_setFields : recordRlen (setFields m p ts iface rlen wlen) p = rlen % 2 ^ 16 := by
  have hwlen : p + rlenOffset + 2 ≤ p + wlenOffset := field_end_le (by decide) p
  have hlctr : p + rlenOffset + 2 ≤ p + lctrOffset := field_end_le (by decide) p
  rw [recordRlen, setFields, Mem.read16_write16_disjoint (Or.inl hwlen),
    Mem.read16_write16_disjoint (Or.inl hlctr), Mem.read16_write16_same,
    Nat.mod_eq_of_lt (htons_lt rlen), ntohs_htons]

theorem recordWlen_setFields : recordWlen (setFields m p ts iface rlen wlen) p = wlen % 2 ^ 16 := by
  rw [recordWlen, setFields, Mem.read16_write16_same, Nat.mod_eq_of_lt (htons_lt wlen),
    ntohs_htons]

/-- The packet lies behind the fields. -/
theorem read_setFields (n : Nat) :
    (setFields m p ts iface rlen wlen).read (p + dstOffset) n = m.read (p + dstOffset) n := by
  have hend : ∀ i k, i + k ≤ dstOffset → p + i + k ≤ p + dstOffset := fun i k h => field_end_le h p
  rw [setFields, Mem.read_write16_disjoint (Or.inr (hend wlenOffset 2 (by decide))),
    Mem.read_write16_disjoint (Or.inr (hend lctrOffset 2 (by decide))),
    Mem.read_write16_disjoint (Or.inr (hend rlenOffset 2 (by decide))),
    Mem.read_write_disjoint (Or.inr (hend flagsOffset 1 (by decide))),
    Mem.read_write_disjoint (Or.inr (hend typeOffset 1 (by decide))),
    Mem.read_write64_disjoint (Or.inr (hend tsOffset 8 (by decide)))]

end Fields

end Camio.Erf
