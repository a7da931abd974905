/-
  Camio.Lib.Wrapped

  A stream of bytes in a memory of `n` bytes that wraps round: the byte at position `q` of the
  stream lies at address `q % n`.

  The memory carries the stream from position `r` on as long as no more than `n` bytes have
  been poured in behind `r`.  Seen twice in a row, so that an address stands for what lies `n`
  before it, any part of the stream that is carried can be read without a break.
-/

import Camio.Lib.ByteMem

namespace Camio.Lib

variable {n w q r p k : Nat} {m : Mem} {bytes stream : List UInt8}

/-- Store `bytes` from address `w % n` on, and on from address 0 behind the last. -/
def pour (n : Nat) (m : Mem) (w : Nat) (bytes : List UInt8) : Mem := fun x =>
  bytes.getD ((x + (n - w % n)) % n) (m x)

/-- The memory seen twice in a row. -/
def twice (n : Nat) (m : Mem) : Mem := fun x => m (x % n)

/-- The positions from `r` on are in the memory. -/
def Carries (n : Nat) (m : Mem) (r : Nat) (stream : List UInt8) : Prop :=
  ∀ q, r ≤ q → q < stream.length → stream[q]? = some (m (q % n))

/-- How far an address lies behind another, going round. -/
theorem around_of_le (hn : 0 < n) (h : w ≤ q) : (q % n + (n - w % n)) % n = (q - w) % n := by
  have hlt : w % n < n := Nat.mod_lt _ hn
  have hsplit := Nat.mod_add_div w n
  have hsum : q + (n - w % n) = q - w + n * (w / n + 1) := by
    rw [Nat.mul_succ]
    omega
  rw [Nat.mod_add_mod, hsum, Nat.add_mul_mod_self_left]

theorem around_of_lt (hn : 0 < n) (hround : w ≤ q + n) :
    (q % n + (n - w % n)) % n = (q + n - w) % n := by
  rw [← around_of_le hn hround, Nat.add_mod_right]

theorem pour_at (hle : w ≤ q) (hlt : q < w + bytes.length) (hn : bytes.length ≤ n) :
    bytes[q - w]? = some (pour n m w bytes (q % n)) := by
  have hin : q - w < bytes.length := by omega
  rw [pour, around_of_le (by omega) hle, Nat.mod_eq_of_lt (by omega), List.getElem?_eq_getElem hin,
    List.getD_eq_getElem?_getD, List.getElem?_eq_getElem hin, Option.getD_some]

theorem pour_before (hlt : q < w) (hn : w + bytes.length ≤ q + n) :
    pour n m w bytes (q % n) = m (q % n) := by
  rw [pour, around_of_lt (by omega) (by omega), Nat.mod_eq_of_lt (by omega),
    List.getD_eq_getElem?_getD, List.getElem?_eq_none (by omega), Option.getD_none]

/-- Pouring no further than `n` behind `r` keeps what is carried from `r` on. -/
theorem Carries.pour (h : Carries n m r stream) (hn : stream.length + bytes.length ≤ r + n)
    (hr : r ≤ stream.length) :
    Carries n (Lib.pour n m stream.length bytes) r (stream ++ bytes) := by
  intro q hle hlt
  rw [List.length_append] at hlt
  by_cases hq : q < stream.length
  · rw [List.getElem?_append_left hq, pour_before hq (by omega)]
    exact h q hle hq
  · rw [List.getElem?_append_right (by omega)]
    exact pour_at (by omega) hlt (by omega)

theorem Carries.mono (h : Carries n m r stream) {r' : Nat} (hr : r ≤ r') :
    Carries n m r' stream :=
  fun q hle => h q (Nat.le_trans hr hle)

/-- What is carried can be read at any address that stands for its position. -/
theorem Carries.read (h : Carries n m r stream) (hp : p % n = q % n) (hr : r ≤ q)
    (hk : q + k ≤ stream.length) : (twice n m).read p k = (stream.drop q).take k := by
  apply List.ext_getElem?
  intro i
  by_cases hi : i < k
  · have haddr : (p + i) % n = (q + i) % n := by rw [Nat.add_mod, hp, ← Nat.add_mod]
    rw [Mem.read_getElem? _ _ _ _ hi, List.getElem?_take_of_lt hi, List.getElem?_drop,
      h (q + i) (by omega) (by omega), twice, haddr]
  · rw [List.getElem?_eq_none (by rw [Mem.read_length]; omega),
      List.getElem?_eq_none (by rw [List.length_take]; omega)]

end Camio.Lib
