/-
  Camio.Lib.ByteMem

  Byte-addressed memory with little-endian words.

  A memory is a total function from addresses to bytes; `read` and `write` move
  byte lists, `read64`/`write64` 64-bit words as natural numbers.  The algebra
  is the usual one: a read sees the last write to its range and no write to a
  disjoint range.
-/

import Mathlib.Algebra.Group.Nat.Defs
import Mathlib.Data.List.GetD

namespace Camio.Lib

/-- Byte-addressed memory. -/
abbrev Mem := Nat → UInt8

/-! ## Little-endian words -/

/-- Little-endian value of a byte list: the first byte is least significant. -/
def leNat : List UInt8 → Nat
  | [] => 0
  | b :: bs => b.toNat + 256 * leNat bs

/-- The `n` low bytes of `v`, least significant first. -/
def leBytes : Nat → Nat → List UInt8
  | 0, _ => []
  | n + 1, v => UInt8.ofNat v :: leBytes n (v / 256)

@[simp] theorem leBytes_length (n v : Nat) : (leBytes n v).length = n := by
  induction n generalizing v with
  | zero => rfl
  | succ n ih => simp [leBytes, ih]

theorem leNat_lt (bs : List UInt8) : leNat bs < 256 ^ bs.length := by
  induction bs with
  | nil => simp [leNat]
  | cons b bs ih =>
      have hb : b.toNat < 256 := b.toNat_lt
      rw [leNat, List.length_cons, Nat.pow_succ]
      omega

theorem leNat_leBytes (n v : Nat) : leNat (leBytes n v) = v % 256 ^ n := by
  induction n generalizing v with
  | zero => simp [leBytes, leNat, Nat.mod_one]
  | succ n ih =>
      have hb : (UInt8.ofNat v).toNat = v % 256 := UInt8.toNat_ofNat'
      rw [leBytes, leNat, ih, hb, Nat.pow_succ, Nat.mul_comm (256 ^ n) 256, Nat.mod_mul]

/-! ## Reading and writing byte ranges -/

namespace Mem

/-- The `n` bytes from address `a` on. -/
def read (m : Mem) (a : Nat) : Nat → List UInt8
  | 0 => []
  | n + 1 => m a :: read m (a + 1) n

/-- Store `bs` from address `a` on. -/
def write (m : Mem) (a : Nat) (bs : List UInt8) : Mem :=
  fun x => if a ≤ x then bs.getD (x - a) (m x) else m x

/-- The 64-bit word at address `a`. -/
def read64 (m : Mem) (a : Nat) : Nat := leNat (m.read a 8)

/-- Store `v` as a 64-bit word at address `a`. -/
def write64 (m : Mem) (a v : Nat) : Mem := m.write a (leBytes 8 v)

/-- The 16-bit word at address `a`. -/
def read16 (m : Mem) (a : Nat) : Nat := leNat (m.read a 2)

/-- Store `v` as a 16-bit word at address `a`. -/
def write16 (m : Mem) (a v : Nat) : Mem := m.write a (leBytes 2 v)

variable {m : Mem}

@[simp] theorem read_length (m : Mem) (a n : Nat) : (m.read a n).length = n := by
  induction n generalizing a with
  | zero => rfl
  | succ n ih => simp [read, ih]

@[simp] theorem read_zero (m : Mem) (a : Nat) : m.read a 0 = [] := rfl

theorem read_getElem (m : Mem) (a n i : Nat) (h : i < (m.read a n).length) :
    (m.read a n)[i] = m (a + i) := by
  induction n generalizing a i with
  | zero => simp at h
  | succ n ih =>
      cases i with
      | zero => rfl
      | succ i =>
          simp only [read, List.getElem_cons_succ]
          rw [ih (a + 1) i (by simpa [read] using h)]
          congr 1
          omega

theorem read_getElem? (m : Mem) (a n i : Nat) (h : i < n) :
    (m.read a n)[i]? = some (m (a + i)) := by
  rw [List.getElem?_eq_getElem (by simpa using h), read_getElem]

/-- Two memories that agree on a range read the same from it. -/
theorem read_congr {m m' : Mem} {a b n : Nat} (h : ∀ i, i < n → m (a + i) = m' (b + i)) :
    m.read a n = m'.read b n := by
  apply List.ext_getElem (by simp)
  intro i hi _
  rw [read_getElem, read_getElem]
  exact h i (by simpa using hi)

theorem read_add (m : Mem) (a n k : Nat) :
    m.read a (n + k) = m.read a n ++ m.read (a + n) k := by
  induction n generalizing a with
  | zero => simp
  | succ n ih =>
      rw [Nat.succ_add, read, ih, read, List.cons_append, Nat.add_right_comm a 1 n]
      rfl

theorem read_take (m : Mem) (a : Nat) {k n : Nat} (h : k ≤ n) :
    (m.read a n).take k = m.read a k := by
  obtain ⟨d, rfl⟩ := Nat.exists_eq_add_of_le h
  rw [read_add, List.take_left' (read_length m a k)]

theorem read_drop (m : Mem) (a : Nat) {k n : Nat} (h : k ≤ n) :
    (m.read a n).drop k = m.read (a + k) (n - k) := by
  obtain ⟨d, rfl⟩ := Nat.exists_eq_add_of_le h
  rw [read_add, List.drop_left' (read_length m a k), Nat.add_sub_cancel_left]

theorem write_apply_of_lt {a x : Nat} (bs : List UInt8) (h : x < a) :
    m.write a bs x = m x := by
  rw [write, if_neg (by omega)]

theorem write_apply_of_ge {a x : Nat} {bs : List UInt8} (h : a + bs.length ≤ x) :
    m.write a bs x = m x := by
  rw [write, if_pos (by omega), List.getD_eq_default _ _ (by omega)]

theorem write_apply_of_mem {a i : Nat} {bs : List UInt8} (h : i < bs.length) :
    m.write a bs (a + i) = bs[i] := by
  rw [write, if_pos (by omega), Nat.add_sub_cancel_left, List.getD_eq_getElem _ _ h]

@[simp] theorem write_nil (m : Mem) (a : Nat) : m.write a [] = m := by
  funext x
  simp [write]

/-- A write is read back. -/
theorem read_write_same (m : Mem) (a : Nat) (bs : List UInt8) :
    (m.write a bs).read a bs.length = bs := by
  apply List.ext_getElem (by simp)
  intro i hi hi'
  rw [read_getElem, write_apply_of_mem hi']

/-- A write leaves a disjoint range as it was. -/
theorem read_write_disjoint {a b n : Nat} {bs : List UInt8}
    (h : b + n ≤ a ∨ a + bs.length ≤ b) :
    (m.write a bs).read b n = m.read b n := by
  apply read_congr
  intro i hi
  rcases h with h | h
  · exact write_apply_of_lt bs (by omega)
  · exact write_apply_of_ge (by omega)

/-- No byte of the `n` from `b` on is one of the `k` from `a` on. -/
def Apart (b n a k : Nat) : Prop := ∀ x, b ≤ x → x < b + n → x < a ∨ a + k ≤ x

/-- A write leaves a range as it was that it stays apart from. -/
theorem read_write_apart {a b n : Nat} {bs : List UInt8} (h : Apart b n a bs.length) :
    (m.write a bs).read b n = m.read b n := by
  apply read_congr
  intro i hi
  rcases h (b + i) (by omega) (by omega) with h | h
  · exact write_apply_of_lt bs h
  · exact write_apply_of_ge h

theorem read64_lt (m : Mem) (a : Nat) : m.read64 a < 2 ^ 64 := by
  have h := leNat_lt (m.read a 8)
  rw [read_length] at h
  exact h

@[simp] theorem read64_write64_same (m : Mem) (a v : Nat) :
    (m.write64 a v).read64 a = v % 2 ^ 64 := by
  have h := read_write_same m a (leBytes 8 v)
  rw [leBytes_length] at h
  rw [read64, write64, h, leNat_leBytes, show 256 ^ 8 = 2 ^ 64 from rfl]

theorem read64_write_disjoint {a b : Nat} {bs : List UInt8}
    (h : b + 8 ≤ a ∨ a + bs.length ≤ b) :
    (m.write a bs).read64 b = m.read64 b := by
  rw [read64, read_write_disjoint h, read64]

theorem read64_write64_disjoint {a b v : Nat} (h : b + 8 ≤ a ∨ a + 8 ≤ b) :
    (m.write64 a v).read64 b = m.read64 b :=
  read64_write_disjoint (by simpa using h)

theorem read_write64_disjoint {a b n v : Nat} (h : b + n ≤ a ∨ a + 8 ≤ b) :
    (m.write64 a v).read b n = m.read b n :=
  read_write_disjoint (by simpa using h)

@[simp] theorem read16_write16_same (m : Mem) (a v : Nat) :
    (m.write16 a v).read16 a = v % 2 ^ 16 := by
  have h := read_write_same m a (leBytes 2 v)
  rw [leBytes_length] at h
  rw [read16, write16, h, leNat_leBytes, show 256 ^ 2 = 2 ^ 16 from rfl]

theorem read16_write16_disjoint {a b v : Nat} (h : b + 2 ≤ a ∨ a + 2 ≤ b) :
    (m.write16 a v).read16 b = m.read16 b := by
  rw [read16, write16, read_write_disjoint (by simpa using h), read16]

theorem read_write16_disjoint {a b n v : Nat} (h : b + n ≤ a ∨ a + 2 ≤ b) :
    (m.write16 a v).read b n = m.read b n :=
  read_write_disjoint (by simpa using h)

/-- Bytes as a memory that begins with them. -/
def ofBytes (bs : List UInt8) : Mem := fun i => bs.getD i 0

theorem ofBytes_read {bs : List UInt8} {k : Nat} (h : k ≤ bs.length) :
    (ofBytes bs).read 0 k = bs.take k := by
  apply List.ext_getElem?
  intro i
  by_cases hi : i < k
  · rw [read_getElem? _ _ _ _ hi, List.getElem?_take_of_lt hi, ofBytes, Nat.zero_add,
      List.getD_eq_getElem?_getD, List.getElem?_eq_getElem (by omega), Option.getD_some]
  · rw [List.getElem?_eq_none (by rw [read_length]; omega),
      List.getElem?_eq_none (by rw [List.length_take]; omega)]

end Mem

end Camio.Lib
