/-
  Camio.Lib.Printf

  What `printf` and its relatives make of a format whose conversions are taken apart, and
  stores of strings into a block of memory.

  No text has a NUL in it, so what is stored with a terminator behind it is read back as the
  same string.  `snprintf` and `sprintf` return the length of the text; where that is no
  `int` they fail.
-/

import Mathlib.Data.Nat.Digits.Lemmas
import Camio.Lib.ByteMem
import Camio.Lib.CStr

namespace Camio.Lib

/-- A string literal. -/
def lit (s : String) (noNul : 0 ∉ s.toUTF8.data.toList := by decide) : CStr := ⟨_, noNul⟩

/-! ## Texts -/

/-- The character of a digit, a capital letter from ten on. -/
def digitChar (d : Nat) : UInt8 := UInt8.ofNat (if d < 10 then 48 + d else 55 + d)

/-- The digits of `n`, the most significant first; of zero, one. -/
def digitsIn (base n : Nat) : List UInt8 :=
  (if n = 0 then [0] else (Nat.digits base n).reverse).map digitChar

/-- The text between two conversions, or a conversion with its argument. -/
inductive Piece where
  | text (s : CStr)
  /-- `%s` -/
  | str (s : CStr)
  /-- `%d` -/
  | int (x : Int)
  /-- `%02X` -/
  | hex (x : Int)

/-- What is printed for a piece; `%02X` takes its argument as an `unsigned int`. -/
def Piece.print : Piece → List UInt8
  | .text s => s.bytes
  | .str s => s.bytes
  | .int x => if x < 0 then 45 :: digitsIn 10 x.natAbs else digitsIn 10 x.natAbs
  | .hex x => (digitsIn 16 (x % 2 ^ 32).toNat).leftpad 2 48

section Texts

variable {base n : Nat}

theorem digitChar_ne_zero {d : Nat} (h : d < 16) : digitChar d ≠ 0 := by
  have hall : ∀ d < 16, digitChar d ≠ 0 := by decide
  exact hall d h

theorem zero_not_mem_digitsIn (hbase : 1 < base) (hle : base ≤ 16) : 0 ∉ digitsIn base n := by
  intro h
  rw [digitsIn, List.mem_map] at h
  obtain ⟨d, hd, hzero⟩ := h
  refine digitChar_ne_zero ?_ hzero
  split at hd
  next =>
    rw [List.mem_singleton.mp hd]
    decide
  next => exact Nat.lt_of_lt_of_le (Nat.digits_lt_base hbase (List.mem_reverse.mp hd)) hle

theorem Piece.zero_not_mem_print (p : Piece) : 0 ∉ p.print := by
  cases p with
  | text s => exact s.noNul
  | str s => exact s.noNul
  | int x =>
      have hdigits : 0 ∉ digitsIn 10 x.natAbs := zero_not_mem_digitsIn (by decide) (by decide)
      rw [print]
      split
      · intro h
        rcases List.mem_cons.mp h with h | h
        · exact absurd h (by decide)
        · exact hdigits h
      · exact hdigits
  | hex x =>
      have hdigits : 0 ∉ digitsIn 16 (x % 2 ^ 32).toNat :=
        zero_not_mem_digitsIn (by decide) (by decide)
      rw [print, List.leftpad, List.mem_append]
      rintro (h | h)
      · exact absurd (List.eq_of_mem_replicate h) (by decide)
      · exact hdigits h

end Texts

/-- The text that is printed for the pieces of a format. -/
def printed (pieces : List Piece) : CStr where
  bytes := pieces.flatMap Piece.print
  noNul := fun h => by
    obtain ⟨p, -, hp⟩ := List.mem_flatMap.mp h
    exact p.zero_not_mem_print hp

/-- What `snprintf` and `sprintf` return on a text. -/
def printfResult (text : CStr) : Int := if text.length < 2 ^ 31 then text.length else -1

/-! ## Stores into a block -/

/-- Bytes that are stored, and where in the block. -/
structure Store where
  offset : Int
  bytes : List UInt8

/-- All of them lie inside a block of `size` bytes. -/
def Store.Inside (s : Store) (size : Nat) : Prop :=
  ∀ i : Nat, i < s.bytes.length → 0 ≤ s.offset + i ∧ s.offset + i < size

/-- The memory behind a store into the block at `p`. -/
def Mem.store (m : Mem) (p : Nat) (s : Store) : Mem := m.write (p + s.offset).toNat s.bytes

/-- The string at `p`. -/
def HoldsString (m : Mem) (p : Nat) (s : CStr) : Prop :=
  m.read p (s.length + 1) = s.bytes ++ [0]

/-- A string with its terminator, as `strcpy` stores it. -/
def strcpyBytes (s : CStr) : List UInt8 := s.bytes ++ [0]

/-- Two strings in a row. -/
def CStr.append (s t : CStr) : CStr where
  bytes := s.bytes ++ t.bytes
  noNul := fun h => (List.mem_append.mp h).elim s.noNul t.noNul

theorem strcpyBytes_length (s : CStr) : (strcpyBytes s).length = s.length + 1 :=
  List.length_append

theorem Mem.store_natCast (m : Mem) (p offset : Nat) (bytes : List UInt8) :
    m.store p ⟨offset, bytes⟩ = m.write (p + offset) bytes := by
  rw [Mem.store]
  congr 1

/-- A string copied over the terminator of another one goes on from it. -/
theorem holdsString_append (m : Mem) (p : Nat) (s t : CStr) :
    HoldsString ((m.store p ⟨0, strcpyBytes s⟩).store p ⟨s.length, strcpyBytes t⟩) p
      (s.append t) := by
  have hlength : (s.append t).length + 1 = s.length + (strcpyBytes t).length := by
    rw [strcpyBytes_length, ← Nat.add_assoc]
    exact congrArg (· + 1) List.length_append
  -- the first string, up to the terminator that is overwritten
  have hfirst : (m.write p (strcpyBytes s)).read p s.length = s.bytes := by
    have hread := m.read_write_same p (strcpyBytes s)
    rw [strcpyBytes_length] at hread
    rw [← Mem.read_take _ p (Nat.le_succ s.length), hread]
    exact List.take_left
  rw [HoldsString, hlength, Mem.read_add, Mem.store_natCast, Mem.read_write_same,
    Mem.read_write_disjoint (Or.inl (Nat.le_refl _))]
  have hzero := m.store_natCast p 0 (strcpyBytes s)
  rw [Nat.cast_zero] at hzero
  rw [hzero, Nat.add_zero, hfirst]
  exact (List.append_assoc _ _ _).symm

end Camio.Lib
