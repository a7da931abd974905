/-
  Camio.Lib.Double

  What a program does with a `double`, and doubles with exact arithmetic.

  A program that is written over any type of doubles runs on Lean's own `Float`, which rounds
  as the machine does, and on `Exact`, where every operation gives the rational number that it
  is rounded from.
-/

import Mathlib.Algebra.Order.Field.Rat
import Mathlib.Tactic.Linarith
import Mathlib.Tactic.NormNum

namespace Camio.Lib

/-- Doubles can be calculated with, integers are converted to them, and the bits of a 64-bit
    word are read as one. -/
class Double (F : Type) extends Add F, Mul F, Div F where
  ofNat : Nat → F
  ofInt : Int → F
  ofBits : Nat → F

instance : Double Float where
  ofNat := Float.ofNat
  ofInt := Float.ofInt
  ofBits b := Float.ofBits (UInt64.ofNat b)

/-- A rational number, or what is none: an infinity or a NaN. -/
inductive Exact where
  | num (q : ℚ)
  | notNumber
deriving DecidableEq

namespace Exact

def map₂ (f : ℚ → ℚ → ℚ) : Exact → Exact → Exact
  | .num a, .num b => .num (f a b)
  | _, _ => .notNumber

/-- The exponent field of the binary64 format. -/
def exponentField (b : Nat) : Nat := b / 2 ^ 52 % 2 ^ 11

/-- The least positive double is `2^-1074`. -/
def unitExponent : Nat := 1074

/-- The magnitude of a finite double as a multiple of the least positive one. -/
def scaled (b : Nat) : Nat :=
  if exponentField b = 0 then b % 2 ^ 52
  else (2 ^ 52 + b % 2 ^ 52) * 2 ^ (exponentField b - 1)

/-- The number in the binary64 format. -/
def ofBits (b : Nat) : Exact :=
  if exponentField b = 2047 then .notNumber
  else if b / 2 ^ 63 % 2 = 1 then .num (-(scaled b : ℚ) / 2 ^ unitExponent)
  else .num ((scaled b : ℚ) / 2 ^ unitExponent)

instance : Double Exact where
  add := map₂ (· + ·)
  mul := map₂ (· * ·)
  div a b := if b = .num 0 then .notNumber else map₂ (· / ·) a b
  ofNat n := .num n
  ofInt z := .num z
  ofBits := ofBits

section Arithmetic

variable {a b : ℚ} {n : Nat}

@[simp] theorem num_add (a b : ℚ) : (num a + num b : Exact) = num (a + b) := rfl

@[simp] theorem num_mul (a b : ℚ) : (num a * num b : Exact) = num (a * b) := rfl

theorem num_div (hb : b ≠ 0) : (num a / num b : Exact) = num (a / b) :=
  if_neg fun h => hb (num.inj h)

@[simp] theorem ofNat_eq (n : Nat) : (Double.ofNat n : Exact) = num n := rfl

@[simp] theorem ofInt_eq (z : Int) : (Double.ofInt z : Exact) = num z := rfl

end Arithmetic

/-! ## The bits of an integer are not those of a double of the same value -/

section Bits

variable {b : Nat}

/-- With the exponent field taken apart, the magnitude would have to be the number itself. -/
theorem scaled_ne_mul (hpos : b ≠ 0) (hb : b < 2 ^ 63) : scaled b ≠ b * 2 ^ unitExponent := by
  have hexp : exponentField b = b / 2 ^ 52 := Nat.mod_eq_of_lt (by omega)
  have hsplit : b = b / 2 ^ 52 * 2 ^ 52 + b % 2 ^ 52 := by omega
  have hone : b < b * 2 ^ unitExponent :=
    lt_mul_of_one_lt_right (Nat.pos_of_ne_zero hpos) (Nat.one_lt_two_pow (by decide))
  rw [scaled, hexp]
  split
  next hzero => omega
  next hzero =>
    by_cases hlow : b / 2 ^ 52 ≤ 1075
    · -- up to here the unit of the double is at most 1
      rcases Nat.lt_or_eq_of_le (Nat.one_le_iff_ne_zero.mpr hzero) with hlt | heq
      · have hpow : 2 ^ (b / 2 ^ 52 - 1) ≤ 2 ^ unitExponent :=
          Nat.pow_le_pow_right (by decide) (by rw [unitExponent]; omega)
        have hless : 2 ^ 52 + b % 2 ^ 52 < b := by omega
        exact (Nat.mul_lt_mul_of_lt_of_le hless hpow (Nat.two_pow_pos _)).ne
      · rw [← heq, Nat.sub_self, Nat.pow_zero, Nat.mul_one]
        omega
    · obtain ⟨j, hj⟩ : ∃ j, b / 2 ^ 52 = 1075 + j + 1 :=
        ⟨b / 2 ^ 52 - 1076, by omega⟩
      have hexponent : b / 2 ^ 52 - 1 = (j + 1) + unitExponent := by
        rw [unitExponent]
        omega
      rw [hexponent, Nat.pow_add, ← Nat.mul_assoc]
      intro h
      have hvalue := Nat.eq_of_mul_eq_mul_right (Nat.two_pow_pos unitExponent) h
      rcases Nat.lt_trichotomy j 9 with hlt | heq | hgt
      · have hpow : 2 ^ (j + 1) ≤ 2 ^ 9 := Nat.pow_le_pow_right (by decide) (by omega)
        have hle := Nat.mul_le_mul_left (2 ^ 52 + b % 2 ^ 52) hpow
        omega
      · subst heq
        omega
      · have hpow : 2 ^ 11 ≤ 2 ^ (j + 1) := Nat.pow_le_pow_right (by decide) (by omega)
        have hle := Nat.mul_le_mul_left (2 ^ 52 + b % 2 ^ 52) hpow
        omega

theorem ofBits_eq_num_iff (hb : b < 2 ^ 64) : ofBits b = .num b ↔ b = 0 := by
  constructor
  · intro h
    by_contra hpos
    have hunit : (2 : ℚ) ^ unitExponent ≠ 0 := pow_ne_zero _ (by norm_num)
    rw [ofBits] at h
    split at h
    next => cases h
    next =>
      split at h
      next =>
        -- a negative double
        have hvalue := num.inj h
        have hneg : -(scaled b : ℚ) / 2 ^ unitExponent ≤ 0 :=
          div_nonpos_of_nonpos_of_nonneg (neg_nonpos.mpr (Nat.cast_nonneg _))
            (pow_nonneg (by norm_num) _)
        rw [hvalue, Nat.cast_nonpos] at hneg
        exact hpos hneg
      next hsign =>
        have hvalue := (div_eq_iff hunit).mp (num.inj h)
        refine scaled_ne_mul hpos (by omega) ?_
        exact_mod_cast hvalue
  · rintro rfl
    have hzero : scaled 0 = 0 := rfl
    rw [ofBits, if_neg (by decide), if_neg (by decide), hzero, Nat.cast_zero, zero_div]

end Bits

end Exact

end Camio.Lib
