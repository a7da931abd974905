/-
  Camio.Lib.ByteOrder

  Network byte order on a little-endian host: `htons` and `ntohs` both swap the two
  bytes of their argument, which is converted to 16 bits first.
-/

import Mathlib.Algebra.Group.Nat.Defs

namespace Camio.Lib

/-- The two bytes of a 16-bit number, swapped. -/
def swap16 (v : Nat) : Nat := v % 256 * 256 + v / 256 % 256

/-- `htons`. -/
def htons (v : Nat) : Nat := swap16 v

/-- `ntohs`. -/
def ntohs (v : Nat) : Nat := swap16 v

/-- Swapping twice leaves the 16 bits that there are. -/
theorem swap16_swap16 (v : Nat) : swap16 (swap16 v) = v % 2 ^ 16 := by
  have hlow : v % 256 < 256 := Nat.mod_lt _ (by decide)
  have hhigh : v / 256 % 256 < 256 := Nat.mod_lt _ (by decide)
  have hpow : 2 ^ 16 = 256 * 256 := rfl
  have hv : v % (256 * 256) = v % 256 + 256 * (v / 256 % 256) := Nat.mod_mul
  rw [hpow, hv, swap16, swap16]
  generalize v % 256 = low at hlow ⊢
  generalize v / 256 % 256 = high at hhigh ⊢
  omega

theorem swap16_lt (v : Nat) : swap16 v < 2 ^ 16 := by
  have hlow : v % 256 < 256 := Nat.mod_lt _ (by decide)
  have hhigh : v / 256 % 256 < 256 := Nat.mod_lt _ (by decide)
  show v % 256 * 256 + v / 256 % 256 < 2 ^ 16
  omega

theorem htons_lt (v : Nat) : htons v < 2 ^ 16 := swap16_lt v

theorem ntohs_htons (v : Nat) : ntohs (htons v) = v % 2 ^ 16 := swap16_swap16 v

end Camio.Lib
