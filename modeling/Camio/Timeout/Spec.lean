/-
  Camio.Timeout.Spec

  The numbers in the specifications of the timers.  Both timers collect digits in a
  64-bit variable and check neither what the characters are nor whether it wraps.
-/

import Camio.Parsing.Reading

namespace Camio.Timeout

open Camio.Parsing

/-- `temp *= 10` and `temp += c - '0'`; `char` is signed. -/
def addDigit (temp : Nat) (c : UInt8) : Nat :=
  (((temp * 10 % 2 ^ 64 : Nat) + ((c.toNat : Int).bmod 256 - 48)) % 2 ^ 64).toNat

/-- The loop over characters. -/
def addDigits (temp : Nat) (cs : List UInt8) : Nat := cs.foldl addDigit temp

theorem addDigits_cons (temp : Nat) (c : UInt8) (cs : List UInt8) :
    addDigits temp (c :: cs) = addDigits (addDigit temp c) cs := by
  rw [addDigits, List.foldl_cons, addDigits]

theorem toNat_emod_lt (x : Int) : (x % 2 ^ 64).toNat < 2 ^ 64 := by omega

theorem addDigit_lt (temp : Nat) (c : UInt8) : addDigit temp c < 2 ^ 64 := toNat_emod_lt _

theorem addDigits_lt {temp : Nat} (h : temp < 2 ^ 64) (cs : List UInt8) :
    addDigits temp cs < 2 ^ 64 := by
  induction cs generalizing temp with
  | nil => exact h
  | cons c cs ih =>
      have hturn := ih (addDigit_lt temp c)
      rwa [addDigits_cons]

/-- A turn of the loop, with a digit worth `d`. -/
theorem toNat_add_emod (n d : Nat) :
    (((n % 2 ^ 64 * 10 % 2 ^ 64 : Nat) + (d : Int)) % 2 ^ 64).toNat = (n * 10 + d) % 2 ^ 64 := by
  omega

theorem addDigit_eq {c : UInt8} (hc : isDigit c = true) (n : Nat) :
    addDigit (n % 2 ^ 64) c = (n * 10 + digitValue c) % 2 ^ 64 := by
  have hrange : 48 ≤ c.toNat ∧ c.toNat ≤ 57 := by simpa [isDigit] using hc
  have hchar : (c.toNat : Int).bmod 256 - 48 = digitValue c := by
    rw [Int.bmod, digitValue_of_isDigit hc]
    omega
  have hturn := toNat_add_emod n (digitValue c)
  rw [← hchar] at hturn
  exact hturn

/-- The variable keeps the value of the digits, modulo `2^64`. -/
theorem addDigits_eq {digits : List UInt8} (hdigits : ∀ c ∈ digits, isDigit c = true) (n : Nat) :
    addDigits (n % 2 ^ 64) digits = digitsFrom 10 n digits % 2 ^ 64 := by
  induction digits generalizing n with
  | nil => rfl
  | cons c digits ih =>
      have hc := hdigits c List.mem_cons_self
      rw [addDigits_cons, addDigit_eq hc, ih fun d hd => hdigits d (List.mem_cons_of_mem _ hd),
        digitsFrom, digitsFrom, List.foldl_cons]

end Camio.Timeout
