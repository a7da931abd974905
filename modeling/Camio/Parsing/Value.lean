/-
  Camio.Parsing.Value

  The value of an integer that the parser returns.

  The accumulator wraps around silently: what is returned is the number in the range of the
  type that is congruent to the exact value modulo `2^64`, and so the exact value wherever
  that fits.
-/

import Camio.Parsing.Acceptance

namespace Camio.Parsing

open Camio.Lib

/-- The exact value: sign, digits in their base, multiplier. -/
def Numeral.exactValue (n : Numeral) : Int :=
  signum n.sign * (n.literal.value * n.tail.multiplier : Nat)

/-- The text is that of an integer with this exact value. -/
def Denotes (text : List UInt8) (x : Int) : Prop :=
  ∃ n : Numeral, n.Ok ∧ n.literal.IsInteger ∧ n.text = text ∧ n.exactValue = x

/-- An integer was returned. -/
def NumResult.IsInteger {F : Type} : NumResult F → Prop
  | .uint64 _ | .int64 _ => True
  | _ => False

/-- The value is the one in the range of its type that is congruent to `x`. -/
def NumResult.Represents {F : Type} (x : Int) : NumResult F → Prop
  | .uint64 v => v < 2 ^ 64 ∧ (2 ^ 64 : Int) ∣ x - v
  | .int64 v => -2 ^ 63 ≤ v ∧ v < 2 ^ 63 ∧ (2 ^ 64 : Int) ∣ x - v
  | _ => False

/-- The value is exactly `x`. -/
def NumResult.Is (x : Int) : NumResult → Prop
  | .uint64 v => (v : Int) = x
  | .int64 v => v = x
  | _ => False

section Values

variable {F : Type} [Double F]
variable {s : CStr} {i : Nat} {r : NumResult} {n : Numeral} {sign : Option UInt8}

theorem wrapped_represents {F : Type} (sign : Option UInt8) (m : Nat) :
    (wrapped (signum sign) m : NumResult F).Represents (signum sign * m) := by
  rw [wrapped]
  by_cases hsign : signum sign = -1
  · rw [if_pos hsign, hsign, NumResult.Represents]
    have hlow := Int.le_bmod (x := -(m : Int)) (m := 2 ^ 64) (by decide)
    have hhigh := Int.bmod_lt (x := -(m : Int)) (m := 2 ^ 64) (by decide)
    have hdvd := Int.dvd_self_sub_bmod (x := -(m : Int)) (m := 2 ^ 64)
    rw [Int.neg_one_mul]
    exact ⟨hlow, hhigh, hdvd⟩
  · have hone : signum sign = 1 := by
      rw [signum] at hsign ⊢
      split at hsign
      next => exact absurd rfl hsign
      next h => exact if_neg h
    rw [if_neg hsign, hone, NumResult.Represents]
    omega

theorem Numeral.result_represents (h : n.literal.IsInteger) :
    (n.result F).Represents n.exactValue := by
  rw [Numeral.result_of_isInteger h]
  exact wrapped_represents _ _

theorem Numeral.isInteger_of_result (h : (n.result F).IsInteger) : n.literal.IsInteger := by
  obtain ⟨white, sign, literal, tail⟩ := n
  cases literal with
  | frac whole digits => exact h
  | zero | dec digits | oct digits | hex x digits | bin b digits => trivial

/-- Where an integer is returned, the text denotes a value, and what is returned is that value
    wrapped to the type. -/
theorem integer_represents (h : parseNumber s i = some r) (hr : r.IsInteger) :
    (∃ x, Denotes (s.bytes.drop i) x) ∧ ∀ x, Denotes (s.bytes.drop i) x → r.Represents x := by
  have hi : i ≤ s.length := parseNumber_le h
  have hne : r ≠ .noType := by
    rintro rfl
    exact hr
  obtain ⟨n, hn, htext, rfl⟩ := parseNumber_accepted h hne
  refine ⟨⟨n.exactValue, n, hn, n.isInteger_of_result hr, htext, rfl⟩, ?_⟩
  rintro x ⟨n', hn', hinteger, htext', rfl⟩
  have hsame : n.result = n'.result :=
    Option.some.inj (h.symm.trans (parseNumber_of_ok hi hn' htext'))
  rw [hsame]
  exact n'.result_represents hinteger

end Values

/-- `2^64` in decimal digits. -/
def demoOverflow : CStr :=
  ⟨[49, 56, 52, 52, 54, 55, 52, 52, 48, 55, 51, 55, 48, 57, 53, 53, 49, 54, 49, 54], by decide⟩

def demoOverflowNumeral : Numeral := ⟨[], none, .dec demoOverflow.bytes, .white []⟩

theorem demoOverflow_ok : demoOverflowNumeral.Ok where
  white := List.forall_mem_nil _
  sign := fun c hc => absurd hc (Option.not_mem_none c)
  literal := ⟨_, _, rfl, by decide, by decide, by simp [isDigit]⟩
  tail := tail_ok_nil _

theorem integer_represents_overflow :
    ∃ r, parseNumber demoOverflow 0 = some r ∧ r.Represents demoOverflowNumeral.exactValue := by
  have hparse : parseNumber demoOverflow 0 = some (.uint64 0) :=
    parseNumber_of_ok (Nat.zero_le _) demoOverflow_ok rfl
  exact ⟨_, hparse, (integer_represents hparse trivial).2 _
    ⟨demoOverflowNumeral, demoOverflow_ok, trivial, rfl, rfl⟩⟩

/-- The digits of `2^64` are read as 0. -/
theorem integer_exact_fails :
    ¬ ∀ (s : CStr) (i : Nat) (r : NumResult) (x : Int), parseNumber s i = some r → r.IsInteger →
      Denotes (s.bytes.drop i) x → r.Is x := by
  intro hall
  have hparse : parseNumber demoOverflow 0 = some (.uint64 0) :=
    parseNumber_of_ok (Nat.zero_le _) demoOverflow_ok rfl
  have hvalue : demoOverflowNumeral.exactValue = 2 ^ 64 := by decide +kernel
  have hzero : ((0 : Nat) : Int) = 2 ^ 64 := hall demoOverflow 0 _ _ hparse trivial
    ⟨demoOverflowNumeral, demoOverflow_ok, trivial, rfl, hvalue⟩
  exact absurd hzero (by decide)

end Camio.Parsing
