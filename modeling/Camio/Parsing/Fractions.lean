/-
  Camio.Parsing.Fractions

  The exact value of a fraction that the parser returns.

  With exact arithmetic the digits behind the period are worth what they should be.  Behind
  them `STATE_END_FLOAT` looks at the suffix letter before it looks for an `i`, so a binary
  multiplier is taken for the decimal one of the same letter.
-/

import Mathlib.Tactic.FieldSimp
import Mathlib.Tactic.Ring
import Camio.Parsing.Rendering

namespace Camio.Parsing

open Camio.Lib

/-- The number with these digits before and behind the period. -/
def decimalValue (whole digits : List UInt8) : ℚ :=
  digitsFrom 10 0 whole + digitsFrom 10 0 digits / 10 ^ digits.length

/-- The text is a sign or none, `D '.' F`, and a suffix with its multiplier. -/
structure IsFraction (sign : Option UInt8) (whole digits us : List UInt8) (mult : Nat)
    (text : List UInt8) : Prop where
  isSign : ∀ c ∈ sign, c = ch '-' ∨ c = ch '+'
  isWhole : whole = [] ∨ NonzeroLed whole ∨ whole = [ch '0']
  isDigits : ∀ c ∈ digits, isDigit c = true
  isSuffix : Suffix us mult
  fits : digitsFrom 10 0 whole < 2 ^ 64
  text_eq : text = sign.toList ++ ((whole ++ ch '.' :: digits) ++ us)

section Digits

variable {c : UInt8} {digits whole : List UInt8}

theorem digitsFrom_eq_add (n : Nat) (digits : List UInt8) :
    digitsFrom 10 n digits = n * 10 ^ digits.length + digitsFrom 10 0 digits := by
  induction digits generalizing n with
  | nil => rw [List.length_nil, Nat.pow_zero, Nat.mul_one]; rfl
  | cons c digits ih =>
      have hcons : ∀ n, digitsFrom 10 n (c :: digits)
          = digitsFrom 10 (n * 10 + digitValue c) digits := fun n => rfl
      rw [hcons, hcons, ih, ih (0 * 10 + digitValue c), List.length_cons, Nat.pow_succ]
      ring

theorem digitsFrom_cons (c : UInt8) (digits : List UInt8) :
    digitsFrom 10 0 (c :: digits)
      = digitValue c * 10 ^ digits.length + digitsFrom 10 0 digits := by
  rw [← digitsFrom_eq_add, digitsFrom, digitsFrom, List.foldl_cons, Nat.zero_mul, Nat.zero_add]

/-- The digits of a fraction add what they are worth. -/
theorem fractionFrom_num {a b : ℚ} (hb : b ≠ 0) (hdigits : ∀ c ∈ digits, isDigit c = true) :
    fractionFrom (Exact.num a, Exact.num b) digits
      = (.num (a + digitsFrom 10 0 digits / (b * 10 ^ digits.length)),
          .num (b * 10 ^ digits.length)) := by
  induction digits generalizing a b with
  | nil => simp [fractionFrom, digitsFrom]
  | cons c digits ih =>
      have hc := hdigits c List.mem_cons_self
      have hten : b * 10 ≠ 0 := mul_ne_zero hb (by norm_num)
      have hstep : fractionFrom (Exact.num a, Exact.num b) (c :: digits)
          = fractionFrom (Exact.num a + Exact.num (c.toNat - 48 : Nat) / Exact.num (b * 10),
              Exact.num (b * 10)) digits := rfl
      rw [hstep, Exact.num_div hten, Exact.num_add,
        ih hten fun d hd => hdigits d (List.mem_cons_of_mem _ hd), digitsFrom_cons,
        ← digitValue_of_isDigit hc, List.length_cons]
      have hpow : (10 : ℚ) ^ digits.length ≠ 0 := pow_ne_zero _ (by norm_num)
      congr 2
      · push_cast
        rw [pow_succ]
        field_simp
        ring
      · rw [pow_succ]
        ring

theorem digitValue_eq_zero_iff (hc : isDigit c = true) : digitValue c = 0 ↔ c = ch '0' := by
  rw [digitValue_of_isDigit hc]
  have hrange := isDigit_iff.mp hc
  constructor
  · intro h
    apply UInt8.toNat_inj.mp
    have hzero : (ch '0').toNat = 48 := rfl
    omega
  · rintro rfl
    rfl

theorem digitsFrom_eq_zero_iff (hdigits : ∀ c ∈ digits, isDigit c = true) :
    digitsFrom 10 0 digits = 0 ↔ ∀ c ∈ digits, c = ch '0' := by
  induction digits with
  | nil => exact ⟨fun _ => List.forall_mem_nil _, fun _ => rfl⟩
  | cons c digits ih =>
      obtain ⟨hc, hrest⟩ := List.forall_mem_cons.mp hdigits
      have hpow : 10 ^ digits.length ≠ 0 := (Nat.pow_pos (by decide)).ne'
      rw [digitsFrom_cons, List.forall_mem_cons, Nat.add_eq_zero_iff, ih hrest,
        Nat.mul_eq_zero, or_iff_left hpow, digitValue_eq_zero_iff hc]

/-- A fraction is worth nothing if its digits are zeros. -/
theorem decimalValue_eq_zero_iff (hwhole : ∀ c ∈ whole, isDigit c = true)
    (hdigits : ∀ c ∈ digits, isDigit c = true) :
    decimalValue whole digits = 0 ↔ ∀ c ∈ whole ++ digits, c = ch '0' := by
  have hpow : (10 : ℚ) ^ digits.length ≠ 0 := pow_ne_zero _ (by norm_num)
  have hpos : (0 : ℚ) ≤ digitsFrom 10 0 digits / 10 ^ digits.length :=
    div_nonneg (Nat.cast_nonneg _) (pow_nonneg (by norm_num) _)
  rw [decimalValue, List.forall_mem_append, ← digitsFrom_eq_zero_iff hwhole,
    ← digitsFrom_eq_zero_iff hdigits, add_eq_zero_iff_of_nonneg (Nat.cast_nonneg _) hpos,
    div_eq_zero_iff, or_iff_left hpow, Nat.cast_eq_zero, Nat.cast_eq_zero]

end Digits

section Fractions

variable {s : CStr} {i mult : Nat} {sign : Option UInt8} {whole digits us text : List UInt8}

theorem signum_ne_zero (sign : Option UInt8) : (signum sign : ℚ) ≠ 0 := by
  rw [signum]
  split <;> norm_num

theorem IsFraction.wholePart (h : IsFraction sign whole digits us mult text) :
    WholePart sign whole := by
  rcases h.isWhole with hnil | hled | hzero
  · exact Or.inl hnil
  · exact Or.inr (Or.inl hled)
  · exact Or.inr (Or.inr ⟨0, hzero, fun _ => rfl⟩)

theorem IsFraction.whole_isDigit (h : IsFraction sign whole digits us mult text) :
    ∀ c ∈ whole, isDigit c = true := by
  rcases h.isWhole with rfl | ⟨d, ds, rfl, -, hd, hds⟩ | rfl
  · exact List.forall_mem_nil _
  · exact List.forall_mem_cons.mpr ⟨hd, hds⟩
  · exact List.forall_mem_singleton.mpr rfl

/-- What `STATE_END_FLOAT` multiplies by, whether an `i` follows or not. -/
theorem Suffix.scale (h : Suffix us mult) : ∃ (tail : Tail) (scale : Nat), tail.text = us ∧
    (∀ literal, tail.Ok literal) ∧ (∀ q : ℚ, tail.scale (Exact.num q) = .num (q * scale)) ∧
    (scale = mult ↔ ∀ c ∈ us, isBin c = false) := by
  cases h with
  | none =>
      refine ⟨.white [], 1, rfl, tail_ok_nil, fun q => ?_, ?_⟩
      · rw [Nat.cast_one, mul_one]
        rfl
      · exact iff_of_true rfl (List.forall_mem_nil _)
  | @decimal k e hk =>
      refine ⟨.suffix k [], 1000 ^ e, rfl, fun _ => hk.isPrefix, fun q => ?_, ?_⟩
      · rw [← hk.getPrefix_eq]
        rfl
      · refine iff_of_true rfl (List.forall_mem_singleton.mpr ?_)
        cases hk with
        | kilo h | mega h | giga h => rcases h with rfl | rfl <;> rfl
  | @binary k b e hk hb =>
      refine ⟨.suffix k [b], 1000 ^ e, rfl, fun _ => hk.isPrefix, fun q => ?_, ?_⟩
      · rw [← hk.getPrefix_eq]
        rfl
      · -- the powers differ, and there is an `i`
        refine iff_of_false ?_ fun hall => ?_
        · cases hk with
          | kilo h | mega h | giga h => decide
        · have hbin := hall b (List.mem_cons_of_mem _ List.mem_cons_self)
          rcases hb with rfl | rfl <;> cases hbin

/-- What is returned for a fraction. -/
theorem IsFraction.parseNumber_eq (h : IsFraction sign whole digits us mult (s.bytes.drop i)) :
    ∃ scale : Nat, (scale = mult ↔ ∀ c ∈ us, isBin c = false) ∧
      parseNumber s i Exact
        = some (.double (.num (signum sign * decimalValue whole digits * scale))) := by
  obtain ⟨tail, scale, rfl, htail, hscale, hmult⟩ := h.isSuffix.scale
  refine ⟨scale, hmult, ?_⟩
  have hi : i ≤ s.length := by
    refine le_length_of_drop h.text_eq ?_
    simp
  have hn : Numeral.Ok ⟨[], sign, .frac whole digits, tail⟩ :=
    ⟨List.forall_mem_nil _, h.isSign, ⟨h.wholePart, h.isDigits⟩, htail _⟩
  have htext : Numeral.text ⟨[], sign, .frac whole digits, tail⟩ = s.bytes.drop i :=
    h.text_eq.symm
  rw [parseNumber_of_ok hi hn htext, Numeral.result]
  dsimp only
  rw [Nat.mod_eq_of_lt h.fits, Exact.ofNat_eq, Exact.ofNat_eq, Exact.ofInt_eq, Nat.cast_one,
    fractionFrom_num one_ne_zero h.isDigits, hscale, Exact.num_mul, one_mul, decimalValue]
  congr 3
  ring

end Fractions

/-- What is returned for a fraction is its value with the multiplier of its suffix exactly if
    there is no `i` in the suffix or there are only zeros in the number. -/
theorem fraction_value_iff {s : CStr} {i mult : Nat} {sign : Option UInt8}
    {whole digits us : List UInt8} (h : IsFraction sign whole digits us mult (s.bytes.drop i)) :
    parseNumber s i Exact
        = some (.double (.num (signum sign * decimalValue whole digits * mult))) ↔
      (∀ c ∈ us, isBin c = false) ∨ ∀ c ∈ whole ++ digits, c = ch '0' := by
  obtain ⟨scale, hscale, hparse⟩ := h.parseNumber_eq
  rw [hparse, Option.some.injEq, NumResult.double.injEq, Exact.num.injEq, mul_eq_mul_left_iff,
    mul_eq_zero, or_iff_right (signum_ne_zero sign), Nat.cast_inj, hscale,
    decimalValue_eq_zero_iff h.whole_isDigit h.isDigits]

/-- `-1.5k` -/
def demoFraction : CStr := ⟨[45, 49, 46, 53, 107], by decide⟩

theorem fraction_value_kilo : parseNumber demoFraction 0 Exact
    = some (.double (.num ((-1 : Int) * decimalValue [49] [53] * (1000 : Nat)))) :=
  (@fraction_value_iff demoFraction 0 1000 (some (ch '-')) [49] [53] [107] {
    isSign := fun c hc => Or.inl (Option.mem_some.mp hc).symm
    isWhole := Or.inr (Or.inl ⟨49, [], rfl, by decide, rfl, List.forall_mem_nil _⟩)
    isDigits := List.forall_mem_singleton.mpr rfl
    isSuffix := .decimal (.kilo (Or.inl rfl))
    fits := by decide
    text_eq := rfl }).mpr (Or.inl (List.forall_mem_singleton.mpr rfl))

/-- `1.5ki` -/
def demoBinaryFraction : CStr := ⟨[49, 46, 53, 107, 105], by decide⟩

theorem demoBinaryFraction_isFraction :
    IsFraction none [49] [53] [107, 105] 1024 demoBinaryFraction.bytes where
  isSign := fun c hc => absurd hc (Option.not_mem_none c)
  isWhole := Or.inr (Or.inl ⟨49, [], rfl, by decide, rfl, List.forall_mem_nil _⟩)
  isDigits := List.forall_mem_singleton.mpr rfl
  isSuffix := .binary (.kilo (Or.inl rfl)) (Or.inl rfl)
  fits := by decide
  text_eq := rfl

/-- `1.5ki` is not read as 1536. -/
theorem fraction_value_fails :
    ¬ ∀ (s : CStr) (i mult : Nat) (sign : Option UInt8) (whole digits us : List UInt8),
      IsFraction sign whole digits us mult (s.bytes.drop i) →
      parseNumber s i Exact
        = some (.double (.num (signum sign * decimalValue whole digits * mult))) := by
  intro hall
  obtain ⟨scale, hscale, hparse⟩ := @IsFraction.parseNumber_eq demoBinaryFraction 0 _ _ _ _ _
    demoBinaryFraction_isFraction
  have hvalue := hparse.symm.trans (hall _ 0 _ _ _ _ _ demoBinaryFraction_isFraction)
  have hone : decimalValue [49] [53] ≠ 0 := fun hzero => absurd
    ((decimalValue_eq_zero_iff (List.forall_mem_singleton.mpr rfl)
      (List.forall_mem_singleton.mpr rfl)).mp hzero 49 List.mem_cons_self) (by decide)
  have hne := mul_ne_zero (signum_ne_zero none) hone
  rw [Option.some.injEq, NumResult.double.injEq, Exact.num.injEq, mul_right_inj' hne,
    Nat.cast_inj] at hvalue
  have hbin := hscale.mp hvalue 105 (by simp)
  cases hbin

end Camio.Parsing
