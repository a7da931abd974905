/-
  Camio.Parsing.Rendering

  Numbers written down in the four bases, with a suffix, are read back.
-/

import Mathlib.Data.Nat.Digits.Lemmas
import Camio.Parsing.Acceptance

namespace Camio.Parsing

open Camio.Lib

/-- The digits of `n`, the most significant first; of zero, one. -/
def baseDigits (base n : Nat) : List Nat := if n = 0 then [0] else (Nat.digits base n).reverse

/-- Characters that are the digits of `n` in this base. -/
structure Renders (isDig : UInt8 → Bool) (base n : Nat) (digits : List UInt8) : Prop where
  isDig : ∀ c ∈ digits, isDig c = true
  values : digits.map digitValue = baseDigits base n

/-- The four ways to write `n`. -/
inductive Rendering (n : Nat) : List UInt8 → Prop where
  | dec {digits : List UInt8} : Renders isDigit 10 n digits → Rendering n digits
  | oct {digits : List UInt8} : Renders isODigit 8 n digits → Rendering n (ch '0' :: digits)
  | hex {x : UInt8} {digits : List UInt8} : x = ch 'x' ∨ x = ch 'X' →
      Renders isXDigit 16 n digits → Rendering n (ch '0' :: x :: digits)
  | bin {b : UInt8} {digits : List UInt8} : b = ch 'b' ∨ b = ch 'B' →
      Renders isBDigit 2 n digits → Rendering n (ch '0' :: b :: digits)

/-- The exponent of a suffix letter. -/
inductive UnitLetter : UInt8 → Nat → Prop where
  | kilo {k : UInt8} : k = ch 'k' ∨ k = ch 'K' → UnitLetter k 1
  | mega {k : UInt8} : k = ch 'm' ∨ k = ch 'M' → UnitLetter k 2
  | giga {k : UInt8} : k = ch 'g' ∨ k = ch 'G' → UnitLetter k 3

/-- A suffix and its multiplier. -/
inductive Suffix : List UInt8 → Nat → Prop where
  | none : Suffix [] 1
  | decimal {k : UInt8} {e : Nat} : UnitLetter k e → Suffix [k] (1000 ^ e)
  | binary {k b : UInt8} {e : Nat} : UnitLetter k e → b = ch 'i' ∨ b = ch 'I' →
      Suffix [k, b] (1024 ^ e)

section Digits

variable {isDig : UInt8 → Bool} {base n : Nat} {digits : List UInt8}

theorem digitsFrom_eq (base n : Nat) (digits : List UInt8) :
    digitsFrom base n digits
      = (digits.map digitValue).foldl (fun n d => n * base + d) n := by
  rw [digitsFrom, List.foldl_map]

/-- The value of the digits of `n` is `n`. -/
theorem Renders.value (h : Renders isDig base n digits) : digitsFrom base 0 digits = n := by
  rw [digitsFrom_eq, h.values, baseDigits]
  by_cases hn : n = 0
  · rw [if_pos hn, hn, List.foldl_cons, List.foldl_nil, Nat.zero_mul]
  · rw [if_neg hn, List.foldl_reverse]
    calc (Nat.digits base n).foldr (fun d n => n * base + d) 0
        = Nat.ofDigits base (Nat.digits base n) := by
          rw [Nat.ofDigits_eq_foldr]
          congr 1
          funext d n
          rw [Nat.cast_id, Nat.mul_comm, Nat.add_comm]
      _ = n := Nat.ofDigits_digits base n

theorem Renders.ne_nil (h : Renders isDig base n digits) : digits ≠ [] := by
  rintro rfl
  have hvalues := h.values
  rw [baseDigits] at hvalues
  by_cases hn : n = 0
  · rw [if_pos hn] at hvalues
    cases hvalues
  · rw [if_neg hn] at hvalues
    have hdigits := List.reverse_eq_nil_iff.mp hvalues.symm
    exact hn (Nat.digits_eq_nil_iff_eq_zero.mp hdigits)

/-- The first digit of a number other than zero is not `'0'`. -/
theorem Renders.nonzeroLed (h : Renders isDigit 10 n digits) (hn : n ≠ 0) : NonzeroLed digits := by
  obtain ⟨d, ds, rfl⟩ := List.exists_cons_of_ne_nil h.ne_nil
  refine ⟨d, ds, rfl, ?_, h.isDig d List.mem_cons_self,
    fun c hc => h.isDig c (List.mem_cons_of_mem _ hc)⟩
  rintro rfl
  have hvalues := h.values
  rw [baseDigits, if_neg hn, List.map_cons, show digitValue (ch '0') = 0 from rfl] at hvalues
  have hdigits : Nat.digits 10 n = (ds.map digitValue).reverse ++ [0] := by
    rw [← List.reverse_cons, hvalues, List.reverse_reverse]
  have hlast := Nat.getLast_digit_ne_zero 10 hn
  simp [hdigits] at hlast

/-- The one digit of zero. -/
theorem Renders.eq_zero (h : Renders isDigit 10 0 digits) : digits = [ch '0'] := by
  obtain ⟨d, ds, rfl⟩ := List.exists_cons_of_ne_nil h.ne_nil
  have hvalues := h.values
  rw [baseDigits, if_pos rfl, List.map_cons] at hvalues
  obtain ⟨hvalue, hds⟩ := List.cons.inj hvalues
  have hd := h.isDig d List.mem_cons_self
  rw [digitValue_of_isDigit hd] at hvalue
  rw [List.map_eq_nil_iff.mp hds, show d = ch '0' from ?_]
  apply UInt8.toNat_inj.mp
  have hrange := isDigit_iff.mp hd
  show d.toNat = 48
  omega

end Digits

/-! ## Suffixes -/

section Suffixes

variable {k : UInt8} {e mult n : Nat} {us ds : List UInt8}

theorem UnitLetter.isPrefix (h : UnitLetter k e) : isPrefix k = true := by
  cases h with
  | kilo h | mega h | giga h => rcases h with rfl | rfl <;> rfl

theorem UnitLetter.getPrefix_eq (h : UnitLetter k e) : getPrefix k = 1000 ^ e := by
  cases h with
  | kilo h | mega h | giga h => rcases h with rfl | rfl <;> rfl

theorem UnitLetter.getBinPrefix_eq (h : UnitLetter k e) : getBinPrefix k = 1024 ^ e := by
  cases h with
  | kilo h | mega h | giga h => rcases h with rfl | rfl <;> rfl

/-- A suffix is a tail behind any literal. -/
theorem Suffix.tail (h : Suffix us mult) :
    ∃ tail : Tail, tail.text = us ∧ tail.multiplier = mult ∧ ∀ literal, tail.Ok literal := by
  cases h with
  | none =>
      exact ⟨.white [], rfl, rfl, tail_ok_nil⟩
  | decimal hk => exact ⟨.suffix _ [], rfl, hk.getPrefix_eq, fun _ => hk.isPrefix⟩
  | @binary k b e hk hb =>
      refine ⟨.suffix k [b], rfl, ?_, fun _ => hk.isPrefix⟩
      rw [← hk.getBinPrefix_eq]
      rcases hb with rfl | rfl <;> rfl

/-- A rendering is a literal without a sign. -/
theorem Rendering.literal (h : Rendering n ds) :
    ∃ literal : Literal, literal.text = ds ∧ literal.value = n ∧ literal.Ok none ∧
      literal.IsInteger := by
  cases h with
  | dec h =>
      by_cases hn : n = 0
      · subst hn
        exact ⟨.zero, h.eq_zero.symm, rfl, rfl, trivial⟩
      · exact ⟨.dec ds, rfl, h.value, h.nonzeroLed hn, trivial⟩
  | oct h => exact ⟨.oct _, rfl, h.value, ⟨rfl, h.ne_nil, h.isDig⟩, trivial⟩
  | hex hx h => exact ⟨.hex _ _, rfl, h.value, ⟨rfl, hx, h.isDig⟩, trivial⟩
  | bin hb h => exact ⟨.bin _ _, rfl, h.value, ⟨rfl, hb, h.isDig⟩, trivial⟩

theorem Rendering.ne_nil (h : Rendering n ds) : ds ≠ [] := by
  cases h with
  | dec h => exact h.ne_nil
  | oct h | hex hx h | bin hb h => exact List.cons_ne_nil _ _

end Suffixes

/-! ## Reading back -/

/-- A rendering with a suffix is read as the product, if it fits; and a decimal one behind
    a minus sign as its negative. -/
theorem parse_inverts_rendering :
    (∀ (s : CStr) (i n mult : Nat) (ds us : List UInt8), Rendering n ds → Suffix us mult →
      n * mult < 2 ^ 64 → s.bytes.drop i = ds ++ us →
      parseNumber s i = some (.uint64 (n * mult))) ∧
    ∀ (s : CStr) (i n mult : Nat) (ds us : List UInt8), Renders isDigit 10 n ds → 1 ≤ n →
      Suffix us mult → n * mult ≤ 2 ^ 63 → s.bytes.drop i = ch '-' :: (ds ++ us) →
      parseNumber s i = some (.int64 (-(n * mult : Nat))) := by
  constructor
  · intro s i n mult ds us hrendering hsuffix hfit htext
    have hi := le_length_of_drop htext (List.append_ne_nil_of_left_ne_nil hrendering.ne_nil _)
    obtain ⟨literal, rfl, rfl, hok, hint⟩ := hrendering.literal
    obtain ⟨tail, rfl, rfl, htail⟩ := hsuffix.tail
    have hn : Numeral.Ok ⟨[], none, literal, tail⟩ :=
      ⟨List.forall_mem_nil _, fun c hc => absurd hc (Option.not_mem_none c),
        hok, htail literal⟩
    rw [parseNumber_of_ok hi hn htext.symm, Numeral.result_of_isInteger hint]
    have huint : (wrapped (signum none) (literal.value * tail.multiplier) : NumResult)
        = .uint64 (literal.value * tail.multiplier % 2 ^ 64) := rfl
    rw [huint, Nat.mod_eq_of_lt hfit]
  · intro s i n mult ds us hrenders hpos hsuffix hfit htext
    have hi := le_length_of_drop htext (List.cons_ne_nil _ _)
    obtain ⟨tail, rfl, rfl, htail⟩ := hsuffix.tail
    have hn : Numeral.Ok ⟨[], some (ch '-'), .dec ds, tail⟩ :=
      ⟨List.forall_mem_nil _, fun c hc => Or.inl (Option.mem_some.mp hc).symm,
        hrenders.nonzeroLed (Nat.ne_of_gt hpos), htail _⟩
    have hint : Numeral.result ⟨[], some (ch '-'), .dec ds, tail⟩
        = .int64 ((-(digitsFrom 10 0 ds * tail.multiplier : Nat) : Int).bmod (2 ^ 64)) := rfl
    rw [parseNumber_of_ok hi hn htext.symm, hint, hrenders.value]
    congr 2
    rw [Int.bmod]
    omega

/-- `0x1fKi` -/
theorem parse_inverts_rendering_hex :
    parseNumber ⟨[48, 120, 49, 102, 75, 105], by decide⟩ 0 = some (.uint64 (31 * 1024)) := by
  have hdigits : Renders isXDigit 16 31 [49, 102] :=
    ⟨by simp [isXDigit, isDigit], by simp [baseDigits]; decide⟩
  exact parse_inverts_rendering.1 _ 0 31 1024 _ _ (.hex (Or.inl rfl) hdigits)
    (.binary (.kilo (Or.inr rfl)) (Or.inl rfl)) (by decide) rfl

end Camio.Parsing
