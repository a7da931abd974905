/-
  Camio.Parsing.Whitespace

  White space around a number.

  Leading white space is skipped.  Behind the number it is skipped too, except behind a
  plain zero and behind plain decimal digits: there the text is rejected.
-/

import Camio.Parsing.Acceptance

namespace Camio.Parsing

open Camio.Lib

/-- A zero, or decimal digits with or without a sign, and nothing else. -/
def PlainDecimal (text : List UInt8) : Prop :=
  text = [ch '0'] ∨ ∃ sign digits, text = Option.toList sign ++ digits ∧
    (∀ c ∈ sign, c = ch '-' ∨ c = ch '+') ∧ NonzeroLed digits

section Outcomes

variable {p : Parser} {n : Numeral} {s w : List UInt8} {c : UInt8}

theorem outcome_append (p : Parser) (l m : List UInt8) :
    outcome p (l ++ m) = outcome (feed p l) m := by
  induction l generalizing p with
  | nil => rfl
  | cons c l ih =>
      by_cases hp : p.state.isFinal = true
      · rw [outcome_final hp, feed_final hp, outcome_final hp]
      · rw [List.cons_append, outcome_cons (Bool.eq_false_iff.mpr hp), feed, if_neg hp]
        exact ih _

/-- The states in which a string may not end. -/
def State.Rejects : State → Prop
  | .init | .foundSign | .mustBeZeroOrPeriod | .noneFound => True
  | _ => False

theorem numResult_ne_noType (h : p.state = .finishedUint ∨ p.state = .finishedInt ∨
    p.state = .finishedFloat) : numResult p ≠ .noType := by
  rcases h with h | h | h
  · rw [numResult, h]
    dsimp only
    split
    next => exact fun h => by cases h
    next => exact fun h => by cases h
  · rw [numResult, h]
    exact fun h => by cases h
  · rw [numResult, h]
    exact fun h => by cases h

theorem rejects_of_outcome (h : outcome p [] = .noType) : p.state.Rejects := by
  have hend : p.state.isFinal = false → ((turn p 0).state = .finishedUint ∨
      (turn p 0).state = .finishedInt ∨ (turn p 0).state = .finishedFloat) → False := by
    intro hrun hfinished
    exact numResult_ne_noType hfinished (outcome_nil hrun ▸ h)
  cases hstate : p.state with
  | init | foundSign | mustBeZeroOrPeriod | noneFound => trivial
  | finishedUint | finishedInt | finishedFloat =>
      rw [outcome_final (by rw [hstate]; rfl)] at h
      exact numResult_ne_noType (by rw [hstate]; simp) h
  | foundInitZero | getDecDigits | getBinDigits | getOctDigits | getHexDigits | getFloDigits =>
      refine hend (by rw [hstate]; rfl) ?_
      rw [turn, hstate]
      simp [turnFoundInitZero, turnGetDecDigits, turnGetBinDigits, turnGetOctDigits,
        turnGetHexDigits, turnGetFloDigits, collectDigits, isPrefix, isWhite, isDigit, isXDigit,
        isODigit, isBDigit]
  | endUint | endInt | endFloat =>
      refine hend (by rw [hstate]; rfl) ?_
      rw [turn, hstate]
      cases hpre : isPrefix p.numPrefix with
      | false => simp [turnEndUint, turnEndInt, turnEndFloat, hpre, isWhite, isBin]
      | true => simp [turnEndUint, turnEndInt, turnEndFloat, hpre, isWhite, isBin]

theorem outcome_nil_of_init (h : p.state = .init) : outcome p [] = .noType := by
  rw [outcome_nil (by rw [h]; rfl), turn, h]
  rfl

/-- What is rejected is also rejected with white space behind it. -/
theorem outcome_white_of_rejected (hw : AllWhite w) (h : outcome p [] = .noType) :
    outcome p w = .noType := by
  induction w generalizing p with
  | nil => exact h
  | cons c w ih =>
      have hc := hw c List.mem_cons_self
      have hrest : AllWhite w := fun d hd => hw d (List.mem_cons_of_mem _ hd)
      have hrejects := rejects_of_outcome h
      cases hstate : p.state with
      | init =>
          -- the state stays
          have hturn : (turn p c).state = .init := by
            rw [turn, hstate]
            rcases isWhite_iff.mp hc with rfl | rfl | rfl | rfl <;> rfl
          rw [outcome_cons (by rw [hstate]; rfl)]
          exact ih hrest (outcome_nil_of_init hturn)
      | foundSign | mustBeZeroOrPeriod =>
          refine outcome_rejected (by rw [hstate]; rfl) ?_
          rw [turn, hstate]
          rcases isWhite_iff.mp hc with rfl | rfl | rfl | rfl <;> rfl
      | noneFound => exact not_accepted_of_noneFound hstate
      | foundInitZero | getDecDigits | getBinDigits | getOctDigits | getHexDigits
      | getFloDigits | endUint | endInt | endFloat | finishedUint | finishedInt | finishedFloat =>
          rw [hstate] at hrejects
          exact absurd hrejects id

/-- White space behind a zero or decimal digits is rejected. -/
theorem outcome_plainDecimal_white (hplain : PlainDecimal s) (hc : isWhite c = true) :
    outcome (start : Parser) (s ++ c :: w) = .noType := by
  rcases hplain with rfl | ⟨sign, digits, rfl, hsign, hdigits⟩
  · rw [List.cons_append, List.nil_append, turn_zero_head]
    refine not_accepted_of_noneFound ?_
    rcases isWhite_iff.mp hc with rfl | rfl | rfl | rfl <;> rfl
  · rw [List.append_assoc, outcome_sign hsign, outcome_nonzeroLed hdigits]
    refine outcome_rejected rfl ?_
    rcases isWhite_iff.mp hc with rfl | rfl | rfl | rfl <;> rfl

theorem plainDecimal_accepted (hplain : PlainDecimal s) :
    outcome (start : Parser) s ≠ .noType := by
  obtain ⟨n, hn, rfl⟩ : ∃ n : Numeral, n.Ok ∧ n.text = s := by
    have hwhite : AllWhite [] := List.forall_mem_nil _
    rcases hplain with rfl | ⟨sign, digits, rfl, hsign, hdigits⟩
    · have hnone : ∀ c ∈ none, c = ch '-' ∨ c = ch '+' := fun c hc =>
        absurd hc (Option.not_mem_none c)
      exact ⟨⟨[], none, .zero, .white []⟩, ⟨hwhite, hnone, rfl, tail_ok_nil _⟩, rfl⟩
    · refine ⟨⟨[], sign, .dec digits, .white []⟩, ⟨hwhite, hsign, hdigits, tail_ok_nil _⟩, ?_⟩
      rw [Numeral.text, Literal.text, Tail.text, List.append_nil, List.nil_append]
  rw [hn.outcome_eq]
  exact n.result_ne_noType

theorem suffixMultiplier_append (letter : UInt8) (rest : List UInt8) (hw : AllWhite w) :
    suffixMultiplier letter (rest ++ w) = suffixMultiplier letter rest := by
  rw [suffixMultiplier, suffixMultiplier, List.dropWhile_append]
  cases hrest : rest.dropWhile isWhite with
  | nil =>
      rw [List.dropWhile_eq_nil_iff.mpr hw]
      rfl
  | cons c l => rfl

/-- Any other text is accepted with white space behind it as it is without. -/
theorem Numeral.Ok.outcome_white (hn : n.Ok) (hstart : ∀ c ∈ n.text.head?, isWhite c = false)
    (hplain : ¬ PlainDecimal n.text) (hw : AllWhite w) :
    outcome (start : Parser) (n.text ++ w) = outcome start n.text := by
  obtain ⟨white, sign, literal, tail⟩ := n
  obtain ⟨hwhite, hsign, hliteral, htail⟩ := hn
  have htext : ∀ tail', Tail.text tail' = tail.text ++ w →
      Numeral.text ⟨white, sign, literal, tail'⟩
        = Numeral.text ⟨white, sign, literal, tail⟩ ++ w := by
    intro tail' htail'
    simp only [Numeral.text, htail', List.append_assoc]
  cases tail with
  | white v =>
      have htakes : literal.TakesWhite := by
        by_contra htakes
        refine hplain ?_
        have hv : v = [] := by
          by_contra hne
          exact htakes (htail.2 hne)
        have hnone : white = [] := by
          cases white with
          | nil => rfl
          | cons c white =>
              have hblack := hstart c rfl
              rw [hwhite c List.mem_cons_self] at hblack
              cases hblack
        subst hv hnone
        cases literal with
        | zero =>
            obtain rfl : sign = none := hliteral
            exact Or.inl rfl
        | dec digits =>
            refine Or.inr ⟨sign, digits, ?_, hsign, hliteral⟩
            rw [Numeral.text, Literal.text, Tail.text, List.append_nil, List.nil_append]
        | oct digits | hex x digits | bin b digits | frac whole digits =>
            exact absurd trivial htakes
      have hok : Numeral.Ok ⟨white, sign, literal, .white (v ++ w)⟩ := by
        refine ⟨hwhite, hsign, hliteral, fun c hc => ?_, fun _ => htakes⟩
        rcases List.mem_append.mp hc with hc | hc
        · exact htail.1 c hc
        · exact hw c hc
      rw [← htext (.white (v ++ w)) rfl, hok.outcome_eq,
        Numeral.Ok.outcome_eq ⟨hwhite, hsign, hliteral, htail⟩]
      rfl
  | suffix letter rest =>
      have hok : Numeral.Ok ⟨white, sign, literal, .suffix letter (rest ++ w)⟩ :=
        ⟨hwhite, hsign, hliteral, htail⟩
      rw [← htext (.suffix letter (rest ++ w)) rfl, hok.outcome_eq,
        Numeral.Ok.outcome_eq ⟨hwhite, hsign, hliteral, htail⟩, Numeral.result, Numeral.result]
      dsimp only [Tail.multiplier, Tail.scale]
      rw [suffixMultiplier_append letter rest hw]

end Outcomes

/-- White space around a text does not change what is returned, exactly if there is none
    behind it or the text is no plain decimal. -/
theorem parseNumber_white_iff {s t : CStr} {w1 w2 : List UInt8} (hw1 : AllWhite w1)
    (hw2 : AllWhite w2) (hstart : ∀ c ∈ s.bytes.head?, isWhite c = false)
    (ht : t.bytes = w1 ++ (s.bytes ++ w2)) :
    parseNumber t 0 = parseNumber s 0 ↔ w2 = [] ∨ ¬ PlainDecimal s.bytes := by
  rw [parseNumber_eq (Nat.zero_le _), parseNumber_eq (Nat.zero_le _), List.drop_zero,
    List.drop_zero, ht, outcome_white hw1, Option.some.injEq]
  cases w2 with
  | nil => simp
  | cons c w =>
      rw [or_iff_right (List.cons_ne_nil c w)]
      constructor
      · intro hsame hplain
        rw [outcome_plainDecimal_white hplain (hw2 c List.mem_cons_self)] at hsame
        exact plainDecimal_accepted hplain hsame.symm
      · intro hplain
        by_cases hrejected : outcome (start : Parser) s.bytes = .noType
        · rw [hrejected, outcome_append]
          refine outcome_white_of_rejected hw2 ?_
          rw [← outcome_append, List.append_nil]
          exact hrejected
        · obtain ⟨n, hn, htext⟩ := accepted s.noNul hrejected
          rw [← htext] at hstart hplain ⊢
          exact hn.outcome_white hstart hplain hw2

/-- `0x1F` -/
def demoHex : CStr := ⟨[48, 120, 49, 70], by decide⟩

theorem demoHex_not_plainDecimal : ¬ PlainDecimal demoHex.bytes := by
  rintro (h | ⟨sign, digits, h, hsign, d, ds, rfl, hd, -⟩)
  · cases h
  · cases sign with
    | none => exact hd (List.cons.inj h).1.symm
    | some c =>
        obtain rfl : 48 = c := (List.cons.inj h).1
        rcases hsign 48 rfl with hc | hc
        · exact absurd hc (by decide)
        · exact absurd hc (by decide)

theorem parseNumber_white_hex :
    parseNumber ⟨[32, 48, 120, 49, 70, 10, 32], by decide⟩ 0 = parseNumber demoHex 0 := by
  have hw1 : AllWhite [32] := by simp [AllWhite, isWhite]
  have hw2 : AllWhite [10, 32] := by simp [AllWhite, isWhite]
  have hstart : ∀ c ∈ demoHex.bytes.head?, isWhite c = false := by
    rintro c ⟨⟩
    rfl
  exact (parseNumber_white_iff hw1 hw2 hstart rfl).mpr (Or.inr demoHex_not_plainDecimal)

/-- `"1 "` is rejected. -/
theorem parseNumber_white_fails :
    ¬ ∀ (s t : CStr) (w1 w2 : List UInt8), s.bytes ≠ [] → AllWhite w1 → AllWhite w2 →
      (∀ c ∈ s.bytes.head?, isWhite c = false) → (∀ c ∈ s.bytes.getLast?, isWhite c = false) →
      t.bytes = w1 ++ (s.bytes ++ w2) → parseNumber t 0 = parseNumber s 0 := by
  intro hall
  have hw1 : AllWhite [] := by simp [AllWhite]
  have hw2 : AllWhite [32] := by simp [AllWhite, isWhite]
  have hone : ∀ c ∈ some (49 : UInt8), isWhite c = false := by
    rintro c ⟨⟩
    rfl
  have hsame := hall ⟨[49], by decide⟩ ⟨[49, 32], by decide⟩ [] [32] (List.cons_ne_nil _ _)
    hw1 hw2 hone hone rfl
  cases hsame

end Camio.Parsing
