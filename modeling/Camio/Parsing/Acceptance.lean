/-
  Camio.Parsing.Acceptance

  The other direction: every text that the parser accepts can be taken apart as in
  `Camio.Parsing.Numeral`.  From each state on, the rest of an accepted text is what the
  state still admits.
-/

import Camio.Parsing.Reading

namespace Camio.Parsing

open Camio.Lib

variable {F : Type} [Double F]

section States
variable {p : Parser F} {c : UInt8} {l : List UInt8}

/-- In `STATE_NONE_FOUND` nothing is accepted any more. -/
theorem outcome_rejected (hrun : p.state.isFinal = false) (hc : (turn p c).state = .noneFound) :
    outcome p (c :: l) = .noType := by
  rw [outcome_cons hrun, outcome_final (by rw [hc]; rfl), numResult, hc]

/-- Without a suffix letter, only white space is accepted in an end state. -/
theorem allWhite_of_accepted (hstate : p.state = .endUint ∨ p.state = .endFloat)
    (hpre : p.numPrefix = 0) (hnul : 0 ∉ l) (h : outcome p l ≠ .noType) : AllWhite l := by
  induction l generalizing p with
  | nil => exact List.forall_mem_nil _
  | cons c l ih =>
      have hrun : p.state.isFinal = false := by
        rcases hstate with hstate | hstate <;> rw [hstate] <;> rfl
      by_cases hc : isWhite c = true
      · have hturn : turn p c = p := by
          rcases hstate with hstate | hstate
          · rw [turn, hstate]
            dsimp only
            rw [turnEndUint, if_pos hc, ← hstate]
          · rw [turn, hstate]
            dsimp only
            rw [turnEndFloat, if_pos hc, ← hstate]
        rw [outcome_cons hrun, hturn] at h
        have hrest := ih hstate hpre (fun hmem => hnul (List.mem_cons_of_mem _ hmem)) h
        exact List.forall_mem_cons.mpr ⟨hc, hrest⟩
      · have hne : c ≠ 0 := fun h0 => hnul (h0 ▸ List.mem_cons_self)
        refine absurd (outcome_rejected hrun ?_) h
        have hzero : isPrefix 0 = false := rfl
        rcases hstate with hstate | hstate
        · rw [turn, hstate]
          simp [turnEndUint, hc, hpre, hzero, hne]
        · rw [turn, hstate]
          simp [turnEndFloat, hc, hpre, hzero, hne, isBin]

/-- The states that collect digits and take white space behind them, by what they do with the
    next character. -/
structure Scans (state endState : State) (isDig : UInt8 → Bool) : Prop where
  running : state.isFinal = false
  isEnd : endState = .endUint ∨ endState = .endFloat
  digit : ∀ {F : Type} [Double F] (p : Parser F) c, p.state = state → isDig c = true →
    (turn p c).state = state ∧ (turn p c).numPrefix = p.numPrefix
  white : ∀ {F : Type} [Double F] (p : Parser F) c, p.state = state → isDig c = false →
    isPrefix c = false → isWhite c = true →
    (turn p c).state = endState ∧ (turn p c).numPrefix = p.numPrefix
  other : ∀ {F : Type} [Double F] (p : Parser F) c, p.state = state → isDig c = false →
    isPrefix c = false → isWhite c = false → c ≠ 0 → (turn p c).state = .noneFound

theorem TakesWhite.scans {state : State} {isDig : UInt8 → Bool} (h : TakesWhite state isDig) :
    Scans state .endUint isDig := by
  obtain ⟨accumulate, hturn⟩ := h.turn
  refine ⟨h.running, Or.inl rfl, ?_, ?_, ?_⟩
  · intro F _ p c hp hdig
    rw [hturn p hp, collectDigits, if_pos hdig]
    exact ⟨rfl, rfl⟩
  · intro F _ p c hp hdig hpre hwhite
    rw [hturn p hp, collectDigits, hdig, hpre, hwhite]
    exact ⟨rfl, rfl⟩
  · intro F _ p c hp hdig hpre hwhite hne
    rw [hturn p hp, collectDigits, hdig, hpre, hwhite]
    simp [hne]

theorem scans_flo : Scans .getFloDigits .endFloat isDigit := by
  have hturn : ∀ {F : Type} [Double F] (p : Parser F), p.state = .getFloDigits →
      turn p = turnGetFloDigits p := by
    intro F _ p hp
    funext c
    rw [turn, hp]
  refine ⟨rfl, Or.inr rfl, ?_, ?_, ?_⟩
  · intro F _ p c hp hdig
    rw [hturn p hp, turnGetFloDigits, if_pos hdig]
    exact ⟨rfl, rfl⟩
  · intro F _ p c hp hdig hpre hwhite
    rw [hturn p hp, turnGetFloDigits, hdig, hpre, hwhite]
    exact ⟨rfl, rfl⟩
  · intro F _ p c hp hdig hpre hwhite hne
    rw [hturn p hp, turnGetFloDigits, hdig, hpre, hwhite]
    simp [hne]

/-- What is accepted in such a state are digits and a tail. -/
theorem Scans.accepted {state endState : State} {isDig : UInt8 → Bool}
    (h : Scans state endState isDig) (hacc : outcome p l ≠ .noType) (hstate : p.state = state)
    (hpre : p.numPrefix = 0) (hnul : 0 ∉ l) :
    ∃ digits tail, l = digits ++ Tail.text tail ∧ (∀ c ∈ digits, isDig c = true) ∧
      ∀ literal : Literal, literal.TakesWhite → tail.Ok literal := by
  induction l generalizing p with
  | nil =>
      exact ⟨[], .white [], rfl, List.forall_mem_nil _, fun literal _ => tail_ok_nil literal⟩
  | cons c l ih =>
      have hrun : p.state.isFinal = false := hstate ▸ h.running
      have hrest : 0 ∉ l := fun hmem => hnul (List.mem_cons_of_mem _ hmem)
      cases hdig : isDig c with
      | true =>
          obtain ⟨hstay, hkept⟩ := h.digit p c hstate hdig
          rw [outcome_cons hrun] at hacc
          obtain ⟨digits, tail, rfl, hdigits, htail⟩ := ih hacc hstay (hkept.trans hpre) hrest
          exact ⟨c :: digits, tail, rfl, List.forall_mem_cons.mpr ⟨hdig, hdigits⟩, htail⟩
      | false =>
          refine ⟨[], ?_⟩
          cases hletter : isPrefix c with
          | true =>
              exact ⟨.suffix c l, rfl, List.forall_mem_nil _, fun _ _ => hletter⟩
          | false =>
              cases hwhite : isWhite c with
              | true =>
                  obtain ⟨hend, hkept⟩ := h.white p c hstate hdig hletter hwhite
                  rw [outcome_cons hrun] at hacc
                  have hall := allWhite_of_accepted (hend ▸ h.isEnd) (hkept.trans hpre) hrest hacc
                  refine ⟨.white (c :: l), rfl, List.forall_mem_nil _, ?_⟩
                  exact fun literal hliteral =>
                    ⟨List.forall_mem_cons.mpr ⟨hwhite, hall⟩, fun _ => hliteral⟩
              | false =>
                  have hne : c ≠ 0 := fun h0 => hnul (h0 ▸ List.mem_cons_self)
                  have hnone := h.other p c hstate hdig hletter hwhite hne
                  exact absurd (outcome_rejected hrun hnone) hacc

/-- A literal that is accepted behind this sign, with a tail. -/
def Accepts (sign : Option UInt8) (l : List UInt8) : Prop :=
  ∃ literal tail, l = Literal.text literal ++ Tail.text tail ∧ literal.Ok sign ∧ tail.Ok literal

/-- Behind a period. -/
theorem accepts_fraction {sign : Option UInt8} {whole : List UInt8}
    (hacc : outcome p l ≠ .noType) (hwhole : WholePart sign whole)
    (hstate : p.state = .getFloDigits) (hpre : p.numPrefix = 0) (hnul : 0 ∉ l) :
    Accepts sign (whole ++ ch '.' :: l) := by
  obtain ⟨digits, tail, rfl, hdigits, htail⟩ := scans_flo.accepted hacc hstate hpre hnul
  refine ⟨.frac whole digits, tail, ?_, ⟨hwhole, hdigits⟩, htail _ trivial⟩
  rw [Literal.text, List.append_assoc, List.cons_append]

/-- Behind decimal digits. -/
theorem accepts_dec {sign : Option UInt8} {digits : List UInt8} (hacc : outcome p l ≠ .noType)
    (hdigits : NonzeroLed digits) (hstate : p.state = .getDecDigits) (hpre : p.numPrefix = 0)
    (hnul : 0 ∉ l) : Accepts sign (digits ++ l) := by
  induction l generalizing p digits with
  | nil =>
      exact ⟨.dec digits, .white [], rfl, hdigits, tail_ok_nil _⟩
  | cons c l ih =>
      have hrun : p.state.isFinal = false := hstate ▸ rfl
      have hrest : 0 ∉ l := fun hmem => hnul (List.mem_cons_of_mem _ hmem)
      have hne : c ≠ 0 := fun h0 => hnul (h0 ▸ List.mem_cons_self)
      have hturn : turn p c = turnGetDecDigits p c := by rw [turn, hstate]
      by_cases hdigit : isDigit c = true
      · obtain ⟨d, ds, rfl, hzero, hd, hds⟩ := hdigits
        have hled : NonzeroLed (d :: ds ++ [c]) := by
          refine ⟨d, ds ++ [c], rfl, hzero, hd, fun e he => ?_⟩
          rcases List.mem_append.mp he with he | he
          · exact hds e he
          · rwa [List.mem_singleton.mp he]
        rw [outcome_cons hrun, hturn, turnGetDecDigits, if_pos hdigit] at hacc
        rw [List.append_cons]
        exact ih hacc hled rfl hpre hrest
      · by_cases hperiod : c = ch '.'
        · subst hperiod
          rw [outcome_cons hrun, hturn, turnGetDecDigits, if_neg hdigit, if_pos rfl] at hacc
          exact accepts_fraction hacc (Or.inr (Or.inl hdigits)) rfl hpre hrest
        · by_cases hletter : isPrefix c = true
          · exact ⟨.dec digits, .suffix c l, rfl, hdigits, hletter⟩
          · refine absurd (outcome_rejected hrun ?_) hacc
            have hwhite : ¬ (c = ch 'E' ∧ isWhite c = true) := by
              rintro ⟨rfl, hwhite⟩
              cases hwhite
            rw [hturn, turnGetDecDigits, if_neg hdigit, if_neg hperiod, if_neg hletter,
              if_neg hwhite, if_neg hne]

/-- At the end of the string, the states before a literal accept nothing. -/
theorem cons_of_accepted (hrun : p.state.isFinal = false) (hend : (turn p 0).state = .noneFound)
    (hacc : outcome p l ≠ .noType) : ∃ c r, l = c :: r ∧ outcome (turn p c) r ≠ .noType := by
  cases l with
  | nil =>
      refine absurd ?_ hacc
      rw [outcome_nil hrun, numResult, hend]
  | cons c r => exact ⟨c, r, rfl, by rwa [outcome_cons hrun] at hacc⟩

theorem not_accepted_of_noneFound (h : p.state = .noneFound) : outcome p l = .noType := by
  rw [outcome_final (by rw [h]; rfl), numResult, h]

/-- Behind a sign and zeros. -/
theorem accepts_zeros {sign : UInt8} {k : Nat} (hacc : outcome p l ≠ .noType)
    (hstate : p.state = .mustBeZeroOrPeriod) (hpre : p.numPrefix = 0) (hnul : 0 ∉ l) :
    Accepts (some sign) (List.replicate (k + 1) (ch '0') ++ l) := by
  induction l generalizing p k with
  | nil =>
      obtain ⟨c, r, hl, -⟩ := cons_of_accepted (hstate ▸ rfl) (by rw [turn, hstate]; rfl) hacc
      cases hl
  | cons c l ih =>
      have hturn : turn p c = turnMustBeZeroOrPeriod p c := by rw [turn, hstate]
      have hrest : 0 ∉ l := fun hmem => hnul (List.mem_cons_of_mem _ hmem)
      rw [outcome_cons (hstate ▸ rfl), hturn, turnMustBeZeroOrPeriod] at hacc
      by_cases hzero : c = ch '0'
      · rw [if_pos hzero] at hacc
        rw [hzero, List.append_cons, ← List.replicate_succ']
        exact ih hacc rfl hpre hrest
      · rw [if_neg hzero] at hacc
        by_cases hperiod : c = ch '.'
        · rw [if_pos hperiod] at hacc
          rw [hperiod]
          have hwhole : WholePart (some sign) (List.replicate (k + 1) (ch '0')) :=
            Or.inr (Or.inr ⟨k, rfl, fun h => absurd h (Option.some_ne_none _)⟩)
          exact accepts_fraction hacc hwhole rfl hpre hrest
        · rw [if_neg hperiod] at hacc
          exact absurd (not_accepted_of_noneFound rfl) hacc

/-- Behind a sign. -/
theorem accepts_signed {sign : UInt8} (hacc : outcome p l ≠ .noType) (hstate : p.state = .foundSign)
    (hpre : p.numPrefix = 0) (hnul : 0 ∉ l) : Accepts (some sign) l := by
  obtain ⟨c, r, rfl, hrun⟩ := cons_of_accepted (hstate ▸ rfl) (by rw [turn, hstate]; rfl) hacc
  have hturn : turn p c = turnFoundSign p c := by rw [turn, hstate]
  have hrest : 0 ∉ r := fun hmem => hnul (List.mem_cons_of_mem _ hmem)
  rw [hturn, turnFoundSign] at hrun
  by_cases hzero : c = ch '0'
  · rw [if_pos hzero] at hrun
    rw [hzero]
    exact accepts_zeros (k := 0) hrun rfl hpre hrest
  · rw [if_neg hzero] at hrun
    by_cases hperiod : c = ch '.'
    · rw [if_pos hperiod] at hrun
      rw [hperiod]
      exact accepts_fraction hrun (Or.inl rfl) rfl hpre hrest
    · rw [if_neg hperiod] at hrun
      by_cases hdigit : isDigit c = true
      · rw [if_pos hdigit] at hrun
        have hled : NonzeroLed [c] :=
          ⟨c, [], rfl, hzero, hdigit, List.forall_mem_nil _⟩
        exact accepts_dec hrun hled rfl hpre hrest
      · rw [if_neg hdigit] at hrun
        exact absurd (not_accepted_of_noneFound rfl) hrun

/-- Behind a zero without a sign. -/
theorem accepts_zero (hacc : outcome p l ≠ .noType) (hstate : p.state = .foundInitZero)
    (hpre : p.numPrefix = 0) (hnul : 0 ∉ l) : Accepts none (ch '0' :: l) := by
  cases l with
  | nil =>
      exact ⟨.zero, .white [], rfl, rfl, tail_ok_nil _⟩
  | cons c r =>
      have hturn : turn p c = turnFoundInitZero p c := by rw [turn, hstate]
      have hrest : 0 ∉ r := fun hmem => hnul (List.mem_cons_of_mem _ hmem)
      have hne : c ≠ 0 := fun h0 => hnul (h0 ▸ List.mem_cons_self)
      rw [outcome_cons (hstate ▸ rfl), hturn] at hacc
      by_cases hx : c = ch 'x' ∨ c = ch 'X'
      · have hstep : turnFoundInitZero p c = { p with state := .getHexDigits } := by
          rcases hx with rfl | rfl <;> rfl
        rw [hstep] at hacc
        obtain ⟨digits, tail, rfl, hdigits, htail⟩ :=
          takesWhite_hex.scans.accepted hacc rfl hpre hrest
        exact ⟨.hex c digits, tail, rfl,
          ⟨rfl, hx, fun d hd => takesWhite_hex.isXDigit d (hdigits d hd)⟩, htail _ trivial⟩
      · by_cases hb : c = ch 'b' ∨ c = ch 'B'
        · have hstep : turnFoundInitZero p c = { p with state := .getBinDigits } := by
            rcases hb with rfl | rfl <;> rfl
          rw [hstep] at hacc
          obtain ⟨digits, tail, rfl, hdigits, htail⟩ :=
            takesWhite_bin.scans.accepted hacc rfl hpre hrest
          exact ⟨.bin c digits, tail, rfl, ⟨rfl, hb, hdigits⟩, htail _ trivial⟩
        · obtain ⟨hx1, hx2⟩ := not_or.mp hx
          obtain ⟨hb1, hb2⟩ := not_or.mp hb
          rw [turnFoundInitZero, if_neg hx1, if_neg hx2, if_neg hb1, if_neg hb2] at hacc
          by_cases hperiod : c = ch '.'
          · rw [if_pos hperiod] at hacc
            rw [hperiod]
            exact accepts_fraction hacc (Or.inr (Or.inr ⟨0, rfl, fun _ => rfl⟩)) rfl hpre hrest
          · rw [if_neg hperiod, if_neg hne] at hacc
            by_cases hletter : isPrefix c = true
            · exact ⟨.zero, .suffix c r, rfl, rfl, hletter⟩
            · rw [if_neg hletter] at hacc
              by_cases hdigit : isODigit c = true
              · rw [if_pos hdigit] at hacc
                obtain ⟨digits, tail, rfl, hdigits, htail⟩ :=
                  takesWhite_oct.scans.accepted hacc rfl hpre hrest
                exact ⟨.oct (c :: digits), tail, rfl, ⟨rfl, List.cons_ne_nil _ _,
                  List.forall_mem_cons.mpr ⟨hdigit, hdigits⟩⟩, htail _ trivial⟩
              · rw [if_neg hdigit] at hacc
                exact absurd (not_accepted_of_noneFound rfl) hacc

/-- Every text that is accepted is one of those. -/
theorem accepted (hnul : 0 ∉ l) (hacc : outcome (start : Parser F) l ≠ .noType) :
    ∃ n : Numeral, n.Ok ∧ n.text = l := by
  have hsplit := List.takeWhile_append_dropWhile (p := isWhite) (l := l)
  have hwhite : AllWhite (l.takeWhile isWhite) := fun c hc => List.mem_takeWhile_imp hc
  rw [← hsplit, outcome_white hwhite] at hacc
  suffices h : ∃ sign r, l.dropWhile isWhite = Option.toList sign ++ r ∧
      (∀ c ∈ sign, c = ch '-' ∨ c = ch '+') ∧ Accepts sign r by
    obtain ⟨sign, r, hr, hsign, literal, tail, rfl, hliteral, htail⟩ := h
    refine ⟨⟨l.takeWhile isWhite, sign, literal, tail⟩, ⟨hwhite, hsign, hliteral, htail⟩, ?_⟩
    rw [Numeral.text, ← hr, hsplit]
  have hhead := List.head?_dropWhile_not isWhite l
  have hnul' : 0 ∉ l.dropWhile isWhite := fun hmem =>
    hnul ((List.dropWhile_suffix isWhite).subset hmem)
  generalize l.dropWhile isWhite = r at hhead hacc hnul'
  obtain ⟨c, r, rfl, hrun⟩ := cons_of_accepted rfl rfl hacc
  have hturn : turn (start : Parser F) c = turnInit start c := rfl
  have hrest : 0 ∉ r := fun hmem => hnul' (List.mem_cons_of_mem _ hmem)
  have hblack : ¬ isWhite c = true := by
    simpa using hhead
  rw [hturn, turnInit] at hrun
  by_cases hminus : c = ch '-'
  · rw [if_pos hminus] at hrun
    exact ⟨some c, r, rfl, fun d hd => Or.inl (Option.mem_some.mp hd ▸ hminus),
      accepts_signed hrun rfl rfl hrest⟩
  · rw [if_neg hminus] at hrun
    by_cases hplus : c = ch '+'
    · rw [if_pos hplus] at hrun
      exact ⟨some c, r, rfl, fun d hd => Or.inr (Option.mem_some.mp hd ▸ hplus),
        accepts_signed hrun rfl rfl hrest⟩
    · refine ⟨none, c :: r, rfl, fun d hd => absurd hd (Option.not_mem_none d), ?_⟩
      rw [if_neg hplus] at hrun
      by_cases hperiod : c = ch '.'
      · rw [if_pos hperiod] at hrun
        rw [hperiod]
        exact accepts_fraction hrun (Or.inl rfl) rfl rfl hrest
      · rw [if_neg hperiod] at hrun
        by_cases hzero : c = ch '0'
        · rw [if_pos hzero] at hrun
          rw [hzero]
          exact accepts_zero hrun rfl rfl hrest
        · rw [if_neg hzero] at hrun
          by_cases hdigit : isDigit c = true
          · rw [if_pos hdigit] at hrun
            have hled : NonzeroLed [c] :=
              ⟨c, [], rfl, hzero, hdigit, List.forall_mem_nil _⟩
            exact accepts_dec hrun hled rfl rfl hrest
          · rw [if_neg hdigit, if_neg hblack] at hrun
            exact absurd (not_accepted_of_noneFound rfl) hrun

end States
/-! ## `parse_number` -/

section Calls

variable {s : CStr} {i : Nat} {n : Numeral} {r : NumResult F}

theorem parseNumber_le (h : parseNumber s i F = some r) : i ≤ s.length := by
  by_contra hlt
  rw [parseNumber, CStr.charAt_eq_none (Nat.lt_of_not_le hlt)] at h
  cases h

/-- There is a text behind index `i`, so `i` is in the string. -/
theorem le_length_of_drop {s : CStr} {i : Nat} {text : List UInt8} (h : s.bytes.drop i = text)
    (hne : text ≠ []) : i ≤ s.length := by
  obtain ⟨c, r, rfl⟩ := List.exists_cons_of_ne_nil hne
  exact Nat.le_of_lt (CStr.of_drop_eq_cons h).1

/-- On a text that is taken apart, the parser returns its result. -/
theorem parseNumber_of_ok (hi : i ≤ s.length) (hn : n.Ok) (htext : n.text = s.bytes.drop i) :
    parseNumber s i F = some (n.result F) := by
  rw [parseNumber_eq hi, ← htext, hn.outcome_eq]

theorem Numeral.result_ne_noType (n : Numeral) : n.result F ≠ .noType := by
  obtain ⟨white, sign, literal, tail⟩ := n
  have hwrapped : ∀ m, wrapped (signum sign) m ≠ (.noType : NumResult F) := by
    intro m
    rw [wrapped]
    split
    next => exact fun h => by cases h
    next => exact fun h => by cases h
  cases literal with
  | frac whole digits => exact fun h => by cases h
  | zero | dec digits | oct digits | hex x digits | bin b digits => exact hwrapped _

/-- A text on which the parser returns a number can be taken apart, and that is its result. -/
theorem parseNumber_accepted (h : parseNumber s i F = some r) (hr : r ≠ .noType) :
    ∃ n : Numeral, n.Ok ∧ n.text = s.bytes.drop i ∧ r = n.result F := by
  have hi := parseNumber_le h
  have hnul : 0 ∉ s.bytes.drop i := fun hmem => s.noNul (List.mem_of_mem_drop hmem)
  rw [parseNumber_eq hi, Option.some.injEq] at h
  obtain ⟨n, hn, htext⟩ := accepted hnul (h ▸ hr)
  exact ⟨n, hn, htext, by rw [← h, ← htext, hn.outcome_eq]⟩

end Calls

end Camio.Parsing
