/-
  Camio.Parsing.Reading

  The parser accepts the texts of `Camio.Parsing.Numeral` and returns their results: what it
  does from each state on, character by character.
-/

import Camio.Parsing.Numeral

namespace Camio.Parsing

open Camio.Lib

variable {F : Type} [Double F]

/-! ## Characters -/

section Characters

variable {c : UInt8}

theorem isWhite_iff : isWhite c = true ↔ c = ch '\r' ∨ c = ch '\n' ∨ c = ch ' ' ∨ c = ch '\t' := by
  simp [isWhite, or_assoc]

theorem isPrefix_iff : isPrefix c = true ↔
    c = ch 'k' ∨ c = ch 'K' ∨ c = ch 'm' ∨ c = ch 'M' ∨ c = ch 'g' ∨ c = ch 'G' := by
  simp [isPrefix, or_assoc]

theorem isDigit_iff : isDigit c = true ↔ 48 ≤ c.toNat ∧ c.toNat ≤ 57 := by
  simp [isDigit]

theorem isDigit_of_isODigit (hc : isODigit c = true) : isDigit c = true := by
  simp only [isODigit, isDigit, Bool.and_eq_true, decide_eq_true_eq] at hc ⊢
  omega

theorem isDigit_of_isBDigit (hc : isBDigit c = true) : isDigit c = true := by
  simp only [isBDigit, isDigit, Bool.and_eq_true, decide_eq_true_eq] at hc ⊢
  omega

/-- What is no digit in any base. -/
theorem isDigit_of_isPrefix (hc : isPrefix c = true) :
    isXDigit c = false ∧ isDigit c = false ∧ isWhite c = false ∧ c ≠ ch '.' ∧ c ≠ 0 := by
  rcases isPrefix_iff.mp hc with rfl | rfl | rfl | rfl | rfl | rfl <;> decide

theorem isDigit_of_isWhite (hc : isWhite c = true) :
    isXDigit c = false ∧ isDigit c = false ∧ isPrefix c = false ∧ c ≠ ch '.' ∧ c ≠ 0 := by
  rcases isWhite_iff.mp hc with rfl | rfl | rfl | rfl <;> decide

theorem isXDigit_of_isDigit (hc : isDigit c = true) : isXDigit c = true := by
  rw [isXDigit, hc]
  rfl

theorem digitValue_of_isDigit (hc : isDigit c = true) : digitValue c = c.toNat - 48 := if_pos hc

end Characters

/-! ## Integers -/

/-- The parser collecting the digits of an integer. -/
def collecting (state : State) (sign : Int) (n : Nat) : Parser F :=
  { start with state := state, sign := sign, uintAccumulator := n % 2 ^ 64 }

/-- The parser behind an integer, with the suffix letter or 0. -/
def ending (sign : Int) (n : Nat) (letter : UInt8) : Parser F :=
  { collecting .endUint sign n with numPrefix := letter }

section Integers

variable {sign : Int} {n : Nat} {c letter : UInt8} {l w : List UInt8}

theorem bmod_mul_neg_one (n : Nat) :
    (((n % 2 ^ 64 : Nat) : Int) * -1).bmod (2 ^ 64) = (-(n : Int)).bmod (2 ^ 64) := by
  rw [Int.bmod, Int.bmod]
  omega

theorem numResult_finishedUint (sign : Int) (n : Nat) (letter : UInt8) :
    numResult ({ ending sign n letter with state := .finishedUint } : Parser F)
      = wrapped sign n := by
  have hresult : numResult ({ ending sign n letter with state := .finishedUint } : Parser F)
      = if sign = -1 then .int64 ((((n % 2 ^ 64 : Nat) : Int) * sign).bmod (2 ^ 64))
        else .uint64 (n % 2 ^ 64) := rfl
  rw [hresult, wrapped]
  by_cases hsign : sign = -1
  · rw [if_pos hsign, if_pos hsign, hsign, bmod_mul_neg_one]
  · rw [if_neg hsign, if_neg hsign]

theorem outcome_ending_white (letter : UInt8) (hw : AllWhite w) :
    outcome (ending sign n letter : Parser F) (w ++ l) = outcome (ending sign n letter) l := by
  induction w with
  | nil => rfl
  | cons c w ih =>
      have hc := hw c List.mem_cons_self
      rw [List.cons_append, outcome_cons rfl,
        show turn (ending sign n letter : Parser F) c = ending sign n letter from if_pos hc]
      exact ih fun d hd => hw d (List.mem_cons_of_mem _ hd)

/-- The letter multiplies, whatever the next character is. -/
theorem turn_ending_suffix (hletter : isPrefix letter = true) (hc : isWhite c = false) :
    turn (ending sign n letter : Parser F) c = { ending sign
      (n * if isBin c then getBinPrefix letter else getPrefix letter) letter with
        state := .finishedUint } := by
  have hturn : turn (ending sign n letter : Parser F) c
      = turnEndUint (ending sign n letter) c := rfl
  rw [hturn, turnEndUint, hc]
  simp only [ending, collecting, hletter, and_true]
  cases isBin c with
  | false => simp
  | true => simp

theorem outcome_ending_suffix (hletter : isPrefix letter = true) (rest : List UInt8) :
    outcome (ending sign n letter : Parser F) rest
      = wrapped sign (n * suffixMultiplier letter rest) := by
  have hsplit := List.takeWhile_append_dropWhile (p := isWhite) (l := rest)
  rw [← hsplit, outcome_ending_white _ (fun c hc => List.mem_takeWhile_imp hc), hsplit,
    suffixMultiplier]
  cases hrest : rest.dropWhile isWhite with
  | nil =>
      have hturn := @turn_ending_suffix F _ sign n 0 letter hletter rfl
      rw [outcome, List.nil_append, feed, hturn, feed_final rfl]
      exact numResult_finishedUint ..
  | cons c l =>
      have hc : isWhite c = false := by
        have hhead := List.head?_dropWhile_not isWhite rest
        rw [hrest] at hhead
        simpa using hhead
      rw [outcome_cons rfl, turn_ending_suffix hletter hc, outcome_final rfl,
        numResult_finishedUint]
      simp only [List.head?_cons, Option.any_some]
      rfl

theorem outcome_ending_end (hw : AllWhite w) :
    outcome (ending sign n 0 : Parser F) w = wrapped sign n := by
  have hwhite := @outcome_ending_white F _ sign n [] w 0 hw
  rw [List.append_nil] at hwhite
  rw [hwhite]
  exact numResult_finishedUint sign n 0

/-- A state in which the digits of some base are collected. -/
structure Collects (state : State) (base : Nat) (isDig : UInt8 → Bool) : Prop where
  running : state.isFinal = false
  digit : ∀ {F : Type} [Double F] (sign n c), isDig c = true →
    turn (collecting state sign n : Parser F) c = collecting state sign (n * base + digitValue c)

theorem Collects.outcome_digits {state : State} {base : Nat} {isDig : UInt8 → Bool}
    (h : Collects state base isDig) {digits : List UInt8} (hdigits : ∀ c ∈ digits, isDig c = true) :
    outcome (collecting state sign n : Parser F) (digits ++ l)
      = outcome (collecting state sign (digitsFrom base n digits)) l := by
  induction digits generalizing n with
  | nil => rfl
  | cons c digits ih =>
      rw [List.cons_append, outcome_cons h.running,
        h.digit sign n c (hdigits c List.mem_cons_self),
        ih fun d hd => hdigits d (List.mem_cons_of_mem _ hd)]
      rfl

/-- What a turn makes of the accumulator. -/
theorem accumulate_mod (n base d : Nat) :
    (n % 2 ^ 64 * base % 2 ^ 64 + d) % 2 ^ 64 = (n * base + d) % 2 ^ 64 := by
  rw [Nat.mod_add_mod, Nat.add_mod, Nat.mod_mul_mod, ← Nat.add_mod]

theorem collects_dec : Collects .getDecDigits 10 isDigit where
  running := rfl
  digit := by
    intro F _ sign n c hc
    have hturn : turn (collecting .getDecDigits sign n : Parser F) c
      = { collecting .getDecDigits sign n with
        uintAccumulator := (n % 2 ^ 64 * 10 % 2 ^ 64 + (c.toNat - 48)) % 2 ^ 64 } := if_pos hc
    rw [hturn, accumulate_mod, ← digitValue_of_isDigit hc]
    rfl

theorem collects_oct : Collects .getOctDigits 8 isODigit where
  running := rfl
  digit := by
    intro F _ sign n c hc
    have hturn : turn (collecting .getOctDigits sign n : Parser F) c
      = { collecting .getOctDigits sign n with
        uintAccumulator := (n % 2 ^ 64 * 8 % 2 ^ 64 + (c.toNat - 48)) % 2 ^ 64 } := if_pos hc
    rw [hturn, accumulate_mod, ← digitValue_of_isDigit (isDigit_of_isODigit hc)]
    rfl

theorem collects_bin : Collects .getBinDigits 2 isBDigit where
  running := rfl
  digit := by
    intro F _ sign n c hc
    have hturn : turn (collecting .getBinDigits sign n : Parser F) c
      = { collecting .getBinDigits sign n with
        uintAccumulator := ((n % 2 ^ 64) <<< 1 % 2 ^ 64 + (c.toNat - 48)) % 2 ^ 64 } := if_pos hc
    rw [hturn, Nat.shiftLeft_eq, Nat.pow_one, accumulate_mod,
      ← digitValue_of_isDigit (isDigit_of_isBDigit hc)]
    rfl

theorem collects_hex : Collects .getHexDigits 16 isXDigit where
  running := rfl
  digit := by
    intro F _ sign n c hc
    have hdig : (isDigit c || isXDigit c) = true := by rw [hc, Bool.or_true]
    have hturn : turn (collecting .getHexDigits sign n : Parser F) c
      = { collecting .getHexDigits sign n with
        uintAccumulator :=
          if isDigit c then (n % 2 ^ 64 * 16 % 2 ^ 64 + (c.toNat - 48)) % 2 ^ 64
          else (n % 2 ^ 64 * 16 % 2 ^ 64 + getXDigit c) % 2 ^ 64 } := if_pos hdig
    rw [hturn, accumulate_mod, accumulate_mod, digitValue]
    cases isDigit c with
    | false => rfl
    | true => rfl

/-- The states that collect digits and take white space behind them. -/
structure TakesWhite (state : State) (isDig : UInt8 → Bool) : Prop where
  running : state.isFinal = false
  turn : ∃ accumulate, ∀ {F : Type} [Double F] (p : Parser F), p.state = state →
    turn p = collectDigits state isDig accumulate p
  isXDigit : ∀ c, isDig c = true → isXDigit c = true

theorem takesWhite_bin : TakesWhite .getBinDigits isBDigit where
  running := rfl
  turn := ⟨_, fun {F} _ p hp => funext fun c => by rw [Parsing.turn, hp]; rfl⟩
  isXDigit := fun _ hc => isXDigit_of_isDigit (isDigit_of_isBDigit hc)

theorem takesWhite_oct : TakesWhite .getOctDigits isODigit where
  running := rfl
  turn := ⟨_, fun {F} _ p hp => funext fun c => by rw [Parsing.turn, hp]; rfl⟩
  isXDigit := fun _ hc => isXDigit_of_isDigit (isDigit_of_isODigit hc)

theorem takesWhite_hex : TakesWhite .getHexDigits (fun c => isDigit c || isXDigit c) where
  running := rfl
  turn := ⟨_, fun {F} _ p hp => funext fun c => by rw [Parsing.turn, hp]; rfl⟩
  isXDigit := fun _ hc => ((Bool.or_eq_true _ _).mp hc).elim isXDigit_of_isDigit id

section

variable {state : State} {isDig : UInt8 → Bool}

theorem TakesWhite.noDigit (h : TakesWhite state isDig) (hc : Parsing.isXDigit c = false) :
    isDig c = false := by
  by_contra hdig
  rw [h.isXDigit c (Bool.of_not_eq_false hdig)] at hc
  cases hc

theorem TakesWhite.turn_letter (h : TakesWhite state isDig) (hc : isPrefix c = true) :
    Parsing.turn (collecting state sign n : Parser F) c = ending sign n c := by
  obtain ⟨accumulate, hturn⟩ := h.turn
  have hdig := h.noDigit (isDigit_of_isPrefix hc).1
  rw [hturn _ rfl, collectDigits, hdig, hc]
  rfl

theorem TakesWhite.turn_white (h : TakesWhite state isDig) (hc : isWhite c = true) :
    Parsing.turn (collecting state sign n : Parser F) c = ending sign n 0 := by
  obtain ⟨accumulate, hturn⟩ := h.turn
  obtain ⟨hx, -, hpre, -⟩ := isDigit_of_isWhite hc
  rw [hturn _ rfl, collectDigits, h.noDigit hx, hpre, hc]
  rfl

theorem TakesWhite.outcome_nil (h : TakesWhite state isDig) :
    outcome (collecting state sign n : Parser F) [] = wrapped sign n := by
  obtain ⟨accumulate, hturn⟩ := h.turn
  have hnul : Parsing.turn (collecting state sign n : Parser F) 0
      = { ending sign n 0 with state := .finishedUint } := by
    rw [hturn _ rfl, collectDigits, h.noDigit rfl]
    rfl
  have hrun : ¬ (collecting state sign n : Parser F).state.isFinal = true :=
    Bool.eq_false_iff.mp h.running
  rw [outcome, List.nil_append, feed, if_neg hrun, hnul]
  exact numResult_finishedUint ..

theorem TakesWhite.outcome_tail (h : TakesWhite state isDig) {literal : Literal} {tail : Tail}
    (htail : tail.Ok literal) :
    outcome (collecting state sign n : Parser F) tail.text
      = wrapped sign (n * tail.multiplier) := by
  cases tail with
  | white w =>
      rw [Tail.multiplier, Nat.mul_one]
      cases w with
      | nil => exact h.outcome_nil
      | cons c w =>
          have hc := htail.1 c List.mem_cons_self
          rw [Tail.text, outcome_cons h.running, h.turn_white hc]
          exact outcome_ending_end fun d hd => htail.1 d (List.mem_cons_of_mem _ hd)
  | suffix letter rest =>
      rw [Tail.text, outcome_cons h.running, h.turn_letter htail]
      exact outcome_ending_suffix htail rest

end

/-- Without white space. -/
theorem outcome_dec_tail {tail : Tail} {digits : List UInt8} (htail : tail.Ok (.dec digits)) :
    outcome (collecting .getDecDigits sign n : Parser F) tail.text
      = wrapped sign (n * tail.multiplier) := by
  cases tail with
  | white w =>
      have hw : w = [] := by
        by_contra hne
        exact htail.2 hne
      rw [hw, Tail.multiplier, Nat.mul_one]
      exact numResult_finishedUint ..
  | suffix letter rest =>
      obtain ⟨-, hdigit, -, hperiod, -⟩ := isDigit_of_isPrefix htail
      have hturn : turn (collecting .getDecDigits sign n : Parser F) letter
          = ending sign n letter := by
        have hdec : turn (collecting .getDecDigits sign n : Parser F) letter
            = turnGetDecDigits (collecting .getDecDigits sign n) letter := rfl
        rw [hdec, turnGetDecDigits, hdigit, if_neg hperiod, show isPrefix letter = true from htail]
        rfl
      rw [Tail.text, outcome_cons rfl, hturn]
      exact outcome_ending_suffix htail rest

theorem outcome_zero_tail {tail : Tail} (htail : tail.Ok .zero) :
    outcome (collecting .foundInitZero 1 0 : Parser F) tail.text = wrapped 1 0 := by
  cases tail with
  | white w =>
      have hw : w = [] := by
        by_contra hne
        exact htail.2 hne
      rw [hw]
      rfl
  | suffix letter rest =>
      have hturn : turn (collecting .foundInitZero 1 0 : Parser F) letter = ending 1 0 letter := by
        rcases isPrefix_iff.mp htail with rfl | rfl | rfl | rfl | rfl | rfl <;> rfl
      rw [Tail.text, outcome_cons rfl, hturn, outcome_ending_suffix htail rest, Nat.zero_mul]

end Integers

/-! ## Fractions -/

/-- The parser collecting the digits of a fraction. -/
def fraction (sign : Int) (n : Nat) (acc : F × F) : Parser F :=
  { (collecting .getFloDigits sign n : Parser F) with
    floatAccumulator := acc.1, floatBaseAccumulator := acc.2 }

/-- The parser behind a fraction, with the suffix letter or 0. -/
def endingFraction (sign : Int) (n : Nat) (acc : F × F) (letter : UInt8) : Parser F :=
  { fraction sign n acc with state := .endFloat, numPrefix := letter }

section Fractions

variable {sign : Int} {n : Nat} {acc : F × F} {c letter : UInt8} {l w digits : List UInt8}

theorem outcome_fraction_digits (hdigits : ∀ c ∈ digits, isDigit c = true) :
    outcome (fraction sign n acc) (digits ++ l)
      = outcome (fraction sign n (fractionFrom acc digits)) l := by
  induction digits generalizing acc with
  | nil => rfl
  | cons c digits ih =>
      have hturn : turn (fraction sign n acc) c = fraction sign n
          (acc.1 + Double.ofNat (c.toNat - 48) / (acc.2 * Double.ofNat 10),
            acc.2 * Double.ofNat 10) :=
        if_pos (hdigits c List.mem_cons_self)
      rw [List.cons_append, outcome_cons rfl, hturn,
        ih fun d hd => hdigits d (List.mem_cons_of_mem _ hd)]
      rfl

theorem outcome_endingFraction_white (hw : AllWhite w) :
    outcome (endingFraction sign n acc letter) (w ++ l)
      = outcome (endingFraction sign n acc letter) l := by
  induction w with
  | nil => rfl
  | cons c w ih =>
      have hturn : turn (endingFraction sign n acc letter) c = endingFraction sign n acc letter :=
        if_pos (hw c List.mem_cons_self)
      rw [List.cons_append, outcome_cons rfl, hturn]
      exact ih fun d hd => hw d (List.mem_cons_of_mem _ hd)

/-- The letter multiplies, whatever the next character is. -/
theorem turn_endingFraction_suffix (hletter : isPrefix letter = true) (hc : isWhite c = false) :
    turn (endingFraction sign n acc letter) c = { endingFraction sign n
      (acc.1 * Double.ofNat (getPrefix letter), acc.2) letter with state := .finishedFloat } := by
  have hturn : turn (endingFraction sign n acc letter) c
      = turnEndFloat (endingFraction sign n acc letter) c := rfl
  rw [hturn, turnEndFloat, hc]
  exact if_pos hletter

theorem outcome_endingFraction_suffix (hletter : isPrefix letter = true) (rest : List UInt8) :
    outcome (endingFraction sign n acc letter) rest
      = .double (acc.1 * Double.ofNat (getPrefix letter) * Double.ofInt sign) := by
  have hsplit := List.takeWhile_append_dropWhile (p := isWhite) (l := rest)
  rw [← hsplit, outcome_endingFraction_white fun c hc => List.mem_takeWhile_imp hc]
  cases hrest : rest.dropWhile isWhite with
  | nil =>
      rw [outcome, List.nil_append, feed, turn_endingFraction_suffix hletter rfl, feed_final rfl]
      rfl
  | cons c l =>
      have hc : isWhite c = false := by
        have hhead := List.head?_dropWhile_not isWhite rest
        rw [hrest] at hhead
        simpa using hhead
      rw [outcome_cons rfl, turn_endingFraction_suffix hletter hc, outcome_final rfl]
      rfl

theorem outcome_fraction_tail {literal : Literal} {tail : Tail} (htail : tail.Ok literal) :
    outcome (fraction sign n acc) tail.text
      = .double (tail.scale acc.1 * Double.ofInt sign) := by
  cases tail with
  | white w =>
      cases w with
      | nil => rfl
      | cons c w =>
          obtain ⟨-, hdigit, hpre, -⟩ := isDigit_of_isWhite (htail.1 c List.mem_cons_self)
          have hturn : turn (fraction sign n acc) c = endingFraction sign n acc 0 := by
            have hflo : turn (fraction sign n acc) c
                = turnGetFloDigits (fraction sign n acc) c := rfl
            rw [hflo, turnGetFloDigits, hdigit, hpre, htail.1 c List.mem_cons_self]
            rfl
          have hwhite := @outcome_endingFraction_white F _ sign n acc 0 [] w
            fun d hd => htail.1 d (List.mem_cons_of_mem _ hd)
          rw [List.append_nil] at hwhite
          rw [Tail.text, outcome_cons rfl, hturn, hwhite]
          rfl
  | suffix letter rest =>
      obtain ⟨-, hdigit, -⟩ := isDigit_of_isPrefix htail
      have hturn : turn (fraction sign n acc) letter = endingFraction sign n acc letter := by
        have hflo : turn (fraction sign n acc) letter
            = turnGetFloDigits (fraction sign n acc) letter := rfl
        rw [hflo, turnGetFloDigits, hdigit, show isPrefix letter = true from htail]
        rfl
      rw [Tail.text, outcome_cons rfl, hturn]
      exact outcome_endingFraction_suffix htail rest

end Fractions

/-! ## The texts are accepted -/

section Texts

variable {n : Numeral} {sign : Option UInt8} {d : UInt8} {l w digits : List UInt8}

theorem outcome_white (hw : AllWhite w) :
    outcome (start : Parser F) (w ++ l) = outcome start l := by
  induction w with
  | nil => rfl
  | cons c w ih =>
      have hturn : turn (start : Parser F) c = start := by
        rcases isWhite_iff.mp (hw c List.mem_cons_self) with rfl | rfl | rfl | rfl <;> rfl
      rw [List.cons_append, outcome_cons rfl, hturn]
      exact ih fun d hd => hw d (List.mem_cons_of_mem _ hd)

/-- The parser behind a sign, or without one. -/
def signed : Option UInt8 → Parser F
  | none => start
  | some c => collecting .foundSign (signum (some c)) 0

theorem outcome_sign (hsign : ∀ c ∈ sign, c = ch '-' ∨ c = ch '+') :
    outcome (start : Parser F) (sign.toList ++ l) = outcome (signed sign) l := by
  cases sign with
  | none => rfl
  | some c =>
      rcases hsign c rfl with rfl | rfl
      · exact outcome_cons rfl
      · exact outcome_cons rfl

theorem outcome_period (sign : Option UInt8) (l : List UInt8) :
    outcome (signed sign : Parser F) (ch '.' :: l)
      = outcome (fraction (signum sign) 0 (Double.ofNat 0, Double.ofNat 1)) l := by
  cases sign with
  | none => exact outcome_cons rfl
  | some c => exact outcome_cons rfl

/-- A first decimal digit other than `'0'`. -/
theorem turn_firstDigit (hzero : d ≠ ch '0') (hd : isDigit d = true) :
    turn (signed sign : Parser F) d = collecting .getDecDigits (signum sign) (digitValue d) := by
  have hne : ∀ c, isDigit c = false → d ≠ c := by
    rintro c hc rfl
    rw [hd] at hc
    cases hc
  have hlt : d.toNat - 48 < 2 ^ 64 := by
    have hbyte := d.toNat_lt
    omega
  rw [digitValue_of_isDigit hd, collecting, Nat.mod_eq_of_lt hlt]
  cases sign with
  | none =>
      have hinit : turn (signed none : Parser F) d = turnInit start d := rfl
      rw [hinit, turnInit, if_neg (hne _ rfl), if_neg (hne _ rfl), if_neg (hne _ rfl), if_neg hzero,
        if_pos hd]
      rfl
  | some c =>
      have hsign : turn (signed (some c) : Parser F) d = turnFoundSign (signed (some c)) d := rfl
      rw [hsign, turnFoundSign, if_neg hzero, if_neg (hne _ rfl), if_pos hd]
      rfl

theorem signed_running (sign : Option UInt8) :
    (signed sign : Parser F).state.isFinal = false := by
  cases sign with
  | none => rfl
  | some c => rfl

theorem outcome_nonzeroLed (hdigits : NonzeroLed digits) :
    outcome (signed sign : Parser F) (digits ++ l)
      = outcome (collecting .getDecDigits (signum sign) (digitsFrom 10 0 digits)) l := by
  obtain ⟨d, ds, rfl, hzero, hd, hds⟩ := hdigits
  rw [List.cons_append, outcome_cons (signed_running sign), turn_firstDigit hzero hd,
    collects_dec.outcome_digits hds, digitsFrom, digitsFrom, List.foldl_cons, Nat.zero_mul,
    Nat.zero_add]

/-- Behind a sign, zeros only lead up to a period. -/
theorem outcome_zeros (sign : Int) (k : Nat) (l : List UInt8) :
    outcome (collecting .mustBeZeroOrPeriod sign 0 : Parser F) (List.replicate k (ch '0') ++ l)
      = outcome (collecting .mustBeZeroOrPeriod sign 0) l := by
  induction k with
  | zero => rfl
  | succ k ih =>
      rw [List.replicate_succ, List.cons_append, outcome_cons rfl]
      exact ih

theorem digitsFrom_zeros (k : Nat) : digitsFrom 10 0 (List.replicate k (ch '0')) = 0 := by
  induction k with
  | zero => rfl
  | succ k ih => exact ih

theorem outcome_whole {whole : List UInt8} (hwhole : WholePart sign whole) :
    outcome (signed sign : Parser F) (whole ++ ch '.' :: l)
      = outcome (fraction (signum sign) (digitsFrom 10 0 whole)
          (Double.ofNat (digitsFrom 10 0 whole % 2 ^ 64), Double.ofNat 1)) l := by
  rcases hwhole with rfl | hled | ⟨k, rfl, hk⟩
  · exact outcome_period sign l
  · rw [outcome_nonzeroLed hled, outcome_cons rfl]
    rfl
  · rw [digitsFrom_zeros]
    cases sign with
    | none =>
        obtain rfl := hk rfl
        rw [List.replicate_succ, List.cons_append, outcome_cons rfl]
        exact outcome_cons rfl
    | some c =>
        have hzero : turn (signed (some c) : Parser F) (ch '0')
            = collecting .mustBeZeroOrPeriod (signum (some c)) 0 := rfl
        rw [List.replicate_succ, List.cons_append, outcome_cons rfl, hzero, outcome_zeros]
        exact outcome_cons rfl

/-- Without a sign, a literal that begins with `'0'` and is no decimal. -/
theorem turn_zero_head {c : UInt8} (l : List UInt8) :
    outcome (start : Parser F) (ch '0' :: c :: l)
      = outcome (turn (collecting .foundInitZero 1 0) c) l := by
  rw [outcome_cons rfl]
  exact outcome_cons rfl

theorem turn_firstODigit (hd : isODigit d = true) :
    turn (collecting .foundInitZero 1 0 : Parser F) d
      = collecting .getOctDigits 1 (digitValue d) := by
  have hdigit := isDigit_of_isODigit hd
  have hne : ∀ c, isDigit c = false → d ≠ c := by
    rintro c hc rfl
    rw [hdigit] at hc
    cases hc
  have hpre : ¬ isPrefix d = true := by
    intro hpre
    rw [(isDigit_of_isPrefix hpre).2.1] at hdigit
    cases hdigit
  have hlt : d.toNat - 48 < 2 ^ 64 := by
    have hbyte := d.toNat_lt
    omega
  have hzero : turn (collecting .foundInitZero 1 0 : Parser F) d
      = turnFoundInitZero (collecting .foundInitZero 1 0) d := rfl
  rw [hzero, turnFoundInitZero, if_neg (hne _ rfl), if_neg (hne _ rfl), if_neg (hne _ rfl),
    if_neg (hne _ rfl), if_neg (hne _ rfl), if_neg (hne _ rfl), if_neg hpre, if_pos hd,
    digitValue_of_isDigit hdigit, collecting, collecting, Nat.mod_eq_of_lt hlt]

/-- The parser accepts the text and returns its result. -/
theorem Numeral.Ok.outcome_eq (h : n.Ok) : outcome start n.text = n.result F := by
  obtain ⟨white, sign, literal, tail⟩ := n
  obtain ⟨hwhite, hsign, hliteral, htail⟩ := h
  dsimp only at hwhite hsign hliteral htail
  rw [Numeral.text, outcome_white hwhite, outcome_sign hsign]
  cases literal with
  | zero =>
      obtain rfl : sign = none := hliteral
      have hresult : Numeral.result ⟨white, none, .zero, tail⟩ F
          = wrapped 1 (0 * tail.multiplier) := rfl
      rw [hresult, Nat.zero_mul]
      exact (outcome_cons rfl).trans (outcome_zero_tail htail)
  | dec digits =>
      rw [Literal.text, outcome_nonzeroLed hliteral]
      exact outcome_dec_tail htail
  | oct digits =>
      obtain ⟨rfl, hne, hdigits⟩ := hliteral
      obtain ⟨d, ds, rfl⟩ := List.exists_cons_of_ne_nil hne
      rw [Literal.text, List.cons_append, List.cons_append, signed, turn_zero_head,
        turn_firstODigit (hdigits d List.mem_cons_self),
        collects_oct.outcome_digits fun c hc => hdigits c (List.mem_cons_of_mem _ hc),
        takesWhite_oct.outcome_tail htail, Numeral.result]
      dsimp only [Literal.value]
      rw [digitsFrom, digitsFrom, List.foldl_cons, Nat.zero_mul, Nat.zero_add]
      rfl
  | hex x digits =>
      obtain ⟨rfl, hx, hdigits⟩ := hliteral
      have hhead : turn (collecting .foundInitZero 1 0 : Parser F) x
          = collecting .getHexDigits 1 0 := by
        rcases hx with rfl | rfl <;> rfl
      rw [Literal.text, List.cons_append, List.cons_append, signed, turn_zero_head, hhead,
        collects_hex.outcome_digits hdigits]
      exact takesWhite_hex.outcome_tail htail
  | bin b digits =>
      obtain ⟨rfl, hb, hdigits⟩ := hliteral
      have hhead : turn (collecting .foundInitZero 1 0 : Parser F) b
          = collecting .getBinDigits 1 0 := by
        rcases hb with rfl | rfl <;> rfl
      rw [Literal.text, List.cons_append, List.cons_append, signed, turn_zero_head, hhead,
        collects_bin.outcome_digits hdigits]
      exact takesWhite_bin.outcome_tail htail
  | frac whole digits =>
      obtain ⟨hwhole, hdigits⟩ := hliteral
      rw [Literal.text, List.append_assoc, List.cons_append, outcome_whole hwhole,
        outcome_fraction_digits hdigits]
      exact outcome_fraction_tail htail

end Texts

end Camio.Parsing
