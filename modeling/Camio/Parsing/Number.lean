/-
  Camio.Parsing.Number

  `numeric_parser.c`: numbers in decimal, octal, hexadecimal and binary notation and
  fractions, with a sign and a multiplier suffix.

  The parser is a state machine that takes one character a turn, up to the terminator.
  The accumulators are 64 bits wide and wrap around; those for fractions are of any type of
  doubles, `Float` if none is given.  Of the enumeration only
  `STATE_FOUND_INIT_PERIOD` is left out, which nothing enters, and with it the exits on an
  undefined state (`Camio.Parsing.Scanner` has them).
-/

import Camio.Lib.CStr
import Camio.Lib.Double
import Camio.Parsing.Utils

namespace Camio.Parsing

open Camio.Lib

/-- The states of the parser. -/
inductive State where
  | init
  | foundSign
  | mustBeZeroOrPeriod
  | foundInitZero
  | getDecDigits
  | getBinDigits
  | getOctDigits
  | getHexDigits
  | getFloDigits
  | endUint
  | endInt
  | endFloat
  | finishedUint
  | finishedInt
  | finishedFloat
  | noneFound
deriving DecidableEq

/-- `isprefix` -/
def isPrefix (c : UInt8) : Bool :=
  c = ch 'k' || c = ch 'K' || c = ch 'm' || c = ch 'M' || c = ch 'g' || c = ch 'G'

/-- `isbin` -/
def isBin (c : UInt8) : Bool := c = ch 'i' || c = ch 'I'

/-- `get_prefix` -/
def getPrefix (c : UInt8) : Nat :=
  if c = ch 'k' ∨ c = ch 'K' then 1000
  else if c = ch 'm' ∨ c = ch 'M' then 1000 * 1000
  else if c = ch 'g' ∨ c = ch 'G' then 1000 * 1000 * 1000
  else 0

/-- `get_bin_prefix` -/
def getBinPrefix (c : UInt8) : Nat :=
  if c = ch 'k' ∨ c = ch 'K' then 1 <<< 10
  else if c = ch 'm' ∨ c = ch 'M' then 1 <<< 20
  else if c = ch 'g' ∨ c = ch 'G' then 1 <<< 30
  else 0

/-- The variables of `parse_number`. -/
structure Parser (F : Type := Float) where
  state : State
  uintAccumulator : Nat
  intAccumulator : Int
  floatAccumulator : F
  floatBaseAccumulator : F
  sign : Int
  numPrefix : UInt8

/-- `num_result_t`: the type with the member of the union that goes with it. -/
inductive NumResult (F : Type := Float) where
  | noType
  | uint64 (valUint : Nat)
  | int64 (valInt : Int)
  | double (valDble : F)

variable {F : Type} [Double F]

/-- The variables before the first turn. -/
def start : Parser F :=
  { state := .init, uintAccumulator := 0, intAccumulator := 0, floatAccumulator := Double.ofNat 0
    floatBaseAccumulator := Double.ofNat 1, sign := 1, numPrefix := 0 }

/-! ## The states -/

/-- `case STATE_INIT` -/
def turnInit (p : Parser F) (c : UInt8) : Parser F :=
  let p := { p with
    uintAccumulator := 0, floatAccumulator := Double.ofNat 0
    floatBaseAccumulator := Double.ofNat 1, sign := 1 }
  if c = ch '-' then { p with sign := -1, state := .foundSign }
  else if c = ch '+' then { p with state := .foundSign }
  else if c = ch '.' then { p with state := .getFloDigits }
  else if c = ch '0' then { p with state := .foundInitZero }
  else if isDigit c then { p with uintAccumulator := c.toNat - 48, state := .getDecDigits }
  else if isWhite c then { p with state := .init }
  else { p with state := .noneFound }

/-- `case STATE_FOUND_SIGN` -/
def turnFoundSign (p : Parser F) (c : UInt8) : Parser F :=
  if c = ch '0' then { p with state := .mustBeZeroOrPeriod }
  else if c = ch '.' then { p with state := .getFloDigits }
  else if isDigit c then { p with uintAccumulator := c.toNat - 48, state := .getDecDigits }
  else { p with state := .noneFound }

/-- `case STATE_MUST_BE_ZERO_OR_PERIOD` -/
def turnMustBeZeroOrPeriod (p : Parser F) (c : UInt8) : Parser F :=
  if c = ch '0' then { p with state := .mustBeZeroOrPeriod }
  else if c = ch '.' then { p with state := .getFloDigits }
  else { p with state := .noneFound }

/-- `case STATE_FOUND_INIT_ZERO` -/
def turnFoundInitZero (p : Parser F) (c : UInt8) : Parser F :=
  if c = ch 'x' then { p with state := .getHexDigits }
  else if c = ch 'X' then { p with state := .getHexDigits }
  else if c = ch 'b' then { p with state := .getBinDigits }
  else if c = ch 'B' then { p with state := .getBinDigits }
  else if c = ch '.' then { p with state := .getFloDigits }
  else if c = 0 then { p with state := .finishedUint }
  else if isPrefix c then { p with numPrefix := c, state := .endUint }
  else if isODigit c then { p with uintAccumulator := c.toNat - 48, state := .getOctDigits }
  else { p with state := .noneFound }

/-- `case STATE_GET_DEC_DIGITS`.  White space would have to be an `'E'` too, so it ends
    in `STATE_NONE_FOUND`. -/
def turnGetDecDigits (p : Parser F) (c : UInt8) : Parser F :=
  if isDigit c then { p with
    uintAccumulator := (p.uintAccumulator * 10 % 2 ^ 64 + (c.toNat - 48)) % 2 ^ 64
    state := .getDecDigits }
  else if c = ch '.' then { p with
    floatAccumulator := Double.ofNat p.uintAccumulator, state := .getFloDigits }
  else if isPrefix c then { p with numPrefix := c, state := .endUint }
  else if c = ch 'E' ∧ isWhite c then { p with state := .endUint }
  else if c = 0 then { p with state := .finishedUint }
  else { p with state := .noneFound }

/-- What the other states that collect digits have in common. -/
def collectDigits (state : State) (isDig : UInt8 → Bool) (accumulate : Nat → UInt8 → Nat)
    (p : Parser F) (c : UInt8) : Parser F :=
  if isDig c then { p with uintAccumulator := accumulate p.uintAccumulator c, state := state }
  else if isPrefix c then { p with numPrefix := c, state := .endUint }
  else if isWhite c then { p with state := .endUint }
  else if c = 0 then { p with state := .finishedUint }
  else { p with state := .noneFound }

/-- `case STATE_GET_BIN_DIGITS` -/
def turnGetBinDigits : Parser F → UInt8 → Parser F :=
  collectDigits .getBinDigits isBDigit fun n c =>
    ((n <<< 1) % 2 ^ 64 + (c.toNat - 48)) % 2 ^ 64

/-- `case STATE_GET_OCT_DIGITS` -/
def turnGetOctDigits : Parser F → UInt8 → Parser F :=
  collectDigits .getOctDigits isODigit fun n c => (n * 8 % 2 ^ 64 + (c.toNat - 48)) % 2 ^ 64

/-- `case STATE_GET_HEX_DIGITS` -/
def turnGetHexDigits : Parser F → UInt8 → Parser F :=
  collectDigits .getHexDigits (fun c => isDigit c || isXDigit c) fun n c =>
    if isDigit c then (n * 16 % 2 ^ 64 + (c.toNat - 48)) % 2 ^ 64
    else (n * 16 % 2 ^ 64 + getXDigit c) % 2 ^ 64

/-- `case STATE_GET_FLO_DIGITS` -/
def turnGetFloDigits (p : Parser F) (c : UInt8) : Parser F :=
  if isDigit c then
    let p := { p with floatBaseAccumulator := p.floatBaseAccumulator * Double.ofNat 10 }
    { p with
      floatAccumulator := p.floatAccumulator + Double.ofNat (c.toNat - 48) / p.floatBaseAccumulator
      state := .getFloDigits }
  else if isPrefix c then { p with numPrefix := c, state := .endFloat }
  else if isWhite c then { p with state := .endFloat }
  else if c = 0 then { p with state := .finishedFloat }
  else { p with state := .noneFound }

/-- `case STATE_END_UINT` -/
def turnEndUint (p : Parser F) (c : UInt8) : Parser F :=
  if isWhite c then { p with state := .endUint }
  else if isBin c ∧ isPrefix p.numPrefix then { p with
    uintAccumulator := p.uintAccumulator * getBinPrefix p.numPrefix % 2 ^ 64
    state := .finishedUint }
  else if isPrefix p.numPrefix then { p with
    uintAccumulator := p.uintAccumulator * getPrefix p.numPrefix % 2 ^ 64
    state := .finishedUint }
  else if c = 0 then { p with state := .finishedUint }
  else { p with state := .noneFound }

/-- `case STATE_END_INT` -/
def turnEndInt (p : Parser F) (c : UInt8) : Parser F :=
  if isWhite c then { p with state := .endInt }
  else if isPrefix p.numPrefix then { p with
    intAccumulator := (p.intAccumulator * getPrefix p.numPrefix).bmod (2 ^ 64)
    state := .finishedInt }
  else if isBin c ∧ isPrefix p.numPrefix then { p with
    intAccumulator := (p.intAccumulator * getBinPrefix p.numPrefix).bmod (2 ^ 64)
    state := .finishedInt }
  else if c = 0 then { p with state := .finishedInt }
  else { p with state := .noneFound }

/-- `case STATE_END_FLOAT`.  The argument of `isbin` is the truth value of
    `c[i] && isprefix(prefix)`. -/
def turnEndFloat (p : Parser F) (c : UInt8) : Parser F :=
  if isWhite c then { p with state := .endFloat }
  else if isPrefix p.numPrefix then { p with
    floatAccumulator := p.floatAccumulator * Double.ofNat (getPrefix p.numPrefix)
    state := .finishedFloat }
  else if isBin (if c ≠ 0 ∧ isPrefix p.numPrefix then 1 else 0) then { p with
    floatAccumulator := p.floatAccumulator * Double.ofNat (getBinPrefix p.numPrefix)
    state := .finishedFloat }
  else if c = 0 then { p with state := .finishedFloat }
  else { p with state := .noneFound }

/-- The states in which the loop ends. -/
def State.isFinal : State → Bool
  | .finishedUint | .finishedInt | .finishedFloat | .noneFound => true
  | _ => false

/-- One turn of the loop. -/
def turn (p : Parser F) (c : UInt8) : Parser F :=
  match p.state with
  | .init => turnInit p c
  | .foundSign => turnFoundSign p c
  | .mustBeZeroOrPeriod => turnMustBeZeroOrPeriod p c
  | .foundInitZero => turnFoundInitZero p c
  | .getDecDigits => turnGetDecDigits p c
  | .getBinDigits => turnGetBinDigits p c
  | .getOctDigits => turnGetOctDigits p c
  | .getHexDigits => turnGetHexDigits p c
  | .getFloDigits => turnGetFloDigits p c
  | .endUint => turnEndUint p c
  | .endInt => turnEndInt p c
  | .endFloat => turnEndFloat p c
  | .finishedUint | .finishedInt | .finishedFloat | .noneFound => p

/-- What is returned behind the loop.  The product with `sign` is taken modulo `2^64` and
    put into an `int64_t`. -/
def numResult (p : Parser F) : NumResult F :=
  match p.state with
  | .finishedInt => .int64 p.intAccumulator
  | .finishedUint =>
      if p.sign = -1 then .int64 ((p.uintAccumulator * p.sign).bmod (2 ^ 64))
      else .uint64 p.uintAccumulator
  | .finishedFloat => .double (p.floatAccumulator * Double.ofInt p.sign)
  | _ => .noType

/-- The loop, from index `i` on; `none` where it reads behind the terminator. -/
def parseLoop (s : CStr) : (fuel : Nat) → Parser F → (i : Nat) → Option (Parser F)
  | 0, _, _ => none
  | fuel + 1, p, i =>
      if p.state.isFinal then some p
      else
        match s.charAt i with
        | none => none
        | some c => parseLoop s fuel (turn p c) (i + 1)

/-- `parse_number`. -/
def parseNumber (s : CStr) (i : Nat) (F : Type := Float) [Double F] : Option (NumResult F) :=
  match s.charAt i with
  | none => none
  | some c => if c = 0 then some .noType else (parseLoop s (s.length + 2) start i).map numResult

/-! ## The loop reads the text and its terminator -/

/-- All turns over some characters; there are none behind a final state. -/
def feed (p : Parser F) : List UInt8 → Parser F
  | [] => p
  | c :: l => if p.state.isFinal then p else feed (turn p c) l

/-- What the parser returns on a text from here on, with the terminator behind it. -/
def outcome (p : Parser F) (l : List UInt8) : NumResult F := numResult (feed p (l ++ [0]))

section Loop

variable {p : Parser F} {c : UInt8} {l : List UInt8}

theorem feed_final (h : p.state.isFinal = true) : feed p l = p := by
  cases l with
  | nil => rfl
  | cons c l => rw [feed, if_pos h]

theorem outcome_final (h : p.state.isFinal = true) : outcome p l = numResult p := by
  rw [outcome, feed_final h]

theorem outcome_cons (h : p.state.isFinal = false) : outcome p (c :: l) = outcome (turn p c) l := by
  rw [outcome, List.cons_append, feed, h]
  rfl

theorem outcome_nil (h : p.state.isFinal = false) : outcome p [] = numResult (turn p 0) := by
  rw [outcome, List.nil_append, feed, h]
  rfl

/-- No state goes past the terminator. -/
theorem turn_nul_final (h : p.state.isFinal = false) : (turn p 0).state.isFinal = true := by
  cases hstate : p.state with
  | init | foundSign | mustBeZeroOrPeriod | foundInitZero | getDecDigits | getFloDigits =>
      rw [turn, hstate]
      rfl
  | getBinDigits | getOctDigits | getHexDigits =>
      rw [turn, hstate]
      rfl
  | endUint | endInt | endFloat =>
      rw [turn, hstate]
      cases hpre : isPrefix p.numPrefix with
      | false => simp [turnEndUint, turnEndInt, turnEndFloat, hpre, State.isFinal, isWhite, isBin]
      | true => simp [turnEndUint, turnEndInt, turnEndFloat, hpre, State.isFinal, isWhite, isBin]
  | finishedUint | finishedInt | finishedFloat | noneFound =>
      rw [hstate] at h
      cases h

theorem parseLoop_eq {s : CStr} {fuel i : Nat} (hi : i ≤ s.length) (hl : s.bytes.drop i = l)
    (hfuel : l.length + 2 ≤ fuel) : parseLoop s fuel p i = some (feed p (l ++ [0])) := by
  induction l generalizing p fuel i with
  | nil =>
      obtain ⟨fuel, rfl⟩ := Nat.exists_eq_add_of_le' hfuel
      rw [show fuel + (([] : List UInt8).length + 2) = fuel + 1 + 1 from rfl, parseLoop]
      by_cases hp : p.state.isFinal = true
      · rw [if_pos hp, feed_final hp]
      · rw [if_neg hp, (CStr.charAt_eq_zero_iff_drop hi).mpr hl]
        dsimp only
        rw [parseLoop, if_pos (turn_nul_final (Bool.eq_false_iff.mpr hp)), List.nil_append, feed,
          if_neg hp]
        rfl
  | cons c l ih =>
      obtain ⟨fuel, rfl⟩ := Nat.exists_eq_add_of_le' hfuel
      obtain ⟨hlt, hrest⟩ := CStr.of_drop_eq_cons hl
      rw [show fuel + ((c :: l).length + 2) = fuel + (l.length + 2) + 1 by
        rw [List.length_cons]; omega, parseLoop, List.cons_append, feed]
      by_cases hp : p.state.isFinal = true
      · rw [if_pos hp, if_pos hp]
      · rw [if_neg hp, if_neg hp, CStr.charAt_of_drop_eq_cons hl]
        exact ih hlt hrest (Nat.le_add_left _ _)

/-- `parse_number` returns on every string, and stays inside it. -/
theorem parseNumber_eq {s : CStr} {i : Nat} (hi : i ≤ s.length) :
    parseNumber s i F = some (outcome start (s.bytes.drop i)) := by
  have hloop := @parseLoop_eq F _ start _ s (s.length + 2) i hi rfl (by
    rw [List.length_drop, CStr.length]
    omega)
  rw [parseNumber]
  cases hl : s.bytes.drop i with
  | nil =>
      rw [(CStr.charAt_eq_zero_iff_drop hi).mpr hl]
      rfl
  | cons c l =>
      have hne : c ≠ 0 := by
        rintro rfl
        exact CStr.charAt_ne_zero (CStr.of_drop_eq_cons hl).1 (CStr.charAt_of_drop_eq_cons hl)
      rw [CStr.charAt_of_drop_eq_cons hl]
      dsimp only
      rw [if_neg hne, hloop, hl]
      rfl

end Loop

end Camio.Parsing
