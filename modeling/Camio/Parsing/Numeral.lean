/-
  Camio.Parsing.Numeral

  The texts that the number parser accepts, taken apart, and what it returns on them.

  A text has white space, a sign, a literal and a tail, which is either white space or a
  suffix letter with anything behind it.  The parser is compared with these in
  `Camio.Parsing.Reading`.
-/

import Camio.Parsing.Number

namespace Camio.Parsing

open Camio.Lib

/-- The literals, each with its digits. -/
inductive Literal where
  | zero
  | dec (digits : List UInt8)
  | oct (digits : List UInt8)
  | hex (x : UInt8) (digits : List UInt8)
  | bin (b : UInt8) (digits : List UInt8)
  | frac (whole digits : List UInt8)

/-- What stands behind a literal. -/
inductive Tail where
  | white (w : List UInt8)
  | suffix (letter : UInt8) (rest : List UInt8)

/-- A text taken apart. -/
structure Numeral where
  white : List UInt8
  sign : Option UInt8
  literal : Literal
  tail : Tail

/-- The literal is none of a fraction. -/
def Literal.IsInteger : Literal → Prop
  | .frac _ _ => False
  | _ => True

/-! ## Texts -/

def Literal.text : Literal → List UInt8
  | .zero => [ch '0']
  | .dec digits => digits
  | .oct digits => ch '0' :: digits
  | .hex x digits => ch '0' :: x :: digits
  | .bin b digits => ch '0' :: b :: digits
  | .frac whole digits => whole ++ ch '.' :: digits

def Tail.text : Tail → List UInt8
  | .white w => w
  | .suffix letter rest => letter :: rest

def Numeral.text (n : Numeral) : List UInt8 :=
  n.white ++ (n.sign.toList ++ (n.literal.text ++ n.tail.text))

/-- White space only. -/
def AllWhite (w : List UInt8) : Prop := ∀ c ∈ w, isWhite c = true

/-- Decimal digits, the first of which is not `'0'`. -/
def NonzeroLed (digits : List UInt8) : Prop :=
  ∃ d ds, digits = d :: ds ∧ d ≠ ch '0' ∧ isDigit d = true ∧ ∀ c ∈ ds, isDigit c = true

/-- What may stand before a period: nothing, digits, or zeros, of which there is one if
    there is no sign. -/
def WholePart (sign : Option UInt8) (whole : List UInt8) : Prop :=
  whole = [] ∨ NonzeroLed whole ∨
    ∃ k, whole = List.replicate (k + 1) (ch '0') ∧ (sign = none → k = 0)

/-- The literals that are accepted behind a sign or without one. -/
def Literal.Ok (sign : Option UInt8) : Literal → Prop
  | .zero => sign = none
  | .dec digits => NonzeroLed digits
  | .oct digits => sign = none ∧ digits ≠ [] ∧ ∀ c ∈ digits, isODigit c = true
  | .hex x digits => sign = none ∧ (x = ch 'x' ∨ x = ch 'X') ∧ ∀ c ∈ digits, isXDigit c = true
  | .bin b digits => sign = none ∧ (b = ch 'b' ∨ b = ch 'B') ∧ ∀ c ∈ digits, isBDigit c = true
  | .frac whole digits => WholePart sign whole ∧ ∀ c ∈ digits, isDigit c = true

/-- White space is not accepted behind zero and decimal literals. -/
def Literal.TakesWhite : Literal → Prop
  | .zero | .dec _ => False
  | _ => True

def Tail.Ok (literal : Literal) : Tail → Prop
  | .white w => AllWhite w ∧ (w ≠ [] → literal.TakesWhite)
  | .suffix letter _ => isPrefix letter = true

theorem tail_ok_nil (literal : Literal) : (Tail.white []).Ok literal :=
  ⟨List.forall_mem_nil _, fun hne => absurd rfl hne⟩

/-- The texts that are accepted. -/
structure Numeral.Ok (n : Numeral) : Prop where
  white : AllWhite n.white
  sign : ∀ c ∈ n.sign, c = ch '-' ∨ c = ch '+'
  literal : n.literal.Ok n.sign
  tail : n.tail.Ok n.literal

/-! ## Values -/

/-- The value of a digit in any base. -/
def digitValue (c : UInt8) : Nat := if isDigit c then c.toNat - 48 else getXDigit c

/-- The value of digits behind others that are worth `n`. -/
def digitsFrom (base n : Nat) (digits : List UInt8) : Nat :=
  digits.foldl (fun n c => n * base + digitValue c) n

/-- The exact value of a literal; of a fraction, that of its whole part. -/
def Literal.value : Literal → Nat
  | .zero => 0
  | .dec digits => digitsFrom 10 0 digits
  | .oct digits => digitsFrom 8 0 digits
  | .hex _ digits => digitsFrom 16 0 digits
  | .bin _ digits => digitsFrom 2 0 digits
  | .frac whole _ => digitsFrom 10 0 whole

/-- The multiplier of a suffix: a binary one if an `i` comes next, white space aside. -/
def suffixMultiplier (letter : UInt8) (rest : List UInt8) : Nat :=
  if (rest.dropWhile isWhite).head?.any isBin then getBinPrefix letter else getPrefix letter

def Tail.multiplier : Tail → Nat
  | .white _ => 1
  | .suffix letter rest => suffixMultiplier letter rest

/-- The sign as a factor. -/
def signum (sign : Option UInt8) : Int := if sign = some (ch '-') then -1 else 1

/-- A number of this sign and magnitude, wrapped to its type. -/
def wrapped {F : Type} (sign : Int) (magnitude : Nat) : NumResult F :=
  if sign = -1 then .int64 ((-(magnitude : Int)).bmod (2 ^ 64)) else .uint64 (magnitude % 2 ^ 64)

variable {F : Type} [Double F]

/-- The digits of a fraction, and the power of ten by which the last was divided. -/
def fractionFrom (acc : F × F) (digits : List UInt8) : F × F :=
  digits.foldl (fun acc c =>
    (acc.1 + Double.ofNat (c.toNat - 48) / (acc.2 * Double.ofNat 10), acc.2 * Double.ofNat 10)) acc

/-- A fraction is not multiplied by binary multipliers. -/
def Tail.scale (f : F) : Tail → F
  | .white _ => f
  | .suffix letter _ => f * Double.ofNat (getPrefix letter)

/-- What the parser returns. -/
def Numeral.result (n : Numeral) (F : Type := Float) [Double F] : NumResult F :=
  match n.literal with
  | .frac whole digits =>
      .double
        (n.tail.scale (fractionFrom
          (Double.ofNat (digitsFrom 10 0 whole % 2 ^ 64), Double.ofNat 1) digits).1
            * Double.ofInt (signum n.sign))
  | literal => wrapped (signum n.sign) (literal.value * n.tail.multiplier)

theorem Numeral.result_of_isInteger {n : Numeral} (h : n.literal.IsInteger) :
    n.result F = wrapped (signum n.sign) (n.literal.value * n.tail.multiplier) := by
  obtain ⟨white, sign, literal, tail⟩ := n
  cases literal with
  | frac whole digits => exact absurd h id
  | zero | dec digits | oct digits | hex x digits | bin b digits => rfl

end Camio.Parsing
