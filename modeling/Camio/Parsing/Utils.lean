/-
  Camio.Parsing.Utils

  Classes of characters: those of `ctype.h` that the parser uses, in the "C" locale, and
  `utils.c`.
-/

import Mathlib.Algebra.Group.Int.Defs
import Mathlib.Algebra.Group.Nat.Defs
import Mathlib.Data.List.TakeWhile

namespace Camio.Parsing

/-- An ASCII character as a byte. -/
abbrev ch (c : Char) : UInt8 := UInt8.ofNat c.toNat

/-- `isdigit` -/
def isDigit (c : UInt8) : Bool := 48 ≤ c.toNat && c.toNat ≤ 57

/-- `isupper` -/
def isUpper (c : UInt8) : Bool := 65 ≤ c.toNat && c.toNat ≤ 90

/-- `isxdigit` -/
def isXDigit (c : UInt8) : Bool :=
  isDigit c || (65 ≤ c.toNat && c.toNat ≤ 70) || (97 ≤ c.toNat && c.toNat ≤ 102)

/-- `isodigit` -/
def isODigit (c : UInt8) : Bool := 48 ≤ c.toNat && c.toNat ≤ 55

/-- `isbdigit` -/
def isBDigit (c : UInt8) : Bool := 48 ≤ c.toNat && c.toNat ≤ 49

/-- `getxdigit`, a `uint8_t`. -/
def getXDigit (c : UInt8) : Nat :=
  ((if isUpper c then (10 : Int) + (c.toNat - 65) else 10 + (c.toNat - 97)) % 2 ^ 8).toNat

/-- `iswhite` -/
def isWhite (c : UInt8) : Bool := c = ch '\r' || c = ch '\n' || c = ch ' ' || c = ch '\t'

end Camio.Parsing
