/-
  Camio.Lib.Local

  Local arrays of characters.

  A cell is unset until it is stored to.  A store behind the last cell is refused, and
  reading the array as a string fails if it meets an unset cell, or the end of the array,
  before a NUL.  `copyString` is the usual pair of statements "copy the characters, then
  terminate": it needs one cell more than there are characters.
-/

import Mathlib.Data.List.Basic

namespace Camio.Lib

/-- A local array of `n` characters. -/
structure Local (n : Nat) where
  cells : List (Option UInt8)
  size : cells.length = n
deriving DecidableEq

namespace Local

variable {n : Nat}

/-- The array as it is declared. -/
def unset (n : Nat) : Local n := ⟨List.replicate n none, List.length_replicate⟩

/-- `memcpy` to the start of the array. -/
def memcpy (a : Local n) (src : List UInt8) : Option (Local n) :=
  if h : src.length ≤ n then
    some ⟨src.map some ++ a.cells.drop src.length, by
      rw [List.length_append, List.length_map, List.length_drop, a.size]
      omega⟩
  else none

/-- Store one character. -/
def store (a : Local n) (i : Nat) (c : UInt8) : Option (Local n) :=
  if i < n then some ⟨a.cells.set i (some c), by rw [List.length_set, a.size]⟩ else none

/-- Copy the characters, and terminate them. -/
def copyString (a : Local n) (src : List UInt8) : Option (Local n) :=
  (a.memcpy src).bind fun a => a.store src.length 0

/-- The characters in front of the first NUL. -/
def stringIn : List (Option UInt8) → Option (List UInt8)
  | [] => none
  | none :: _ => none
  | some c :: cells => if c = 0 then some [] else (stringIn cells).map (c :: ·)

/-- The array read as a string. -/
def string (a : Local n) : Option (List UInt8) := stringIn a.cells

/-- An array of which no cell is set holds no string. -/
theorem string_unset (n : Nat) : (unset n).string = none := by
  show stringIn (List.replicate n none) = none
  cases n with
  | zero => rfl
  | succ n => rfl

theorem stringIn_append {src : List UInt8} (h0 : 0 ∉ src) (cells : List (Option UInt8)) :
    stringIn (src.map some ++ some 0 :: cells) = some src := by
  induction src with
  | nil => rfl
  | cons c src ih =>
      rw [List.mem_cons, not_or] at h0
      rw [List.map_cons, List.cons_append, stringIn, if_neg fun h => h0.1 h.symm, ih h0.2,
        Option.map_some]

/-- The terminator needs a cell of its own. -/
theorem copyString_eq_none {a : Local n} {src : List UInt8} (h : n ≤ src.length) :
    a.copyString src = none := by
  rw [copyString, memcpy]
  split
  next => rw [Option.bind_some, store, if_neg (Nat.not_lt_of_le h)]
  next => exact Option.bind_none _

/-- What is copied into an array that is large enough is read back from it. -/
theorem copyString_of_lt (a : Local n) {src : List UInt8} (h : src.length < n) (h0 : 0 ∉ src) :
    ∃ b, a.copyString src = some b ∧ b.string = some src := by
  rw [copyString, memcpy, dif_pos (Nat.le_of_lt h), Option.bind_some, store, if_pos h]
  refine ⟨_, rfl, ?_⟩
  have hlt : src.length < a.cells.length := by rwa [a.size]
  show stringIn ((src.map some ++ a.cells.drop src.length).set src.length (some 0)) = some src
  rw [List.drop_eq_getElem_cons hlt, List.set_append_right _ _ (by simp), List.length_map,
    Nat.sub_self, List.set_cons_zero]
  exact stringIn_append h0 _

end Local

end Camio.Lib
