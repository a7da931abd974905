/-
  Camio.Log.Line

  What it means to split a byte stream into lines.

  `LineEnd` says how many bytes a line at the start of some bytes takes, its
  terminator included; `Split` iterates it.  Two of them matter: `lineEnd`, where
  LF, CR, CR LF and LF LF are one terminator each, and `plainEnd`, where every LF
  and every CR is a terminator of its own.
-/

import Mathlib.Data.List.Basic

namespace Camio.Log

abbrev lf : UInt8 := 10
abbrev cr : UInt8 := 13

def isTerminator (b : UInt8) : Bool := b == lf || b == cr

/-- The number of bytes of a line at the start of some bytes, terminator included;
    `none` if there is no complete line. -/
abbrev LineEnd := List UInt8 → Option Nat

/-- Every terminator byte ends a line. -/
def plainEnd : LineEnd := fun bytes => (bytes.findIdx? isTerminator).map (· + 1)

/-- An LF behind a terminator byte belongs to it. -/
def lineEnd : LineEnd := fun bytes =>
  (bytes.findIdx? isTerminator).map fun k => if bytes[k + 1]? = some lf then k + 2 else k + 1

theorem plainEnd_of_some {bytes : List UInt8} {k : Nat}
    (h : bytes.findIdx? isTerminator = some k) : plainEnd bytes = some (k + 1) := by
  simp only [plainEnd, h, Option.map_some]

theorem lineEnd_of_some {bytes : List UInt8} {k : Nat}
    (h : bytes.findIdx? isTerminator = some k) :
    lineEnd bytes = some (if bytes[k + 1]? = some lf then k + 2 else k + 1) := by
  simp only [lineEnd, h, Option.map_some]

theorem plainEnd_eq_none_iff {bytes : List UInt8} :
    plainEnd bytes = none ↔ bytes.findIdx? isTerminator = none := by
  rw [plainEnd, Option.map_eq_none_iff]

theorem lineEnd_eq_none_iff {bytes : List UInt8} :
    lineEnd bytes = none ↔ bytes.findIdx? isTerminator = none := by
  rw [lineEnd, Option.map_eq_none_iff]

/-- The first terminator of some bytes is not moved by bytes behind them. -/
theorem findIdx?_append_of_some {bytes more : List UInt8} {k : Nat}
    (h : bytes.findIdx? isTerminator = some k) :
    (bytes ++ more).findIdx? isTerminator = some k := by
  rw [List.findIdx?_append, h]
  rfl

theorem findIdx?_lt {bytes : List UInt8} {k : Nat} (h : bytes.findIdx? isTerminator = some k) :
    k < bytes.length :=
  (List.findIdx?_eq_some_iff_getElem.mp h).1

/-! ## Splitting -/

/-- `Split e bytes lines rest`: cut into lines by `e`, the bytes begin with `lines`,
    and `rest` is left. -/
inductive Split (e : LineEnd) : List UInt8 → List (List UInt8) → List UInt8 → Prop where
  | nil (bytes : List UInt8) : Split e bytes [] bytes
  | cons {bytes rest : List UInt8} {n : Nat} {lines : List (List UInt8)} :
      e bytes = some n → Split e (bytes.drop n) lines rest →
      Split e bytes (bytes.take (n - 1) :: lines) rest

variable {e : LineEnd}

/-- One more line may be cut off what is left. -/
theorem Split.snoc {bytes rest : List UInt8} {lines : List (List UInt8)} {n : Nat}
    (h : Split e bytes lines rest) (hn : e rest = some n) :
    Split e bytes (lines ++ [rest.take (n - 1)]) (rest.drop n) := by
  induction h with
  | nil bytes => exact Split.cons hn (Split.nil _)
  | cons hline _ ih => exact Split.cons hline (ih hn)

/-- Splitting until no line is left has one result. -/
theorem Split.unique {bytes rest rest' : List UInt8} {lines lines' : List (List UInt8)}
    (h : Split e bytes lines rest) (hend : e rest = none)
    (h' : Split e bytes lines' rest') (hend' : e rest' = none) :
    lines = lines' ∧ rest = rest' := by
  induction h generalizing lines' with
  | nil bytes =>
      cases h' with
      | nil => exact ⟨rfl, rfl⟩
      | cons hline _ => exact absurd (hend.symm.trans hline) nofun
  | cons hline _ ih =>
      cases h' with
      | nil => exact absurd (hend'.symm.trans hline) nofun
      | cons hline' hrest' =>
          obtain rfl := Option.some.inj (hline.symm.trans hline')
          obtain ⟨hlines, hrest⟩ := ih hend hrest'
          exact ⟨by rw [hlines], hrest⟩

/-- No split gives more lines than one that leaves none. -/
theorem Split.length_le {bytes rest rest' : List UInt8} {lines lines' : List (List UInt8)}
    (h : Split e bytes lines rest) (h' : Split e bytes lines' rest') (hend' : e rest' = none) :
    lines.length ≤ lines'.length := by
  induction h generalizing lines' with
  | nil bytes => exact Nat.zero_le _
  | cons hline _ ih =>
      cases h' with
      | nil => exact absurd (hend'.symm.trans hline) nofun
      | cons hline' hrest' =>
          obtain rfl := Option.some.inj (hline.symm.trans hline')
          exact Nat.succ_le_succ (ih hrest')

end Camio.Log
