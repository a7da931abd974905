/-
  Camio.Lib.CStr

  NUL-terminated strings read through a cursor.

  `s.charAt i` is the character at index `i`: a byte of the string, the terminator
  at `i = s.length`, and `none` beyond it, so a reader that walks off the string
  is visible.  `scan` is the pointer loop "advance until a stop character";
  `scan_eq` says where it ends, provided the terminator is one of the stop
  characters.
-/

import Mathlib.Data.List.TakeWhile

namespace Camio.Lib

/-- A NUL-terminated string: the bytes before its terminator. -/
structure CStr where
  bytes : List UInt8
  noNul : 0 ∉ bytes

namespace CStr

/-- Length without the terminator, as `strlen` counts it. -/
def length (s : CStr) : Nat := s.bytes.length

/-- The character at index `i`; `none` behind the terminator. -/
def charAt (s : CStr) (i : Nat) : Option UInt8 :=
  if i = s.length then some 0 else s.bytes[i]?

/-- The characters from index `i` up to index `j`. -/
def slice (s : CStr) (i j : Nat) : List UInt8 := (s.bytes.drop i).take (j - i)

/-- Advance from index `i` to the first character of the stop set. -/
def scan (s : CStr) (stop : UInt8 → Bool) : Nat → Nat → Option Nat
  | 0, _ => none
  | fuel + 1, i =>
      match s.charAt i with
      | none => none
      | some c => if stop c then some i else s.scan stop fuel (i + 1)

theorem charAt_length (s : CStr) : s.charAt s.length = some 0 := by
  simp [charAt]

theorem charAt_of_lt {s : CStr} {i : Nat} (h : i < s.length) : s.charAt i = s.bytes[i]? := by
  rw [charAt, if_neg (by omega)]

theorem charAt_eq_none {s : CStr} {i : Nat} (h : s.length < i) : s.charAt i = none := by
  rw [charAt, if_neg (Nat.ne_of_gt h), List.getElem?_eq_none (Nat.le_of_lt h)]

/-- A character read inside the string is not the terminator. -/
theorem charAt_ne_zero {s : CStr} {i : Nat} (h : i < s.length) : s.charAt i ≠ some 0 := by
  rw [charAt_of_lt h]
  intro h0
  exact s.noNul (List.mem_of_getElem? h0)

/-- The terminator is read exactly at the end of the string. -/
theorem charAt_eq_zero_iff {s : CStr} {i : Nat} (h : i ≤ s.length) :
    s.charAt i = some 0 ↔ i = s.length := by
  constructor
  · intro h0
    by_contra hne
    exact charAt_ne_zero (by omega) h0
  · rintro rfl
    exact s.charAt_length

/-- A non-empty rest starts inside the string, and the rest behind its first
    character is the rest one place on. -/
theorem of_drop_eq_cons {s : CStr} {i : Nat} {c : UInt8} {rest : List UInt8}
    (h : s.bytes.drop i = c :: rest) : i < s.length ∧ s.bytes.drop (i + 1) = rest := by
  constructor
  · have hlen := congrArg List.length h
    rw [List.length_drop, List.length_cons] at hlen
    rw [length]
    omega
  · rw [← List.drop_drop, h, List.drop_one, List.tail_cons]

/-- The first character of a non-empty rest of the string. -/
theorem charAt_of_drop_eq_cons {s : CStr} {i : Nat} {c : UInt8} {rest : List UInt8}
    (h : s.bytes.drop i = c :: rest) : s.charAt i = some c := by
  rw [charAt_of_lt (of_drop_eq_cons h).1, ← List.head?_drop, h, List.head?_cons]

/-- A scan that stops at the terminator at the latest ends behind the longest
    stretch of characters outside its stop set, and never leaves the string. -/
theorem scan_eq {s : CStr} {stop : UInt8 → Bool} (h0 : stop 0 = true) {fuel i : Nat}
    (hi : i ≤ s.length) (hfuel : s.length < fuel + i) :
    s.scan stop fuel i =
      some (i + ((s.bytes.drop i).takeWhile (fun c => !stop c)).length) := by
  induction fuel generalizing i with
  | zero => omega
  | succ fuel ih =>
      rw [scan]
      cases hr : s.bytes.drop i with
      | nil =>
          -- nothing left: the scan is on the terminator
          have hend : i = s.length := by
            have hle := List.drop_eq_nil_iff.mp hr
            rw [length] at hi ⊢
            omega
          rw [hend, charAt_length]
          simp [h0]
      | cons c rest =>
          rw [charAt_of_drop_eq_cons hr]
          by_cases hc : stop c = true
          · simp [hc]
          · -- one character is passed; `ih` finishes the stretch
            obtain ⟨hlt, hrest⟩ := of_drop_eq_cons hr
            have htw : (c :: rest).takeWhile (fun c => !stop c)
                = c :: rest.takeWhile (fun c => !stop c) :=
              List.takeWhile_cons_of_pos (by simpa using hc)
            show (if stop c = true then some i else s.scan stop fuel (i + 1)) = _
            rw [htw, List.length_cons, if_neg hc, ih (by omega) (by omega), hrest]
            congr 1
            omega

/-- A scan over the rest `r` of the string: where it ends, what lies in front of
    that place and what behind it. -/
theorem scan_spec {s : CStr} (stop : UInt8 → Bool) (h0 : stop 0 = true) {i : Nat}
    {r : List UInt8} (hi : i ≤ s.length) (hr : s.bytes.drop i = r) :
    ∃ j, s.scan stop (s.length + 1) i = some j ∧ i ≤ j ∧ j ≤ s.length ∧
      s.slice i j = r.takeWhile (fun c => !stop c) ∧
      s.bytes.drop j = r.dropWhile (fun c => !stop c) := by
  have hscan := scan_eq h0 hi (by omega : s.length < s.length + 1 + i)
  have hlen := congrArg List.length hr
  have htw := (List.takeWhile_sublist (l := r) fun c => !stop c).length_le
  rw [hr] at hscan
  rw [List.length_drop] at hlen
  refine ⟨_, hscan, by omega, by rw [length] at hi ⊢; omega, ?_, ?_⟩
  -- what was passed
  · rw [slice, hr, Nat.add_sub_cancel_left]
    exact (List.prefix_iff_eq_take.mp (List.takeWhile_prefix _)).symm
  -- what is left
  · rw [← List.drop_drop, hr]
    calc r.drop (r.takeWhile fun c => !stop c).length
        = (r.takeWhile (fun c => !stop c) ++ r.dropWhile (fun c => !stop c)).drop
            (r.takeWhile fun c => !stop c).length := by
          rw [List.takeWhile_append_dropWhile]
      _ = r.dropWhile fun c => !stop c := List.drop_left

/-- The terminator is read where nothing of the string is left. -/
theorem charAt_eq_zero_iff_drop {s : CStr} {i : Nat} (h : i ≤ s.length) :
    s.charAt i = some 0 ↔ s.bytes.drop i = [] := by
  rw [charAt_eq_zero_iff h, List.drop_eq_nil_iff, length] at *
  omega

end CStr

end Camio.Lib
