/-
  Camio.Log.Unescape

  `unescape` as a loop that notes every index of the buffer it reads or writes, and what it
  is for: to leave the bytes of the buffer decoded, with their number.

  It gets there in few cases.  The value it stores is 0 for every sequence, it does not move
  the other bytes to the places left free, and below three bytes its bound wraps around.
-/

import Camio.Lib.Loop
import Camio.Log.Escape

namespace Camio.Log

open Camio.Lib

/-! ## The loop -/

/-- The variables of `unescape`, the memory of the buffer, and the indices touched so far. -/
structure UnescapeLoop where
  mem : Mem
  read : Nat
  write : Nat
  result : Nat
  touched : List Nat

/-- The indices a turn looks at.  The byte behind is looked at only if this one is a
    backslash. -/
def lookedAt (m : Mem) (buffer read : Nat) : List Nat :=
  [read + 2, read + 3, read] ++ if m (buffer + read) = 92 then [read + 1] else []

/-- A turn of its loop. -/
def unescapeTurn (buffer size : Nat) (u : UnescapeLoop) : Option UnescapeLoop :=
  if u.read < sizeSub size 3 then
    let lower := asciiHexToInt (u.mem (buffer + u.read + 2))
    let upper := asciiHexToInt (u.mem (buffer + u.read + 3))
    let touched := u.touched ++ lookedAt u.mem buffer u.read
    if u.mem (buffer + u.read) = 92 ∧
        (u.mem (buffer + u.read + 1) = 120 ∨ u.mem (buffer + u.read + 1) = 88) ∧
        lower > -1 ∧ upper > -1 then
      let byte := UInt8.ofNat (upper.toNat <<< 4 &&& lower.toNat)
      some { mem := u.mem.write (buffer + u.write) [byte], read := u.read + 3 + 1
             write := u.write + 1, result := sizeSub u.result 3
             touched := touched ++ [u.write] }
    else some { u with read := u.read + 1, write := u.write + 1, touched := touched }
  else none

/-- The variables in front of the loop. -/
def unescapeStart (m : Mem) (size : Nat) : UnescapeLoop :=
  { mem := m, read := 0, write := 0, result := size, touched := [] }

section Loop

variable {buffer size fuel n : Nat} {u v : UnescapeLoop} {m : Mem}

theorem unescapeLoop_of_endsAfter (h : EndsAfter (unescapeTurn buffer size) n u v)
    (hfuel : n ≤ fuel) :
    unescapeLoop u.mem buffer size fuel u.read u.write u.result = (v.mem, v.result) := by
  induction n generalizing u fuel with
  | zero =>
      obtain ⟨rfl, hend⟩ := h
      cases fuel with
      | zero => rfl
      | succ fuel =>
          rw [unescapeTurn] at hend
          rw [unescapeLoop]
          by_cases hlt : u.read < sizeSub size 3
          · rw [if_pos hlt] at hend
            dsimp only at hend
            split at hend
            next => cases hend
            next => cases hend
          · rw [if_neg hlt]
  | succ n ih =>
      obtain ⟨fuel, rfl⟩ := Nat.exists_eq_add_of_le' (Nat.lt_of_lt_of_le (Nat.succ_pos n) hfuel)
      obtain ⟨⟨w, hturn, hrest⟩, hend⟩ := h
      rw [unescapeTurn] at hturn
      rw [unescapeLoop]
      by_cases hlt : u.read < sizeSub size 3
      · rw [if_pos hlt] at hturn ⊢
        dsimp only at hturn ⊢
        split at hturn
        next hstart =>
          obtain rfl := Option.some.inj hturn
          rw [if_pos hstart]
          exact ih ⟨hrest, hend⟩ (Nat.le_of_succ_le_succ hfuel)
        next hstart =>
          obtain rfl := Option.some.inj hturn
          rw [if_neg hstart]
          exact ih ⟨hrest, hend⟩ (Nat.le_of_succ_le_succ hfuel)
      · rw [if_neg hlt] at hturn
        cases hturn

theorem le_of_mem_lookedAt {i read : Nat} (h : i ∈ lookedAt m buffer read) : i ≤ read + 3 := by
  rw [lookedAt] at h
  split at h
  next => simp at h; omega
  next => simp at h; omega

/-- What a turn does with the cursors, and which indices it touches. -/
theorem unescapeTurn_spec (h : unescapeTurn buffer size u = some v) :
    u.read < sizeSub size 3 ∧ u.read < v.read ∧ v.write = u.write + 1 ∧
      (v.touched = u.touched ++ lookedAt u.mem buffer u.read ∨
        v.touched = u.touched ++ lookedAt u.mem buffer u.read ++ [u.write]) := by
  rw [unescapeTurn] at h
  by_cases hlt : u.read < sizeSub size 3
  · rw [if_pos hlt] at h
    dsimp only at h
    split at h
    next =>
      obtain rfl := Option.some.inj h
      exact ⟨hlt, by dsimp only; omega, rfl, Or.inr rfl⟩
    next =>
      obtain rfl := Option.some.inj h
      exact ⟨hlt, Nat.lt_succ_self _, rfl, Or.inl rfl⟩
  · rw [if_neg hlt] at h
    cases h

/-- The loop ends, on any bytes and for any size. -/
theorem unescape_ends (m : Mem) (buffer size : Nat) : ∃ n v, n ≤ sizeSub size 3 ∧
    EndsAfter (unescapeTurn buffer size) n (unescapeStart m size) v := by
  have hturn : ∀ u v, True → unescapeTurn buffer size u = some v →
      True ∧ sizeSub size 3 - v.read < sizeSub size 3 - u.read := by
    intro u v _ h
    obtain ⟨hlt, hread, -⟩ := unescapeTurn_spec h
    exact ⟨trivial, by omega⟩
  obtain ⟨n, v, hn, hend, -⟩ := ends_within (fun _ => True) (fun u => sizeSub size 3 - u.read)
    hturn (s := unescapeStart m size) trivial
  exact ⟨n, v, hn, hend⟩

/-- What it leaves is what `unescape` leaves. -/
theorem unescape_of_endsAfter
    (h : EndsAfter (unescapeTurn buffer size) n (unescapeStart m size) v) :
    unescape m buffer size = (v.mem, v.result) := by
  obtain ⟨k, w, hk, hend⟩ := unescape_ends m buffer size
  obtain ⟨rfl, rfl⟩ := h.unique hend
  exact unescapeLoop_of_endsAfter h hk

/-- From three bytes on, it leaves the bytes that are unescaped, and their number. -/
theorem unescaped_of_endsAfter (hthree : 3 ≤ size) (hsize : size < 2 ^ 64)
    (h : EndsAfter (unescapeTurn buffer size) n (unescapeStart m size) v) :
    v.result = (unescaped (m.read buffer size)).length ∧
      v.mem.read buffer v.result = unescaped (m.read buffer size) := by
  obtain ⟨hresult, hbytes⟩ := @unescape_spec m buffer size hsize hthree
  rw [unescape_of_endsAfter h] at hresult hbytes
  dsimp only at hresult hbytes
  rw [← hresult] at hbytes
  exact ⟨hresult, hbytes⟩

/-- What the turns keep in a buffer of three bytes or more. -/
structure Touches (size : Nat) (u : UnescapeLoop) : Prop where
  write_le : u.write ≤ u.read
  inside : ∀ i ∈ u.touched, i < size

theorem Touches.turn (h : Touches size u) (hthree : 3 ≤ size) (hsize : size < 2 ^ 64)
    (hturn : unescapeTurn buffer size u = some v) : Touches size v := by
  have hwrite := h.write_le
  obtain ⟨hlt, hread, hnext, htouched⟩ := unescapeTurn_spec hturn
  rw [sizeSub_of_le hthree (by omega)] at hlt
  have hlooked : ∀ i ∈ u.touched ++ lookedAt u.mem buffer u.read, i < size := by
    intro i hi
    rcases List.mem_append.mp hi with hi | hi
    · exact h.inside i hi
    · have hle := le_of_mem_lookedAt hi
      omega
  refine ⟨by omega, ?_⟩
  rcases htouched with heq | heq
  · rw [heq]
    exact hlooked
  · rw [heq]
    intro i hi
    rcases List.mem_append.mp hi with hi | hi
    · exact hlooked i hi
    · -- the write cursor is not in front of the read cursor
      rw [List.mem_singleton.mp hi]
      omega

/-- From three bytes on, every index touched is one of the buffer. -/
theorem touched_lt (hthree : 3 ≤ size) (hsize : size < 2 ^ 64)
    (h : EndsAfter (unescapeTurn buffer size) n (unescapeStart m size) v) :
    ∀ i ∈ v.touched, i < size := by
  have hstart : Touches size (unescapeStart m size) :=
    ⟨Nat.le_refl _, fun i hi => absurd hi List.not_mem_nil⟩
  have hkept := h.1.invariant (Touches size) (fun u w hu hturn => hu.turn hthree hsize hturn) hstart
  exact hkept.inside

/-- With fewer bytes the bound of the loop wraps around, and the first turn already looks
    behind the buffer. -/
theorem two_mem_touched (hthree : size < 3)
    (h : EndsAfter (unescapeTurn buffer size) n (unescapeStart m size) v) : 2 ∈ v.touched := by
  have hbound : 0 < sizeSub size 3 := by
    rw [sizeSub]
    omega
  cases n with
  | zero =>
      obtain ⟨rfl, hend⟩ := h
      rw [unescapeTurn, unescapeStart, if_pos hbound] at hend
      dsimp only at hend
      split at hend
      next => cases hend
      next => cases hend
  | succ n =>
      obtain ⟨⟨u, hturn, hrest⟩, -⟩ := h
      -- the first turn looks at it, and no turn forgets an index
      have hkept : ∀ u w : UnescapeLoop, 2 ∈ u.touched → unescapeTurn buffer size u = some w →
          2 ∈ w.touched := by
        intro u w hu hw
        obtain ⟨-, -, -, heq | heq⟩ := unescapeTurn_spec hw
        · rw [heq]
          exact List.mem_append_left _ hu
        · rw [heq]
          exact List.mem_append_left _ (List.mem_append_left _ hu)
      refine hrest.invariant (fun w => 2 ∈ w.touched) hkept ?_
      have hfirst : 2 ∈ lookedAt m buffer 0 := List.mem_append_left _ List.mem_cons_self
      obtain ⟨-, -, -, heq | heq⟩ := unescapeTurn_spec hturn
      · rw [heq]
        exact List.mem_append_right _ hfirst
      · rw [heq]
        exact List.mem_append_left _ (List.mem_append_right _ hfirst)

end Loop

/-! ## Decoding -/

/-- The byte that two hex digits denote. -/
def hexByte (c d : UInt8) : UInt8 :=
  UInt8.ofNat ((asciiHexToInt c).toNat * 16 + (asciiHexToInt d).toNat)

/-- The bytes decoded from left to right: a sequence becomes the byte it denotes, every other
    byte is kept. -/
def decoding : List UInt8 → List UInt8
  | a :: x :: c :: d :: l =>
      if StartsEscape (a :: x :: c :: d :: l) then hexByte c d :: decoding l
      else a :: decoding (x :: c :: d :: l)
  | l => l

/-- Every sequence of `l` is one for 0, and every other byte stands already at the place it
    belongs to.  The places of the decoded bytes of `l` hold `places`. -/
def FallsInPlace : (places l : List UInt8) → Prop
  | p :: places, a :: x :: c :: d :: l =>
      if StartsEscape (a :: x :: c :: d :: l) then c = 48 ∧ d = 48 ∧ FallsInPlace places l
      else a = p ∧ FallsInPlace places (x :: c :: d :: l)
  | places, l => l <+: places

section Decoding

variable {a x c d p : UInt8} {l places : List UInt8}

theorem marks_sequence (h : StartsEscape (a :: x :: c :: d :: l)) :
    marks (a :: x :: c :: d :: l) 0 = true :: marks l 0 := if_pos h

theorem marks_kept (h : ¬ StartsEscape (a :: x :: c :: d :: l)) :
    marks (a :: x :: c :: d :: l) 0 = false :: marks (x :: c :: d :: l) 0 := if_neg h

theorem length_lt_of_short (h : ∀ a x c d l', l = a :: x :: c :: d :: l' → False) :
    l.length < 4 := by
  rcases l with _ | ⟨a, _ | ⟨x, _ | ⟨c, _ | ⟨d, l⟩⟩⟩⟩
  · simp
  · simp
  · simp
  · simp
  · exact (h a x c d l rfl).elim

theorem decoding_short (h : l.length < 4) : decoding l = l := by
  rcases l with _ | ⟨a, _ | ⟨x, _ | ⟨c, _ | ⟨d, l⟩⟩⟩⟩
  · rfl
  · rfl
  · rfl
  · rfl
  · simp at h
    omega

theorem zipWith_replicate_false {n : Nat} (h : n ≤ places.length) :
    List.zipWith (fun mark b => if mark then 0 else b) (List.replicate n false) places
      = places.take n := by
  induction n generalizing places with
  | zero => rfl
  | succ n ih =>
      obtain ⟨p, places, rfl⟩ := List.exists_cons_of_length_pos (Nat.lt_of_lt_of_le n.succ_pos h)
      rw [List.replicate_succ, List.zipWith_cons_cons, List.take_succ_cons,
        ih (Nat.le_of_succ_le_succ h), if_neg Bool.false_ne_true]

theorem asciiHexToInt_eq_zero_iff {c : UInt8} : asciiHexToInt c = 0 ↔ c = 48 := by
  rw [asciiHexToInt, ← UInt8.toNat_inj]
  split_ifs <;> simp <;> omega

theorem hexByte_eq_zero_iff (hc : asciiHexToInt c > -1) (hd : asciiHexToInt d > -1) :
    hexByte c d = 0 ↔ c = 48 ∧ d = 48 := by
  have hc' := asciiHexToInt_lt c
  have hd' := asciiHexToInt_lt d
  rw [← asciiHexToInt_eq_zero_iff, ← asciiHexToInt_eq_zero_iff, hexByte, ← UInt8.toNat_inj,
    UInt8.toNat_ofNat', UInt8.toNat_zero]
  omega

/-- What is left at the places is the decoding exactly if everything falls in place. -/
theorem zipWith_marks_iff (hle : l.length ≤ places.length) :
    List.zipWith (fun mark b => if mark then 0 else b) (marks l 0) places = decoding l ↔
      FallsInPlace places l := by
  fun_induction FallsInPlace places l with
  | case1 p places a x c d l h ih =>
      -- a sequence: its place holds 0, whatever it is for
      have hrest : l.length ≤ places.length := by
        simp only [List.length_cons] at hle
        omega
      obtain ⟨-, -, hc, hd⟩ := id h
      rw [marks_sequence h, decoding, if_pos h, List.zipWith_cons_cons, List.cons_eq_cons, ih hrest,
        if_pos rfl, eq_comm, hexByte_eq_zero_iff hc hd, and_assoc]
  | case2 p places a x c d l h ih =>
      -- a byte that is kept: its place holds what has been there before
      have hrest : (x :: c :: d :: l).length ≤ places.length := Nat.le_of_succ_le_succ hle
      rw [marks_kept h, decoding, if_neg h, List.zipWith_cons_cons, List.cons_eq_cons, ih hrest,
        if_neg Bool.false_ne_true, eq_comm]
  | case3 places l hshort =>
      -- no sequence starts in the last three bytes
      have hfour : l.length < 4 := by
        refine length_lt_of_short fun a x c d l' hl => ?_
        subst hl
        obtain ⟨p, places, rfl⟩ :=
          List.exists_cons_of_length_pos (Nat.lt_of_lt_of_le (Nat.succ_pos _) hle)
        exact hshort p places a x c d l' rfl rfl
      rw [marks_short hfour, decoding_short hfour, zipWith_replicate_false hle, eq_comm,
        List.prefix_iff_eq_take]

end Decoding

/-- What a call of `unescape` is to do: it ends, touches nothing but the buffer, and leaves
    the decoded bytes in front of it and their number as its result. -/
def Unescapes (m : Mem) (buffer size : Nat) : Prop :=
  ∃ n u, EndsAfter (unescapeTurn buffer size) n (unescapeStart m size) u ∧
    (∀ i ∈ u.touched, i < size) ∧ u.result = (decoding (m.read buffer size)).length ∧
    u.mem.read buffer u.result = decoding (m.read buffer size)

/-- It does so exactly if the buffer has three bytes or more, its sequences are all for 0, and
    every other byte stands already at the place it belongs to. -/
theorem unescapes_iff {size : Nat} (m : Mem) (buffer : Nat) (hsize : size < 2 ^ 64) :
    Unescapes m buffer size ↔
      3 ≤ size ∧ FallsInPlace (m.read buffer size) (m.read buffer size) := by
  obtain ⟨n, u, -, hend⟩ := unescape_ends m buffer size
  have hiff := zipWith_marks_iff (Nat.le_refl (m.read buffer size).length)
  constructor
  · rintro ⟨k, v, hend', hinside, hresult, hbytes⟩
    obtain ⟨rfl, rfl⟩ := hend.unique hend'
    have hthree : 3 ≤ size := by
      by_contra hshort
      have htwo := hinside 2 (two_mem_touched (Nat.lt_of_not_le hshort) hend)
      omega
    have hleft := (unescaped_of_endsAfter hthree hsize hend).2
    exact ⟨hthree, hiff.mp (hleft.symm.trans hbytes)⟩
  · rintro ⟨hthree, hplace⟩
    have hdecoding : unescaped (m.read buffer size) = decoding (m.read buffer size) :=
      hiff.mpr hplace
    obtain ⟨hresult, hbytes⟩ := unescaped_of_endsAfter hthree hsize hend
    rw [hdecoding] at hresult hbytes
    exact ⟨n, u, hend, touched_lt hthree hsize hend, hresult, hbytes⟩

/-- The text `\x00x`, whose last byte moves to a place where there is an `x`. -/
def demoNulX : Mem := fun i => [92, 120, 48, 48, 120].getD i 0

theorem unescapes_iff_nul_x : Unescapes demoNulX 0 5 := by
  have hplace : FallsInPlace [92, 120, 48, 48, 120] [92, 120, 48, 48, 120] := by
    rw [FallsInPlace, if_pos (by decide)]
    exact ⟨rfl, rfl, List.prefix_append _ _⟩
  exact (unescapes_iff demoNulX 0 (by decide)).mpr ⟨by decide, hplace⟩

/-- The text `\x41`. -/
def demoCapitalA : Mem := fun i => [92, 120, 52, 49].getD i 0

/-- It is left as a NUL. -/
theorem unescapes_fails_capital_a :
    ¬ ∀ (m : Mem) (buffer size : Nat), size < 2 ^ 64 → Unescapes m buffer size := by
  intro hall
  obtain ⟨n, u, hend, -, hresult, hbytes⟩ := hall demoCapitalA 0 4 (by decide)
  have hone : u.result = 1 := hresult
  have hleft : (unescape demoCapitalA 0 4).1.read 0 1 = [65] := by
    rw [unescape_of_endsAfter hend]
    dsimp only
    rw [← hone, hbytes]
    rfl
  exact absurd hleft (by decide)

end Camio.Log
