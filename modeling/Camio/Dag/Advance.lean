/-
  Camio.Dag.Advance

  What `dag_advance_stream` tells the reader and the card.

  Positions count the bytes of the card's stream.  `R` is where memory was last given back,
  `P` behind the last record that was returned, and `A` where `record_ptr` stood when it was
  last looked at.
-/

import Mathlib.Tactic.SplitIfs
import Camio.Dag.Stream

namespace Camio.Dag

open Camio.Lib

/-! ## The card -/

/-- The sizes that memory holes have. -/
structure HoleSize (size : Nat) : Prop where
  aligned : 4 ∣ size
  ge : dagRecordSize ≤ size
  lt : size < 2 ^ 31

/-- The card has not come closer than the safety window to what lies `size` behind `R`, and
    all of its stream from `R` on is in the hole. -/
structure Writes (size R : Nat) (c : Card) : Prop where
  configured : c.configured = true
  recordPtr_le : c.recordPtr ≤ size
  recordPtr_mod : c.recordPtr % size = c.written.length % size
  limitPtr : c.limitPtr = (R + (size - safetyWindow)) % size
  released_le : R ≤ c.written.length
  written_le : c.written.length ≤ R + (size - safetyWindow)
  carries : Carries size c.hole R c.written

section Writing

variable {size R : Nat} {c : Card}

/-- The room that the card sees. -/
theorem Writes.room (hsize : HoleSize size) (h : Writes size R c) :
    c.room size = R + (size - safetyWindow) - c.written.length := by
  have hge := hsize.ge
  have hle := h.released_le
  rw [dagRecordSize] at hge
  have hpos : 0 < size := by omega
  rw [Card.room, h.limitPtr, h.recordPtr_mod, around_of_le hpos h.written_le, Nat.mod_eq_of_lt]
  rw [safetyWindow]
  omega

/-- Writing keeps the card behind its limit. -/
theorem Writes.arrive (hsize : HoleSize size) (h : Writes size R c) (count : Nat)
    (atEnd : Bool) : Writes size R (c.arrive size count atEnd) := by
  have hge := hsize.ge
  have hroom := h.room hsize
  have hwritten := h.written_le
  rw [dagRecordSize] at hge
  have hpos : 0 < size := by omega
  have hfits : (c.coming.take (min count (c.room size))).length
      ≤ R + (size - safetyWindow) - c.written.length := by
    rw [← hroom]
    exact Nat.le_trans (List.length_take_le _ _) (Nat.min_le_right _ _)
  have hlt := Nat.mod_lt (c.recordPtr + (c.coming.take (min count (c.room size))).length) hpos
  have hptr : (c.recordPtr + (c.coming.take (min count (c.room size))).length) % size
      = (c.written.length + (c.coming.take (min count (c.room size))).length) % size := by
    rw [Nat.add_mod, h.recordPtr_mod, ← Nat.add_mod]
  have hpour : pour size c.hole c.recordPtr (c.coming.take (min count (c.room size)))
      = pour size c.hole c.written.length (c.coming.take (min count (c.room size))) := by
    funext x
    rw [pour, pour, h.recordPtr_mod]
  refine ⟨h.configured, ?_, ?_, h.limitPtr, ?_, ?_, ?_⟩
  · dsimp only [Card.arrive]
    split_ifs <;> omega
  · dsimp only [Card.arrive]
    rw [List.length_append, ← hptr]
    split_ifs with hend
    · rw [Nat.mod_self, hend.1]
    · exact Nat.mod_mod _ _
  · dsimp only [Card.arrive]
    rw [List.length_append]
    exact Nat.le_add_right_of_le h.released_le
  · dsimp only [Card.arrive]
    rw [List.length_append]
    omega
  · dsimp only [Card.arrive]
    rw [hpour]
    exact h.carries.pour (by rw [safetyWindow] at hfits hwritten; omega) h.released_le

/-- What is written was coming. -/
theorem arrive_written (count : Nat) (atEnd : Bool) :
    (c.arrive size count atEnd).written ++ (c.arrive size count atEnd).coming
      = c.written ++ c.coming := by
  dsimp only [Card.arrive]
  rw [List.append_assoc, List.take_append_drop]

theorem written_arrive (count : Nat) (atEnd : Bool) :
    c.written <+: (c.arrive size count atEnd).written :=
  List.prefix_append _ _

end Writing

/-! ## Giving memory back -/

/-- The counters of a stream. -/
structure Counts (size R P A : Nat) (s : StreamT) : Prop where
  opened : s.opened = true
  attached : s.attached = true
  isFirstTime : s.isFirstTime = false
  size_eq : s.size = size
  window : s.extraWindowSize = size
  released_le : R ≤ P
  known_ge : P ≤ A
  known_le : A ≤ R + (size - safetyWindow)
  processed : s.processed = P - R
  freeSpace : s.freeSpace = (A : Int) - (P : Int)

section Advancing

variable {size R P A next need : Nat} {s : StreamT} {c : Card}

/-- `WRSAFE` keeps the safety window free. -/
theorem wrsafe_mod (hsize : HoleSize size) :
    wrsafe size (P % size) = (P + (size - safetyWindow)) % size := by
  have hge := hsize.ge
  rw [dagRecordSize] at hge
  have hlt : P % size < size := Nat.mod_lt _ (by omega)
  rw [← Nat.mod_add_mod P, wrsafe, safetyWindow]
  generalize P % size = x at hlt ⊢
  split_ifs with hsmall
  · rw [Nat.mod_eq_of_lt (by omega)]
    omega
  · rw [show x + (size - 8) = x - 8 + size by omega, Nat.add_mod_right, Nat.mod_eq_of_lt (by omega)]

theorem mod_of_double (hlt : next < 2 * size) (hmod : next % size = P % size) :
    (if next ≥ size then next - size else next) = P % size := by
  rw [← hmod]
  split_ifs with hge
  · rw [Nat.mod_eq_sub_mod hge, Nat.mod_eq_of_lt (by omega)]
  · rw [Nat.mod_eq_of_lt (by omega)]

/-- All that the card has written by now lies behind the bottom pointer in one piece; what is
    before it is given back. -/
theorem dagAdvanceStream_spec (hsize : HoleSize size) (hs : Counts size R P A s)
    (hc : Writes size R c) (hknown : A ≤ c.written.length) (hlt : next < 2 * size)
    (hmod : next % size = P % size) :
    dagAdvanceStream s c next = (.ok (P % size + (c.written.length - P), P % size),
        { c with limitPtr := wrsafe size (P % size) }) ∧
      Writes size P { c with limitPtr := wrsafe size (P % size) } := by
  have hge := hsize.ge
  have hbound := hc.written_le
  have hreleased := hs.released_le
  have hread := hs.known_ge
  rw [dagRecordSize] at hge
  rw [safetyWindow] at hbound
  have hpos : 0 < size := by omega
  have hbottom : P % size < size := Nat.mod_lt _ hpos
  -- the offset of `record_ptr`, with the end of the hole taken for its start
  have hoffset : pbmOffset size c.recordPtr = c.written.length % size := by
    have hle := hc.recordPtr_le
    rw [← hc.recordPtr_mod, pbmOffset]
    split_ifs with hend
    · rw [hend, Nat.mod_self]
    · rw [Nat.mod_eq_of_lt (by omega)]
  -- with less than the hole written behind `P`, going round shows in the offset
  have htop : (if c.written.length % size < P % size then c.written.length % size + size
      else c.written.length % size) = P % size + (c.written.length - P) := by
    have hshift : (P % size + (c.written.length - P)) % size = c.written.length % size := by
      rw [Nat.mod_add_mod, Nat.add_sub_cancel' (by omega)]
    split_ifs with hround
    · rw [← hshift] at hround ⊢
      by_cases hin : P % size + (c.written.length - P) < size
      · rw [Nat.mod_eq_of_lt hin] at hround
        omega
      · rw [Nat.mod_eq_sub_mod (by omega), Nat.mod_eq_of_lt (by omega)]
        omega
    · rw [← hshift] at hround ⊢
      by_cases hin : P % size + (c.written.length - P) < size
      · rw [Nat.mod_eq_of_lt hin]
      · rw [Nat.mod_eq_sub_mod (by omega), Nat.mod_eq_of_lt (by omega)] at hround
        omega
  constructor
  · have hsane : ¬ c.written.length % size > size := by
      have hmod := Nat.mod_lt c.written.length hpos
      omega
    have htrim : ¬ P % size + (c.written.length - P) > size + size := by omega
    rw [dagAdvanceStream, if_neg (by simp [hs.opened]), if_neg (by simp [hs.attached]),
      if_neg (by simp [hc.configured])]
    simp only [hs.size_eq, hs.window, mod_of_double hlt hmod, hoffset, htop, if_neg hsane,
      if_neg htrim]
  · exact { hc with
      limitPtr := wrsafe_mod hsize
      released_le := by dsimp only; omega
      written_le := by dsimp only; rw [safetyWindow]; omega
      carries := hc.carries.mono hreleased }

/-- Either enough is known already, or memory is given back up to `P` and all that was
    written is known; then there is enough, or `errno` says to try again. -/
theorem ensure_spec (hsize : HoleSize size) (hs : Counts size R P A s) (hc : Writes size R c)
    (hknown : A ≤ c.written.length) (hlt : next < 2 * size) (hmod : next % size = P % size)
    (hneed : need < 2 ^ 16) :
    (P + need ≤ A ∧ ensure s c next need = (.ok next, s, c)) ∨
    ∃ s' c', Counts size P P c.written.length s' ∧ Writes size P c' ∧ s'.offset = s.offset ∧
      c'.written = c.written ∧ c'.coming = c.coming ∧
      ((P + need ≤ c.written.length ∧ ensure s c next need = (.ok (P % size), s', c')) ∨
        (c.written.length < P + need ∧ ensure s c next need = (.error .eagain, s', c'))) := by
  have hlt31 := hsize.lt
  have hge := hsize.ge
  have hbound := hc.written_le
  have hknown_le := hs.known_le
  have hreleased := hs.released_le
  have hread := hs.known_ge
  rw [dagRecordSize] at hge
  rw [safetyWindow] at hbound hknown_le
  by_cases henough : P + need ≤ A
  · -- what is known has not been given back, so it is within the window
    have hno : ¬ (s.freeSpace < (need : Int) ∨
        (s.processed + need) % 2 ^ 32 > s.extraWindowSize) := by
      rw [hs.freeSpace, hs.processed, hs.window]
      omega
    exact Or.inl ⟨henough, by rw [ensure, if_neg hno]⟩
  · have hyes : s.freeSpace < (need : Int) ∨
        (s.processed + need) % 2 ^ 32 > s.extraWindowSize := by
      rw [hs.freeSpace]
      omega
    obtain ⟨hadvance, hc'⟩ := dagAdvanceStream_spec hsize hs hc hknown hlt hmod
    have hfree : int32 (((P % size + (c.written.length - P) : Nat) : Int)
        - ((P % size : Nat) : Int)) = (c.written.length : Int) - (P : Int) := by
      rw [int32, Int.bmod_eq_of_le (by omega) (by omega)]
      omega
    refine Or.inr ⟨{ s with processed := 0, freeSpace := (c.written.length : Int) - (P : Int) },
      { c with limitPtr := wrsafe size (P % size) }, { hs with
        released_le := Nat.le_refl P
        known_ge := by omega
        known_le := by rw [safetyWindow]; omega
        processed := (Nat.sub_self P).symm
        freeSpace := rfl }, hc', rfl, rfl, rfl, ?_⟩
    rw [ensure, if_pos hyes, hadvance]
    dsimp only
    rw [hfree]
    by_cases hmore : P + need ≤ c.written.length
    · exact Or.inl ⟨hmore, if_neg (by omega)⟩
    · exact Or.inr ⟨by omega, if_pos (by omega)⟩

end Advancing

end Camio.Dag
