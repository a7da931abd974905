/-
  Camio.Blob.Loop

  The loop of `end_write` as what a turn does to its variables, and that it ends with
  everything written as long as no call of `write` fails and `write_size` is not 0.
-/

import Camio.Blob.Once
import Camio.Lib.Loop

namespace Camio.Blob

open Camio.Lib

/-- The variables of the loop in `end_write`. -/
structure WriteLoop where
  totalWritten : Nat
  writeSize : Nat
  fd : WriteFd

/-- A turn of that loop. -/
def writeTurn (source : Mem) (len : Nat) (w : WriteLoop) : Option WriteLoop :=
  if w.totalWritten < len then
    let leftToWrite := len - w.totalWritten
    let (r, fd) := w.fd.write (source.read w.totalWritten (min leftToWrite w.writeSize))
    let written := sizeOfResult r
    some { totalWritten := (w.totalWritten + written) % 2 ^ 64
           writeSize := nextWriteSize w.writeSize written, fd := fd }
  else none

/-- The variables in front of the loop. -/
def BlobOstream.loopStart (s : BlobOstream) : WriteLoop :=
  { totalWritten := 0, writeSize := s.writeSize, fd := s.fd }

/-- The stream behind it. -/
def BlobOstream.afterLoop (s : BlobOstream) (w : WriteLoop) : BlobOstream :=
  { s with writeSize := w.writeSize, fd := w.fd, assignedBuffer := none
           assignedBufferSz := if s.assignedBuffer.isSome then 0 else s.assignedBufferSz }

section Loop

variable {source : Mem} {len n : Nat} {w w' : WriteLoop} {s : BlobOstream}

theorem writeLoop_eq (fuel : Nat) (w : WriteLoop) :
    writeLoop source len fuel w.totalWritten w.writeSize w.fd
      = (loop (writeTurn source len) fuel w).map fun w => (w.writeSize, w.fd) := by
  induction fuel generalizing w with
  | zero => rfl
  | succ fuel ih =>
      rw [writeLoop, loop, writeTurn]
      by_cases hlt : w.totalWritten < len
      · rw [if_pos hlt, if_pos hlt]
        dsimp only
        exact ih { totalWritten := _, writeSize := _, fd := _ }
      · rw [if_neg hlt, if_neg hlt]
        rfl

/-- Where the loop ends, `end_write` returns. -/
theorem camioOstreamBlobEndWrite_of_endsAfter {fuel : Nat}
    (h : EndsAfter (writeTurn s.source len) n s.loopStart w) (hfuel : n < fuel) :
    camioOstreamBlobEndWrite s len fuel = some (s.afterLoop w) := by
  have hloop := @writeLoop_eq s.source len fuel s.loopStart
  rw [loop_of_endsAfter h hfuel] at hloop
  exact congrArg (Option.map _) hloop

/-- The loop is over only when everything is written. -/
theorem le_of_writeTurn_eq_none (h : writeTurn source len w = none) : len ≤ w.totalWritten := by
  rw [writeTurn] at h
  by_cases hlt : w.totalWritten < len
  · rw [if_pos hlt] at h
    cases h
  · exact Nat.le_of_not_lt hlt

/-- A turn whose call of `write` does not fail transfers at least a byte. -/
theorem writeTurn_transfers (hlen : len < 2 ^ 64) (hpos : 0 < w.writeSize)
    (hok : ∀ turn ∈ w.fd.turns, turn ≠ .error) (hturn : writeTurn source len w = some w') :
    ∃ (c : Nat) (turns : List WriteTurn), 0 < c ∧ w.totalWritten + c ≤ len ∧
      turns <:+ w.fd.turns ∧
      w' = { totalWritten := w.totalWritten + c, writeSize := nextWriteSize w.writeSize c
             fd := ⟨w.fd.received ++ source.read w.totalWritten c, turns⟩ } := by
  rw [writeTurn] at hturn
  by_cases hlt : w.totalWritten < len
  · have hlength := source.read_length w.totalWritten (min (len - w.totalWritten) w.writeSize)
    -- something is left, and `write_size` is not 0, so `write` is given a byte at least
    have hne : source.read w.totalWritten (min (len - w.totalWritten) w.writeSize) ≠ [] :=
      List.ne_nil_of_length_pos (by omega)
    obtain ⟨c, turns, hc, hle, hturns, hwrite⟩ := WriteFd.write_of_ne_error hok hne
    rw [hlength] at hle
    have hwritten : sizeOfResult (c : Int) = c := by
      rw [sizeOfResult]
      omega
    -- the total is not more than `len`, so it does not wrap around
    have htotal : (w.totalWritten + c) % 2 ^ 64 = w.totalWritten + c :=
      Nat.mod_eq_of_lt (by omega)
    rw [if_pos hlt] at hturn
    dsimp only at hturn
    rw [hwrite, Mem.read_take _ _ hle] at hturn
    dsimp only at hturn
    rw [hwritten, htotal] at hturn
    exact ⟨c, turns, hc, by omega, hturns, (Option.some.inj hturn).symm⟩
  · rw [if_neg hlt] at hturn
    cases hturn

end Loop

/-! ## Writing without a failure -/

section Writing

variable {P : Nat → Prop} {source : Mem} {len : Nat} {fd : WriteFd} {w w' : WriteLoop}

/-- What the turns keep that write to a descriptor which was `fd` in front of the loop: it has
    received the bytes that the total counts, and `write_size` has the property `P`. -/
structure Writing (P : Nat → Prop) (source : Mem) (len : Nat) (fd : WriteFd) (w : WriteLoop) :
    Prop where
  total_le : w.totalWritten ≤ len
  size : P w.writeSize
  received : w.fd.received = fd.received ++ source.read 0 w.totalWritten
  turns : w.fd.turns <:+ fd.turns

theorem writing_start {s : BlobOstream} (hsize : P s.writeSize) (source : Mem) (len : Nat) :
    Writing P source len s.fd s.loopStart where
  total_le := Nat.zero_le _
  size := hsize
  received := (List.append_nil _).symm
  turns := List.suffix_refl _

theorem Writing.turn (h : Writing P source len fd w) (hlen : len < 2 ^ 64)
    (hok : ∀ turn ∈ fd.turns, turn ≠ .error) (hpos : ∀ x, P x → 0 < x)
    (hnext : ∀ x written, P x → P (nextWriteSize x written))
    (hturn : writeTurn source len w = some w') :
    Writing P source len fd w' ∧ w.totalWritten < w'.totalWritten ∧
      ∃ written, w'.writeSize = nextWriteSize w.writeSize written := by
  obtain ⟨c, turns, hc, hle, hsuffix, rfl⟩ := writeTurn_transfers hlen (hpos _ h.size)
    (fun turn hmem => hok turn (h.turns.subset hmem)) hturn
  refine ⟨⟨hle, hnext _ c h.size, ?_, hsuffix.trans h.turns⟩, Nat.lt_add_of_pos_right hc, c, rfl⟩
  rw [h.received, List.append_assoc, Mem.read_add, Nat.zero_add]

/-- What is left to write gets less, so the loop ends, with everything written. -/
theorem Writing.ends (h : Writing P source len fd w) (hlen : len < 2 ^ 64)
    (hok : ∀ turn ∈ fd.turns, turn ≠ .error) (hpos : ∀ x, P x → 0 < x)
    (hnext : ∀ x written, P x → P (nextWriteSize x written)) :
    ∃ n w', n ≤ len - w.totalWritten ∧ EndsAfter (writeTurn source len) n w w' ∧
      w'.totalWritten = len ∧ Writing P source len fd w' := by
  have hturn : ∀ v v', Writing P source len fd v → writeTurn source len v = some v' →
      Writing P source len fd v' ∧ len - v'.totalWritten < len - v.totalWritten := by
    intro v v' hv hstep
    obtain ⟨hv', hlt, -⟩ := hv.turn hlen hok hpos hnext hstep
    have hle := hv'.total_le
    exact ⟨hv', by omega⟩
  obtain ⟨n, w', hn, hend, hw'⟩ :=
    ends_within (Writing P source len fd) (fun v => len - v.totalWritten) hturn h
  exact ⟨n, w', hn, hend, Nat.le_antisymm hw'.total_le (le_of_writeTurn_eq_none hend.2), hw'⟩

end Writing

end Camio.Blob
