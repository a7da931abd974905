/-
  Camio.Lib.Fd

  File descriptors as `read` and `write` see them.

  A descriptor to read from is the bytes still to come and what its next calls
  do: hand over a part of what was asked for, report that they would block, or
  fail.  Calls beyond the listed ones hand over all they can, as a regular file
  does.  End of file is a `read` of nothing.
-/

import Mathlib.Data.PNat.Defs
import Camio.Lib.ByteMem

namespace Camio.Lib

/-- `read` and `write` transfer at most this many bytes at a time. -/
def maxTransfer : Nat := 0x7ffff000

/-! ## Reading -/

/-- What one call of `read` does. -/
inductive ReadTurn where
  /-- hand over at most `n` bytes -/
  | give (n : ℕ+)
  | wouldBlock
  | error
deriving DecidableEq

structure ReadFd where
  stream : List UInt8
  turns : List ReadTurn

/-- What a call of `read` returned. -/
inductive ReadResult where
  | data (bytes : List UInt8)
  | wouldBlock
  | error
deriving DecidableEq

/-- Hand over at most `n` bytes. -/
def ReadFd.deliver (fd : ReadFd) (turns : List ReadTurn) (n : Nat) : ReadResult × ReadFd :=
  let n := min n maxTransfer
  (.data (fd.stream.take n), { stream := fd.stream.drop n, turns := turns })

/-- `read(fd, buf, amount)`; a blocking call waits out the turns that would block. -/
def ReadFd.read (fd : ReadFd) (blocking : Bool) (amount : Nat) : ReadResult × ReadFd :=
  match if blocking then fd.turns.dropWhile (· == .wouldBlock) else fd.turns with
  | [] => fd.deliver [] amount
  | .give n :: turns => fd.deliver turns (min n amount)
  | .wouldBlock :: turns => (.wouldBlock, { fd with turns := turns })
  | .error :: turns => (.error, { fd with turns := turns })

/-- What is handed over comes off the stream; nothing is handed over only at its end. -/
theorem ReadFd.deliver_spec (fd : ReadFd) (turns : List ReadTurn) (n : Nat) :
    ∃ bytes fd', fd.deliver turns n = (.data bytes, fd') ∧ fd.stream = bytes ++ fd'.stream ∧
      bytes.length ≤ n ∧ (0 < n → bytes = [] → fd.stream = []) := by
  refine ⟨_, _, rfl, (List.take_append_drop _ _).symm, ?_, ?_⟩
  · exact Nat.le_trans (List.length_take_le _ _) (Nat.min_le_left _ _)
  · intro hn hnil
    rcases List.take_eq_nil_iff.mp hnil with hzero | hstream
    · simp only [maxTransfer] at hzero
      omega
    · exact hstream

/-- A `read` fails, would block (if it may), or delivers. -/
theorem ReadFd.read_cases (fd : ReadFd) (blocking : Bool) (amount : Nat) :
    (∃ fd', fd.read blocking amount = (.error, fd')) ∨
    (∃ fd', fd.read blocking amount = (.wouldBlock, fd') ∧ blocking = false ∧
      fd'.stream = fd.stream) ∨
    ∃ bytes fd', fd.read blocking amount = (.data bytes, fd') ∧
      fd.stream = bytes ++ fd'.stream ∧ bytes.length ≤ amount ∧
      (0 < amount → bytes = [] → fd.stream = []) := by
  rw [ReadFd.read]
  split
  next => exact Or.inr (Or.inr (fd.deliver_spec [] amount))
  next n turns _ =>
    obtain ⟨bytes, fd', hread, hstream, hlen, hnil⟩ := fd.deliver_spec turns (min n amount)
    refine Or.inr (Or.inr ⟨bytes, fd', hread, hstream, ?_, fun h => hnil ?_⟩)
    · exact Nat.le_trans hlen (Nat.min_le_right _ _)
    · exact Nat.lt_min.mpr ⟨n.pos, h⟩
  next turns hturns =>
    refine Or.inr (Or.inl ⟨_, rfl, ?_, rfl⟩)
    -- a blocking call has waited such turns out
    cases blocking with
    | false => rfl
    | true =>
        have hhead := List.head?_dropWhile_not (· == ReadTurn.wouldBlock) fd.turns
        rw [if_pos rfl] at hturns
        rw [hturns] at hhead
        simp at hhead
  next turns _ => exact Or.inl ⟨_, rfl⟩

/-! ## Writing -/

/-- What one call of `write` does. -/
inductive WriteTurn where
  /-- transfer at most `n` bytes -/
  | accept (n : ℕ+)
  | error
deriving DecidableEq

/-- A descriptor to write to: what it has received, and what its next calls do;
    calls beyond those transfer everything. -/
structure WriteFd where
  received : List UInt8
  turns : List WriteTurn

/-- `write(fd, buf, len)` on the `len` bytes of `buf`: how many were transferred,
    or -1. -/
def WriteFd.write (fd : WriteFd) (bytes : List UInt8) : Int × WriteFd :=
  match fd.turns with
  | [] => (bytes.length, { fd with received := fd.received ++ bytes })
  | .accept n :: turns =>
      (min (n : Nat) bytes.length,
        { received := fd.received ++ bytes.take n, turns := turns })
  | .error :: turns => (-1, { fd with turns := turns })

/-- A call that does not fail transfers at least a byte, and no more than it is given. -/
theorem WriteFd.write_of_ne_error {fd : WriteFd} {bytes : List UInt8}
    (hok : ∀ turn ∈ fd.turns, turn ≠ .error) (hbytes : bytes ≠ []) :
    ∃ (c : Nat) (turns : List WriteTurn), 0 < c ∧ c ≤ bytes.length ∧ turns <:+ fd.turns ∧
      fd.write bytes = ((c : Int), ⟨fd.received ++ bytes.take c, turns⟩) := by
  obtain ⟨received, turns⟩ := fd
  have hpos := List.length_pos_iff.mpr hbytes
  cases turns with
  | nil =>
      exact ⟨bytes.length, [], hpos, Nat.le_refl _, List.suffix_refl _,
        by rw [write, List.take_length]⟩
  | cons turn turns =>
      cases turn with
      | error => exact absurd rfl (hok .error List.mem_cons_self)
      | accept n =>
          refine ⟨min n bytes.length, turns, Nat.lt_min.mpr ⟨n.pos, hpos⟩, Nat.min_le_right _ _,
            List.suffix_cons _ _, ?_⟩
          rw [write, ← List.take_eq_take_min]
          exact Prod.ext (by dsimp only; omega) rfl

end Camio.Lib
