/-
  Camio.Log.Completeness

  What `end_write` leaves out of a message when `escape` is on.  The loop writes the bytes
  before an unprintable one when it comes to it, and nothing behind the loop writes those
  that are still pending.
-/

import Camio.Log.Reversal

namespace Camio.Log

open Camio.Lib

section Completeness

variable {m : List UInt8}

/-- The printable bytes behind the last unprintable one. -/
def unwritten (m : List UInt8) : List UInt8 := m.rtakeWhile fun b => !isUnprintable b

theorem escaped_append_unwritten (m : List UInt8) :
    escaped m ++ unwritten m = m.flatMap escapeByte := by
  have hplain : (unwritten m).flatMap escapeByte = unwritten m := by
    apply flatMap_escapeByte_printable
    intro b hb
    simpa using List.mem_rtakeWhile_imp hb
  calc escaped m ++ unwritten m
      = (written m).flatMap escapeByte ++ (unwritten m).flatMap escapeByte := by
        rw [escaped, hplain]
    _ = (written m ++ unwritten m).flatMap escapeByte := List.flatMap_append.symm
    _ = m.flatMap escapeByte := by rw [written, unwritten, List.rdropWhile_append_rtakeWhile]

theorem unwritten_eq_nil_iff :
    unwritten m = [] ↔ ∀ b ∈ m.getLast?, isUnprintable b = true := by
  rw [unwritten, List.rtakeWhile_eq_nil_iff]
  constructor
  · intro h b hb
    have hne : m ≠ [] := List.ne_nil_of_mem (List.mem_of_getLast? hb)
    rw [Option.mem_def, List.getLast?_eq_some_getLast hne, Option.some.injEq] at hb
    simpa [hb] using h hne
  · intro h hne
    simpa using h _ (List.getLast?_eq_some_getLast hne)

theorem escaped_eq_iff :
    escaped m = m.flatMap escapeByte ↔ ∀ b ∈ m.getLast?, isUnprintable b = true := by
  rw [← escaped_append_unwritten, ← unwritten_eq_nil_iff]
  exact List.self_eq_append_right

end Completeness

/-- `end_write` writes the whole message and a newline exactly if the message is empty or
    ends with an unprintable byte. -/
theorem escape_complete_iff {s : LogOstream} {len : Nat} (hescape : s.escape = true)
    (hturns : s.fd.turns = []) :
    (camioOstreamLogEndWrite s len).fd.received
        = s.fd.received ++ ((s.message len).flatMap escapeByte ++ [lf]) ↔
      ∀ b ∈ (s.message len).getLast?, isUnprintable b = true := by
  rw [camioOstreamLogEndWrite_escaped hescape hturns, ← escaped_eq_iff]
  constructor
  · intro h
    exact List.append_cancel_right (List.append_cancel_left h)
  · intro h
    rw [h]

/-- Printable and unprintable bytes in turn, the last one unprintable. -/
theorem escape_complete_in_turn :
    (camioOstreamLogEndWrite (demoEscaping [97, 10, 98, 0]) 4).fd.received
      = [97, 92, 120, 48, 65, 98, 92, 120, 48, 48, lf] := by
  have hlast : ∀ b ∈ ((demoEscaping [97, 10, 98, 0]).message 4).getLast?,
      isUnprintable b = true := by
    intro b hb
    obtain rfl : 0 = b := Option.some.inj hb
    decide
  exact (@escape_complete_iff (demoEscaping [97, 10, 98, 0]) 4 rfl rfl).mpr hlast

/-- Of the message `a` only the newline is written. -/
theorem escape_complete_fails :
    ¬ ∀ (s : LogOstream) (len : Nat), s.escape = true → s.fd.turns = [] →
      (camioOstreamLogEndWrite s len).fd.received
        = s.fd.received ++ ((s.message len).flatMap escapeByte ++ [lf]) := by
  intro hall
  have hwritten : [lf] = [97, lf] := hall (demoEscaping [97]) 1 rfl rfl
  exact absurd hwritten (by decide)

end Camio.Log
