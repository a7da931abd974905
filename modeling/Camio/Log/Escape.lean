/-
  Camio.Log.Escape

  The two sides of the escaping, as functions of byte strings: what `end_write` writes of a
  message when `escape` is on, and what `unescape` makes of the bytes in a buffer.

  `end_write` writes what stands before an unprintable byte when it meets the byte, so what
  comes behind the last of them is never written.  `unescape` leaves a byte where it is when
  there is no escape sequence, and stores the value of a sequence as the bitwise and of its
  nibbles, one of them shifted by four: as 0.
-/

import Mathlib.Data.List.DropRight
import Camio.Log.Framing
import Camio.Log.Istream

namespace Camio.Log

open Camio.Lib

/-! ## Writing -/

/-- The bytes that are written as `\xHH`. -/
def isUnprintable (b : UInt8) : Bool := b.toNat < 0x20 || b.toNat > 0x7E

/-- A byte as it is written. -/
def escapeByte (b : UInt8) : List UInt8 := if isUnprintable b then escapedHex b else [b]

/-- The message up to its last unprintable byte. -/
def written (m : List UInt8) : List UInt8 := m.rdropWhile fun b => !isUnprintable b

/-- What is written of a message, the newline aside. -/
def escaped (m : List UInt8) : List UInt8 := (written m).flatMap escapeByte

section Written

variable {pending l : List UInt8} {b : UInt8}

theorem flatMap_escapeByte_printable (h : ∀ b ∈ l, isUnprintable b = false) :
    l.flatMap escapeByte = l := by
  induction l with
  | nil => rfl
  | cons b l ih =>
      have hb : escapeByte b = [b] := by rw [escapeByte, h b List.mem_cons_self, if_neg nofun]
      rw [List.flatMap_cons, hb, ih fun d hd => h d (List.mem_cons_of_mem b hd),
        List.singleton_append]

theorem written_printable (h : ∀ b ∈ l, isUnprintable b = false) : written l = [] := by
  rw [written, List.rdropWhile_eq_nil_iff]
  intro b hb
  rw [h b hb]
  rfl

theorem written_append_cons (hb : isUnprintable b = true) :
    written (pending ++ b :: l) = pending ++ b :: written l := by
  rw [written, written, List.rdropWhile, List.rdropWhile, List.reverse_append, List.reverse_cons,
    List.append_assoc, List.singleton_append, List.dropWhile_append]
  split
  next hempty =>
    rw [List.isEmpty_iff.mp hempty]
    simp [hb]
  next => simp

/-- An unprintable byte is written with what is still pending before it. -/
theorem escaped_append_cons (hpending : ∀ b ∈ pending, isUnprintable b = false)
    (hb : isUnprintable b = true) :
    escaped (pending ++ b :: l) = pending ++ escapedHex b ++ escaped l := by
  rw [escaped, written_append_cons hb, List.flatMap_append, flatMap_escapeByte_printable hpending,
    List.flatMap_cons, escapeByte, if_pos hb, List.append_assoc, escaped]

/-- The loop writes the rest of the message, what is pending included. -/
theorem escapeLoop_received {buffer : Mem} {n i first : Nat} {received : List UInt8}
    (hle : first ≤ i)
    (hpending : ∀ b ∈ buffer.read first (i - first), isUnprintable b = false) :
    escapeLoop buffer n i first ⟨received, []⟩
      = ⟨received ++ escaped (buffer.read first (i - first) ++ buffer.read i n), []⟩ := by
  induction n generalizing i first received with
  | zero =>
      rw [escapeLoop, Mem.read_zero, List.append_nil, escaped, written_printable hpending,
        List.flatMap_nil, List.append_nil]
  | succ n ih =>
      rw [escapeLoop, Mem.read]
      by_cases hb : isUnprintable (buffer i) = true
      · have hcond : (buffer i).toNat < 0x20 ∨ (buffer i).toNat > 0x7E := by
          simpa [isUnprintable] using hb
        -- where nothing is written, nothing is pending
        have hflush : (if i > 0 ∧ i - first > 0 then
              (WriteFd.write ⟨received, []⟩ (buffer.read first (i - first))).2 else ⟨received, []⟩)
            = ⟨received ++ buffer.read first (i - first), []⟩ := by
          split
          next => rfl
          next hnone =>
            have hzero : i - first = 0 := by omega
            rw [hzero, Mem.read_zero, List.append_nil]
        have hnext := @ih (i + 1) (i + 1)
          (received ++ buffer.read first (i - first) ++ escapedHex (buffer i)) (Nat.le_refl _)
          (by simp)
        rw [Nat.sub_self, Mem.read_zero, List.nil_append] at hnext
        rw [if_pos hcond, hflush, escaped_append_cons hpending hb, ← List.append_assoc,
          ← List.append_assoc]
        exact hnext
      · have hcond : ¬ ((buffer i).toNat < 0x20 ∨ (buffer i).toNat > 0x7E) := by
          simpa [isUnprintable] using hb
        have hgrow : buffer.read first (i + 1 - first)
            = buffer.read first (i - first) ++ [buffer i] := by
          rw [Nat.sub_add_comm hle, Mem.read_add, Nat.add_sub_cancel' hle]
          rfl
        have hnext := @ih (i + 1) first received (Nat.le_succ_of_le hle) (by
          rw [hgrow]
          intro d hd
          rcases List.mem_append.mp hd with hd | hd
          · exact hpending d hd
          · rw [List.mem_singleton.mp hd]
            exact Bool.eq_false_iff.mpr hb)
        rw [hgrow, List.append_assoc, List.singleton_append] at hnext
        rw [if_neg hcond]
        exact hnext

end Written

theorem source_read (s : LogOstream) (len : Nat) : s.source.read 0 len = s.message len := by
  rw [LogOstream.source, LogOstream.message]
  cases s.assignedBuffer with
  | some buffer => rfl
  | none => exact Mem.read_congr fun i _ => by rw [Nat.zero_add]

theorem escapeLoop_source {s : LogOstream} (hturns : s.fd.turns = []) (len : Nat) :
    escapeLoop s.source len 0 0 s.fd = ⟨s.fd.received ++ escaped (s.message len), []⟩ := by
  have hfd : s.fd = ⟨s.fd.received, []⟩ := by rw [← hturns]
  have hloop := @escapeLoop_received s.source len 0 0 s.fd.received (Nat.le_refl 0) (by simp)
  rwa [Nat.sub_self, Mem.read_zero, List.nil_append, source_read, ← hfd] at hloop

/-- `end_write` with `escape` on. -/
theorem camioOstreamLogEndWrite_escaped {s : LogOstream} {len : Nat} (hescape : s.escape = true)
    (hturns : s.fd.turns = []) :
    (camioOstreamLogEndWrite s len).fd.received
      = s.fd.received ++ (escaped (s.message len) ++ [lf]) := by
  rw [camioOstreamLogEndWrite, if_neg (by rw [hescape]; exact Bool.noConfusion),
    escapeLoop_source hturns, ← List.append_assoc]
  cases s.assignedBuffer with
  | some buffer => rfl
  | none => rfl

/-! ## Reading -/

/-- The bytes start with `\xHH` or `\XHH`. -/
def StartsEscape : List UInt8 → Prop
  | a :: b :: c :: d :: _ =>
      a = 92 ∧ (b = 120 ∨ b = 88) ∧ asciiHexToInt c > -1 ∧ asciiHexToInt d > -1
  | _ => False

instance : DecidablePred StartsEscape
  | [] | [_] | [_, _] | [_, _, _] => inferInstanceAs (Decidable False)
  | a :: b :: c :: d :: _ => inferInstanceAs (Decidable (a = 92 ∧ (b = 120 ∨ b = 88) ∧
      asciiHexToInt c > -1 ∧ asciiHexToInt d > -1))

/-- One entry for every byte that reading leaves: whether it comes from a sequence.  `skip`
    more bytes belong to the last one. -/
def marks : List UInt8 → (skip : Nat) → List Bool
  | [], _ => []
  | b :: l, 0 =>
      if StartsEscape (b :: l) then true :: marks l 3 else false :: marks l 0
  | _ :: l, skip + 1 => marks l skip

/-- What `unescape` leaves. -/
def unescaped (l : List UInt8) : List UInt8 :=
  List.zipWith (fun mark b => if mark then 0 else b) (marks l 0) l

theorem asciiHexToInt_lt (a : UInt8) : asciiHexToInt a < 16 := by
  rw [asciiHexToInt]
  split_ifs <;> omega

/-- A nibble in the upper half and one in the lower half have no bit in common. -/
theorem nibbles_and {upper lower : Nat} (h : lower < 16) : upper <<< 4 &&& lower = 0 := by
  apply Nat.eq_of_testBit_eq
  intro i
  rw [Nat.testBit_and, Nat.testBit_shiftLeft, Nat.zero_testBit]
  by_cases hi : 4 ≤ i
  · have hpow : 2 ^ 4 ≤ 2 ^ i := Nat.pow_le_pow_right Nat.two_pos hi
    have hlt : lower < 2 ^ i := Nat.lt_of_lt_of_le h hpow
    rw [Nat.testBit_lt_two_pow hlt, Bool.and_false]
  · simp [hi]

section Marks

variable {l : List UInt8} {m : Mem} {a n : Nat}

theorem startsEscape_iff : StartsEscape l ↔ ∃ x c d r, l = 92 :: x :: c :: d :: r ∧
    (x = 120 ∨ x = 88) ∧ asciiHexToInt c > -1 ∧ asciiHexToInt d > -1 := by
  constructor
  · intro h
    rcases l with _ | ⟨b, _ | ⟨x, _ | ⟨c, _ | ⟨d, r⟩⟩⟩⟩
    · exact absurd h id
    · exact absurd h id
    · exact absurd h id
    · exact absurd h id
    · obtain ⟨rfl, h⟩ := h
      exact ⟨x, c, d, r, rfl, h⟩
  · rintro ⟨x, c, d, r, rfl, h⟩
    exact ⟨rfl, h⟩

theorem StartsEscape.four_le (h : StartsEscape l) : 4 ≤ l.length := by
  obtain ⟨x, c, d, r, rfl, -⟩ := startsEscape_iff.mp h
  simp

theorem marks_short (h : l.length < 4) : marks l 0 = List.replicate l.length false := by
  induction l with
  | nil => rfl
  | cons b l ih =>
      rw [List.length_cons] at h
      have hnone : ¬ StartsEscape (b :: l) := fun hstart => by
        have hfour := hstart.four_le
        rw [List.length_cons] at hfour
        omega
      rw [marks, if_neg hnone, ih (by omega), List.length_cons, List.replicate_succ]

theorem marks_skip (l : List UInt8) (k : Nat) : marks l k = marks (l.drop k) 0 := by
  induction l generalizing k with
  | nil => rw [List.drop_nil, marks, marks]
  | cons b l ih =>
      cases k with
      | zero => rfl
      | succ k => exact ih k

theorem marks_length_le (l : List UInt8) (k : Nat) : (marks l k).length ≤ l.length := by
  induction l generalizing k with
  | nil => exact Nat.le_refl 0
  | cons b l ih =>
      cases k with
      | zero =>
          rw [marks]
          split
          next => exact Nat.succ_le_succ (ih 3)
          next => exact Nat.succ_le_succ (ih 0)
      | succ k => exact Nat.le_succ_of_le (ih k)

theorem unescaped_length (l : List UInt8) : (unescaped l).length = (marks l 0).length := by
  rw [unescaped, List.length_zipWith, Nat.min_eq_left (marks_length_le l 0)]

/-- The condition in the loop of `unescape`. -/
theorem startsEscape_read (h : 4 ≤ n) :
    StartsEscape (m.read a n) ↔ m a = 92 ∧ (m (a + 1) = 120 ∨ m (a + 1) = 88) ∧
      asciiHexToInt (m (a + 2)) > -1 ∧ asciiHexToInt (m (a + 3)) > -1 := by
  obtain ⟨k, rfl⟩ := Nat.exists_eq_add_of_le' h
  rfl

end Marks

/-- The bytes from `a` on, zero where they are marked. -/
def clear : List Bool → Mem → Nat → Mem
  | [], m, _ => m
  | mark :: marks, m, a => clear marks (if mark then m.write a [0] else m) (a + 1)

section Clear

variable {m : Mem} {a n x : Nat} {ms : List Bool}

theorem clear_apply_of_lt (h : x < a) : clear ms m a x = m x := by
  induction ms generalizing m a with
  | nil => rfl
  | cons mark ms ih =>
      rw [clear, ih (Nat.lt_succ_of_lt h)]
      cases mark with
      | false => rfl
      | true => exact Mem.write_apply_of_lt _ h

theorem clear_replicate_false (k : Nat) : clear (List.replicate k false) m a = m := by
  induction k generalizing a with
  | zero => rfl
  | succ k ih => exact ih

theorem read_clear (hle : ms.length ≤ n) :
    (clear ms m a).read a ms.length
      = List.zipWith (fun mark b => if mark then 0 else b) ms (m.read a n) := by
  induction ms generalizing m a n with
  | nil => rfl
  | cons mark ms ih =>
      obtain ⟨n, rfl⟩ := Nat.exists_eq_add_of_le' (Nat.lt_of_lt_of_le (Nat.succ_pos _) hle)
      have hrest := @ih (if mark then m.write a [0] else m) (a + 1) n (Nat.le_of_succ_le_succ hle)
      rw [List.length_cons, Mem.read, Mem.read, List.zipWith_cons_cons, clear,
        clear_apply_of_lt (Nat.lt_succ_self a), hrest]
      cases mark with
      | false => rfl
      | true =>
          have hzero : m.write a [0] a = 0 := by
            simpa using @Mem.write_apply_of_mem m a 0 [0] Nat.one_pos
          have hkept : (m.write a [0]).read (a + 1) n = m.read (a + 1) n :=
            Mem.read_write_disjoint (Or.inr (Nat.le_refl _))
          rw [if_pos rfl, hzero, hkept, if_pos rfl]

end Clear

section Loop

variable {m : Mem} {buffer size fuel read write : Nat}

/-- The byte that `unescape` stores is 0 whatever the sequence. -/
theorem unescape_byte (c d : UInt8) :
    UInt8.ofNat ((asciiHexToInt d).toNat <<< 4 &&& (asciiHexToInt c).toNat) = 0 := by
  have hlower := asciiHexToInt_lt c
  rw [nibbles_and (by omega)]
  rfl

/-- At most three bytes are left. -/
theorem unescape_end (h : size - read ≤ 3) : (m, write + (size - read))
    = (clear (marks (m.read (buffer + read) (size - read)) 0) m (buffer + write),
        write + (marks (m.read (buffer + read) (size - read)) 0).length) := by
  rw [marks_short (by rw [Mem.read_length]; omega), clear_replicate_false, List.length_replicate,
    Mem.read_length]

/-- From each index on, the loop does what the marks of the bytes left to read say. -/
theorem unescapeLoop_marks (hsize : size < 2 ^ 64) (hthree : 3 ≤ size) (hread : read ≤ size)
    (hwrite : write ≤ read) (hfuel : size - 3 - read ≤ fuel) :
    unescapeLoop m buffer size fuel read write (write + (size - read))
      = (clear (marks (m.read (buffer + read) (size - read)) 0) m (buffer + write),
          write + (marks (m.read (buffer + read) (size - read)) 0).length) := by
  have hbound : sizeSub size 3 = size - 3 := sizeSub_of_le hthree (by omega)
  induction fuel generalizing m read write with
  | zero => exact unescape_end (by omega)
  | succ fuel ih =>
      rw [unescapeLoop, hbound]
      by_cases hlt : read < size - 3
      · have hcond := @startsEscape_read m (buffer + read) (size - read) (by omega)
        have hcons : m.read (buffer + read) (size - read)
            = m (buffer + read) :: m.read (buffer + (read + 1)) (size - (read + 1)) := by
          rw [show size - read = size - (read + 1) + 1 by omega]
          rfl
        rw [if_pos hlt]
        rw [hcons] at hcond ⊢
        rw [marks]
        dsimp only
        by_cases hstart : StartsEscape
            (m (buffer + read) :: m.read (buffer + (read + 1)) (size - (read + 1)))
        · -- the byte is stored before what is left to read
          have hskip : (m.read (buffer + (read + 1)) (size - (read + 1))).drop 3
              = (m.write (buffer + write) [0]).read (buffer + (read + 4)) (size - (read + 4)) := by
            rw [Mem.read_drop _ _ (by omega), Mem.read_write_disjoint (Or.inr (by
              rw [List.length_singleton]
              omega))]
            congr 1
          have hresult : sizeSub (write + (size - read)) 3 = write + 1 + (size - (read + 4)) := by
            rw [sizeSub_of_le (by omega) (by omega)]
            omega
          have hnext := @ih (m.write (buffer + write) [0]) (read + 4) (write + 1) (by omega)
            (by omega) (by omega)
          rw [if_pos (hcond.mp hstart), if_pos hstart, unescape_byte, marks_skip, hskip, hresult,
            clear, List.length_cons, if_pos rfl]
          exact hnext.trans (Prod.ext rfl (Nat.add_right_comm write 1 _))
        · have hresult : write + (size - read) = write + 1 + (size - (read + 1)) := by omega
          have hnext := @ih m (read + 1) (write + 1) (by omega) (by omega) (by omega)
          rw [if_neg (mt hcond.mpr hstart), if_neg hstart, hresult, clear, List.length_cons,
            if_neg Bool.false_ne_true]
          exact hnext.trans (Prod.ext rfl (Nat.add_right_comm write 1 _))
      · rw [if_neg hlt]
        exact unescape_end (by omega)

/-- `unescape` leaves the unescaped bytes and their number. -/
theorem unescape_spec (hsize : size < 2 ^ 64) (hthree : 3 ≤ size) :
    (unescape m buffer size).2 = (unescaped (m.read buffer size)).length ∧
      (unescape m buffer size).1.read buffer (unescaped (m.read buffer size)).length
        = unescaped (m.read buffer size) := by
  have hloop := @unescapeLoop_marks m buffer size (sizeSub size 3) 0 0 hsize hthree (Nat.zero_le _)
    (Nat.le_refl 0) (by rw [sizeSub_of_le hthree (by omega)]; exact Nat.le_refl _)
  have hlen := marks_length_le (m.read buffer size) 0
  rw [Mem.read_length] at hlen
  rw [Nat.zero_add, Nat.zero_add, Nat.sub_zero, Nat.add_zero] at hloop
  rw [unescape, hloop, unescaped_length]
  exact ⟨rfl, read_clear hlen⟩

end Loop

end Camio.Log
