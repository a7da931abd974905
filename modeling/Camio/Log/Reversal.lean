/-
  Camio.Log.Reversal

  The messages that unescaping gives back.

  They are few: what stands behind the last unprintable byte is not written, a sequence is
  read as 0 whatever its digits, text that looks like a sequence is read as one, and
  `unescape` shifts what it marks but not the printable bytes behind it.
-/

import Camio.Log.Escape

namespace Camio.Log

open Camio.Lib

/-- Unescaping gives `m`, wherever the bytes lie and whatever is behind them. -/
def Decodes (bytes m : List UInt8) : Prop :=
  ∀ (mem : Mem) (buffer : Nat), mem.read buffer bytes.length = bytes →
    (unescape mem buffer bytes.length).2 = m.length ∧
      (unescape mem buffer bytes.length).1.read buffer m.length = m

/-- The message with `\x00` for every NUL. -/
def expanded (m : List UInt8) : List UInt8 :=
  m.flatMap fun b => if b = 0 then [92, 120, 48, 48] else [b]

/-- No `\xHH` stands in the message. -/
def NoEscape (m : List UInt8) : Prop := ∀ q, q <:+ m → ¬ StartsEscape q

structure Reversible (m : List UInt8) : Prop where
  last : ∃ b ∈ m.getLast?, isUnprintable b = true
  nul : ∀ b ∈ m, isUnprintable b = true → b = 0
  noEscape : NoEscape m
  inPlace : ∀ (w : Nat) (b : UInt8), m[w]? = some b → isUnprintable b = false →
    (expanded m)[w]? = some b

/-! ## Sequences in what was written -/

section Sequences

variable {b c : UInt8} {l r : List UInt8}

theorem isUnprintable_of_hex (h : asciiHexToInt c > -1) : isUnprintable c = false ∧ c ≠ 92 := by
  rw [asciiHexToInt] at h
  constructor
  · simp only [isUnprintable, Bool.or_eq_false_iff, decide_eq_false_iff_not]
    split_ifs at h <;> omega
  · rintro rfl
    exact absurd h (by decide)

theorem isUnprintable_of_mark (h : c = 120 ∨ c = 88) : isUnprintable c = false ∧ c ≠ 92 := by
  rcases h with rfl | rfl <;> decide

theorem asciiHexToInt_hexDigit {n : Nat} (h : n < 16) : asciiHexToInt (hexDigit n) > -1 := by
  have hall : ∀ n < 16, asciiHexToInt (hexDigit n) > -1 := by decide
  exact hall n h

theorem startsEscape_escapedHex (b : UInt8) (l : List UInt8) :
    StartsEscape (escapedHex b ++ l) := by
  have hb : b.toNat < 256 := b.toNat_lt
  exact ⟨rfl, Or.inl rfl, asciiHexToInt_hexDigit (by omega), asciiHexToInt_hexDigit (by omega)⟩

theorem escapeByte_printable (h : isUnprintable b = false) : escapeByte b = [b] := by
  rw [escapeByte, h, if_neg Bool.false_ne_true]

/-- What is written starts with a printable byte only if the message does, backslashes
    aside. -/
theorem cons_of_flatMap (h : l.flatMap escapeByte = c :: r) (hc : c ≠ 92) :
    ∃ l', l = c :: l' ∧ r = l'.flatMap escapeByte := by
  cases l with
  | nil => cases h
  | cons b l =>
      rw [List.flatMap_cons] at h
      cases hb : isUnprintable b with
      | true =>
          rw [escapeByte, hb, if_pos rfl] at h
          exact absurd (List.cons.inj h).1.symm hc
      | false =>
          rw [escapeByte_printable hb, List.singleton_append] at h
          obtain ⟨rfl, rfl⟩ := List.cons.inj h
          exact ⟨l, rfl, rfl⟩

/-- The bytes of a sequence are printable. -/
theorem StartsEscape.isUnprintable (h : StartsEscape (b :: l)) :
    Log.isUnprintable b = false ∧ ∀ c ∈ l.take 3, Log.isUnprintable c = false := by
  obtain ⟨x, c, d, r, hl, hx, hc, hd⟩ := startsEscape_iff.mp h
  obtain ⟨rfl, rfl⟩ := List.cons.inj hl
  refine ⟨rfl, ?_⟩
  simp [isUnprintable_of_mark hx, isUnprintable_of_hex hc, isUnprintable_of_hex hd]

/-- A printable byte starts a sequence in what is written if it does in the message. -/
theorem startsEscape_flatMap :
    StartsEscape (b :: l.flatMap escapeByte) ↔ StartsEscape (b :: l) := by
  constructor
  · intro h
    obtain ⟨x, c, d, r, hl, hx, hc, hd⟩ := startsEscape_iff.mp h
    obtain ⟨rfl, hr⟩ := List.cons.inj hl
    obtain ⟨l1, rfl, h1⟩ := cons_of_flatMap hr (isUnprintable_of_mark hx).2
    obtain ⟨l2, rfl, h2⟩ := cons_of_flatMap h1.symm (isUnprintable_of_hex hc).2
    obtain ⟨l3, rfl, -⟩ := cons_of_flatMap h2.symm (isUnprintable_of_hex hd).2
    exact ⟨rfl, hx, hc, hd⟩
  · intro h
    obtain ⟨x, c, d, r, hl, hx, hc, hd⟩ := startsEscape_iff.mp h
    obtain ⟨rfl, rfl⟩ := List.cons.inj hl
    rw [List.flatMap_cons, List.flatMap_cons, List.flatMap_cons,
      escapeByte_printable (isUnprintable_of_mark hx).1,
      escapeByte_printable (isUnprintable_of_hex hc).1,
      escapeByte_printable (isUnprintable_of_hex hd).1]
    exact ⟨rfl, hx, hc, hd⟩

theorem marks_escapedHex (b : UInt8) (l : List UInt8) :
    marks (escapedHex b ++ l) 0 = true :: marks l 0 := if_pos (startsEscape_escapedHex b l)

/-- No more bytes are left than the message has, and fewer if a sequence stands in it. -/
theorem marks_flatMap_le (k : Nat) (h : ∀ b ∈ l.take k, isUnprintable b = false) :
    (marks (l.flatMap escapeByte) k).length + min k l.length ≤ l.length := by
  induction l generalizing k with
  | nil => simp [marks]
  | cons b l ih =>
      rw [List.flatMap_cons, List.length_cons]
      cases k with
      | succ k =>
          have hb := h b (by simp)
          have hrest := ih k fun d hd => h d (by simp [hd])
          rw [escapeByte_printable hb, List.singleton_append, marks]
          omega
      | zero =>
          have hrest := ih 0 (by simp)
          cases hb : isUnprintable b with
          | true =>
              rw [escapeByte, hb, if_pos rfl, marks_escapedHex, List.length_cons]
              omega
          | false =>
              rw [escapeByte_printable hb, List.singleton_append, marks]
              split
              next hstart =>
                have hsequence := startsEscape_flatMap.mp hstart
                have hfour := hsequence.four_le
                have hthree := ih 3 hsequence.isUnprintable.2
                rw [List.length_cons] at hfour ⊢
                omega
              next =>
                rw [List.length_cons]
                omega

theorem NoEscape.tail (h : NoEscape (b :: l)) : NoEscape l :=
  fun q hq => h q (hq.trans (List.suffix_cons b l))

/-- If as many are left, no sequence stands in the message. -/
theorem noEscape_of_marks_length (h : (marks (l.flatMap escapeByte) 0).length = l.length) :
    NoEscape l := by
  induction l with
  | nil =>
      intro q hq
      rw [List.suffix_nil.mp hq]
      exact id
  | cons b l ih =>
      have hrest := @marks_flatMap_le l 0 (by simp)
      rw [List.flatMap_cons, List.length_cons] at h
      intro q hq
      cases hb : isUnprintable b with
      | true =>
          rw [escapeByte, hb, if_pos rfl, marks_escapedHex, List.length_cons] at h
          rcases List.suffix_cons_iff.mp hq with rfl | hq
          · intro hstart
            rw [hstart.isUnprintable.1] at hb
            cases hb
          · exact ih (Nat.succ.inj h) q hq
      | false =>
          rw [escapeByte_printable hb, List.singleton_append, marks] at h
          by_cases hstart : StartsEscape (b :: l)
          · have hthree := @marks_flatMap_le l 3 hstart.isUnprintable.2
            have hfour := hstart.four_le
            rw [if_pos (startsEscape_flatMap.mpr hstart), List.length_cons] at h
            rw [List.length_cons] at hfour
            omega
          · rw [if_neg (mt startsEscape_flatMap.mp hstart), List.length_cons] at h
            rcases List.suffix_cons_iff.mp hq with rfl | hq
            · exact hstart
            · exact ih (Nat.succ.inj h) q hq

/-- If none does, the marks are those of the unprintable bytes. -/
theorem NoEscape.marks_eq (h : NoEscape l) :
    marks (l.flatMap escapeByte) 0 = l.map isUnprintable := by
  induction l with
  | nil => rfl
  | cons b l ih =>
      rw [List.flatMap_cons, List.map_cons, ← ih h.tail]
      cases hb : isUnprintable b with
      | true => rw [escapeByte, hb, if_pos rfl, marks_escapedHex]
      | false =>
          have hstart := h (b :: l) (List.suffix_refl _)
          rw [escapeByte_printable hb, List.singleton_append, marks,
            if_neg (mt startsEscape_flatMap.mp hstart)]

end Sequences

/-! ## Decoding -/

section Decoding

variable {bytes m : List UInt8}

theorem decodes_iff (hsize : bytes.length < 2 ^ 64) (hthree : 3 ≤ bytes.length) :
    Decodes bytes m ↔ unescaped bytes = m := by
  constructor
  · intro h
    have hread : Mem.read (fun x => bytes.getD x 0) 0 bytes.length = bytes := by
      apply List.ext_getElem (Mem.read_length _ _ _)
      intro i _ hi
      rw [Mem.read_getElem, Nat.zero_add, List.getD_eq_getElem _ _ hi]
    obtain ⟨hlen, htext⟩ := h _ 0 hread
    have hspec := @unescape_spec (fun x => bytes.getD x 0) 0 bytes.length hsize hthree
    rw [hread] at hspec
    rw [← hlen, hspec.1, hspec.2] at htext
    exact htext
  · rintro rfl mem buffer hread
    have hspec := @unescape_spec mem buffer bytes.length hsize hthree
    rwa [hread] at hspec

/-- Without a backslash, the loop leaves everything as it is. -/
theorem unescapeLoop_plain {mem : Mem} {buffer size fuel read write result : Nat}
    (h : ∀ r, read ≤ r → mem (buffer + r) ≠ 92) :
    unescapeLoop mem buffer size fuel read write result = (mem, result) := by
  induction fuel generalizing read write with
  | zero => rfl
  | succ fuel ih =>
      have hnone : ¬ (mem (buffer + read) = 92 ∧
          (mem (buffer + read + 1) = 120 ∨ mem (buffer + read + 1) = 88) ∧
          asciiHexToInt (mem (buffer + read + 2)) > -1 ∧
          asciiHexToInt (mem (buffer + read + 3)) > -1) :=
        fun hstart => h read (Nat.le_refl _) hstart.1
      rw [unescapeLoop]
      dsimp only
      rw [if_neg hnone, ih fun r hr => h r (Nat.le_of_succ_le hr)]
      split
      next => rfl
      next => rfl

/-- Where nothing was written, what `unescape` does depends on what is behind: its bound
    wraps around. -/
theorem not_decodes_nil : ¬ Decodes [] m := by
  intro h
  obtain ⟨k, hk⟩ : ∃ k, sizeSub 0 3 = k + 1 := ⟨2 ^ 64 - 4, by decide⟩
  cases m with
  | cons b m =>
      obtain ⟨hlen, -⟩ := h (fun _ => 0) 0 rfl
      rw [List.length_nil, unescape, unescapeLoop_plain fun _ _ => by decide] at hlen
      cases hlen
  | nil =>
      -- a sequence behind the buffer
      obtain ⟨hlen, -⟩ := h (fun x => [92, 120, 48, 48].getD x 0) 0 rfl
      rw [List.length_nil, unescape, hk, unescapeLoop, hk, if_pos (Nat.succ_pos k)] at hlen
      dsimp only at hlen
      rw [if_pos (by decide), unescapeLoop_plain] at hlen
      · cases hlen
      · intro r hr
        rw [Mem.write_apply_of_ge (by simpa using Nat.le_trans (by decide) hr),
          List.getD_eq_default _ _ (by simpa using hr)]
        decide

/-- With a mark for every unprintable byte, what is left is compared byte by byte: the
    printable ones with what was written at the same place. -/
theorem unescaped_eq_iff (hmarks : marks (escaped m) 0 = m.map isUnprintable) :
    unescaped (escaped m) = m ↔ ∀ (w : Nat) (b : UInt8), m[w]? = some b →
      (isUnprintable b = true → b = 0) ∧
        (isUnprintable b = false → (escaped m)[w]? = some b) := by
  have hlen := marks_length_le (escaped m) 0
  rw [hmarks, List.length_map] at hlen
  rw [unescaped, hmarks]
  constructor
  · intro h w b hb
    have hzip := hb
    rw [← h, List.getElem?_zipWith_eq_some] at hzip
    obtain ⟨mark, e, hmark, he, hvalue⟩ := hzip
    rw [List.getElem?_map, hb, Option.map_some, Option.some.injEq] at hmark
    subst hmark
    cases hprint : isUnprintable b with
    | true =>
        rw [hprint, if_pos rfl] at hvalue
        exact ⟨fun _ => hvalue.symm, Bool.noConfusion⟩
    | false =>
        rw [hprint, if_neg Bool.false_ne_true] at hvalue
        exact ⟨Bool.noConfusion, fun _ => hvalue ▸ he⟩
  · intro h
    apply List.ext_getElem
    · rw [List.length_zipWith, List.length_map, Nat.min_eq_left hlen]
    · intro w hw hw'
      have hget := h w m[w] (List.getElem?_eq_getElem hw')
      rw [List.getElem_zipWith, List.getElem_map]
      cases hprint : isUnprintable m[w] with
      | true => rw [if_pos rfl, hget.1 hprint]
      | false =>
          have he := hget.2 hprint
          rw [List.getElem?_eq_getElem (Nat.lt_of_lt_of_le hw' hlen), Option.some.injEq] at he
          rw [if_neg Bool.false_ne_true, he]

/-- With NUL as the only unprintable byte. -/
theorem escapeByte_expanded (h : ∀ b ∈ m, isUnprintable b = true → b = 0) :
    m.flatMap escapeByte = expanded m := by
  apply List.flatMap_congr
  intro b hb
  cases hprint : isUnprintable b with
  | true =>
      rw [h b hb hprint]
      rfl
  | false =>
      have hne : b ≠ 0 := by
        rintro rfl
        cases hprint
      rw [escapeByte_printable hprint, if_neg hne]

theorem written_eq_self_iff (hne : m ≠ []) :
    written m = m ↔ ∃ b ∈ m.getLast?, isUnprintable b = true := by
  rw [written, List.rdropWhile_eq_self_iff]
  simp [hne, List.getLast?_eq_getLast_of_ne_nil]

/-- What is written of a message with an unprintable byte has a sequence in it. -/
theorem four_le_escaped (h : written m ≠ []) : 4 ≤ (escaped m).length := by
  have hlast : isUnprintable ((written m).getLast h) = true := by
    have hnot := List.rdropWhile_last_not (fun b => !isUnprintable b) m h
    rwa [Bool.not_eq_true, Bool.not_eq_false'] at hnot
  rw [escaped, ← List.dropLast_append_getLast h, List.flatMap_append, List.flatMap_singleton,
    escapeByte, if_pos hlast, List.length_append]
  exact Nat.le_add_left 4 _

/-- What was written of a message is read back exactly if the message is reversible. -/
theorem decodes_escaped_iff (hsize : (escaped m).length < 2 ^ 64) :
    Decodes (escaped m) m ↔ Reversible m := by
  by_cases hwritten : written m = []
  · have hnil : escaped m = [] := by rw [escaped, hwritten, List.flatMap_nil]
    rw [hnil]
    refine iff_of_false not_decodes_nil fun h => ?_
    obtain ⟨b, hb, hprint⟩ := h.last
    have hall := List.rdropWhile_eq_nil_iff.mp hwritten b (List.mem_of_getLast? hb)
    rw [hprint] at hall
    cases hall
  · have hfour := four_le_escaped hwritten
    have hne : m ≠ [] := by
      rintro rfl
      exact hwritten rfl
    rw [decodes_iff hsize (Nat.le_of_succ_le hfour)]
    constructor
    · intro h
      -- as many bytes are left as there were, so all were written and no more were marked
      have hlen : (marks ((written m).flatMap escapeByte) 0).length = m.length := by
        rw [← escaped, ← unescaped_length, h]
      have hprefix : written m <+: m := List.rdropWhile_prefix _ _
      have hle := @marks_flatMap_le (written m) 0 (by simp)
      have hself : written m = m := hprefix.eq_of_length (by have := hprefix.length_le; omega)
      have hescaped : escaped m = m.flatMap escapeByte := by rw [escaped, hself]
      rw [hself] at hlen
      have hnone := noEscape_of_marks_length hlen
      have hbytes := (unescaped_eq_iff (hescaped ▸ hnone.marks_eq)).mp h
      have hnul : ∀ b ∈ m, isUnprintable b = true → b = 0 := by
        intro b hb
        obtain ⟨w, hw⟩ := List.mem_iff_getElem?.mp hb
        exact (hbytes w b hw).1
      refine ⟨(written_eq_self_iff hne).mp hself, hnul, hnone, fun w b hb hprint => ?_⟩
      rw [← escapeByte_expanded hnul, ← hescaped]
      exact (hbytes w b hb).2 hprint
    · intro h
      have hself := (written_eq_self_iff hne).mpr h.last
      have hescaped : escaped m = m.flatMap escapeByte := by rw [escaped, hself]
      refine (unescaped_eq_iff (hescaped ▸ h.noEscape.marks_eq)).mpr fun w b hb => ?_
      refine ⟨h.nul b (List.mem_of_getElem? hb), fun hprint => ?_⟩
      rw [hescaped, escapeByte_expanded h.nul]
      exact h.inPlace w b hb hprint

end Decoding

/-- What `end_write` writes with `escape` on, the newline dropped, is unescaped to the
    message exactly if the message is reversible. -/
theorem escape_reversible_iff {s : LogOstream} {len : Nat} (hescape : s.escape = true)
    (hturns : s.fd.turns = []) (hsize : (escaped (s.message len)).length < 2 ^ 64) :
    (camioOstreamLogEndWrite s len).fd.received
        = s.fd.received ++ (escaped (s.message len) ++ [lf]) ∧
      (Decodes (escaped (s.message len)) (s.message len) ↔ Reversible (s.message len)) :=
  ⟨camioOstreamLogEndWrite_escaped hescape hturns, decodes_escaped_iff hsize⟩

/-- An ostream that escapes, with these bytes in its buffer. -/
def demoEscaping (m : List UInt8) : LogOstream :=
  { camioOstreamLogConstruct (Mem.ofBytes m) with isClosed := false, escape := true }

/-- An `A` and a NUL. -/
theorem escape_reversible_a_nul :
    (camioOstreamLogEndWrite (demoEscaping [65, 0]) 2).fd.received
        = [65, 92, 120, 48, 48, lf] ∧
      Decodes [65, 92, 120, 48, 48] [65, 0] := by
  have hreversible : Reversible [65, 0] := by
    refine ⟨⟨0, by simp, by decide⟩, ?_, ?_, ?_⟩
    · intro b hb
      simp only [List.mem_cons, List.not_mem_nil, or_false] at hb
      rcases hb with rfl | rfl <;> decide
    · -- too short for a sequence
      intro q hq hstart
      have hle := hq.length_le
      have hfour := hstart.four_le
      simp only [List.length_cons, List.length_nil] at hle
      omega
    · intro w b hb hprint
      cases w with
      | zero => simpa [expanded] using hb
      | succ w =>
          have hzero : b = 0 := by
            have hmem := List.mem_of_getElem? (l := [0]) hb
            simpa using hmem
          rw [hzero] at hprint
          exact absurd hprint (by decide)
  have hiff := @escape_reversible_iff (demoEscaping [65, 0]) 2 rfl rfl (by decide)
  exact ⟨hiff.1, hiff.2.mpr hreversible⟩

/-- A newline comes back as NUL. -/
theorem escape_reversible_fails :
    ¬ ∀ (s : LogOstream) (len : Nat) (bytes : List UInt8), s.escape = true → s.fd.turns = [] →
      (camioOstreamLogEndWrite s len).fd.received = s.fd.received ++ (bytes ++ [lf]) →
      bytes.length < 2 ^ 64 → Decodes bytes (s.message len) := by
  intro hall
  have hdecodes := hall (demoEscaping [10]) 1 [92, 120, 48, 65] rfl rfl rfl (by decide)
  obtain ⟨-, htext⟩ := hdecodes (fun x => [92, 120, 48, 65].getD x 0) 0 rfl
  exact absurd htext (by decide)

end Camio.Log
