/-
  Camio.Log.Text

  The lines of a text whose terminators are LF, CR and CR LF, and which may end without one.

  `textSpans` cuts a text into its lines, each with its terminator beside.  Splitting at
  every terminator byte gives the same lines if and only if the text holds no CR LF and ends
  with a terminator.
-/

import Mathlib.Data.List.Infix
import Camio.Log.Line

namespace Camio.Log

/-- Put a byte in front of the first line. -/
def consText (b : UInt8) : List (List UInt8 × List UInt8) → List (List UInt8 × List UInt8)
  | [] => [([b], [])]
  | (text, terminator) :: spans => (b :: text, terminator) :: spans

/-- Put a CR in front of the first terminator. -/
def joinCr : List (List UInt8 × List UInt8) → List (List UInt8 × List UInt8)
  | [] => []
  | (text, terminator) :: spans => (text, cr :: terminator) :: spans

/-- The lines of a text with their terminators; that of an unterminated last line is empty. -/
def textSpans : List UInt8 → List (List UInt8 × List UInt8)
  | [] => []
  | b :: bytes =>
      if isTerminator b then
        -- the LF behind a CR belongs to it
        if b = cr ∧ bytes.head? = some lf then joinCr (textSpans bytes)
        else ([], [b]) :: textSpans bytes
      else consText b (textSpans bytes)

/-- The lines of a text. -/
def textLines (bytes : List UInt8) : List (List UInt8) := (textSpans bytes).map Prod.fst

/-- No CR LF stands in the text. -/
def NoCrLf (bytes : List UInt8) : Prop := ¬ [cr, lf] <:+: bytes

/-- The text is empty or ends with a terminator. -/
def Terminated (bytes : List UInt8) : Prop := ∀ b ∈ bytes.getLast?, isTerminator b = true

/-! ## The lines cover the text -/

section Spans

variable {m r : List UInt8} {b : UInt8}

theorem textSpans_lf (r : List UInt8) : textSpans (lf :: r) = ([], [lf]) :: textSpans r := by
  rw [textSpans, if_pos (by decide), if_neg (fun h => absurd h.1 (by decide))]

/-- A terminator byte ends the line before it, with the LF behind it if it is a CR. -/
theorem textSpans_terminator (hb : isTerminator b = true) :
    (textSpans (b :: r) = ([], [b]) :: textSpans r ∧ ¬ (b = cr ∧ r.head? = some lf)) ∨
      ∃ r', b = cr ∧ r = lf :: r' ∧ textSpans (b :: r) = ([], [cr, lf]) :: textSpans r' := by
  rw [textSpans, if_pos hb]
  by_cases hcrlf : b = cr ∧ r.head? = some lf
  · obtain ⟨r', rfl⟩ := List.head?_eq_some_iff.mp hcrlf.2
    rw [if_pos hcrlf, textSpans_lf]
    exact Or.inr ⟨r', hcrlf.1, rfl, rfl⟩
  · rw [if_neg hcrlf]
    exact Or.inl ⟨rfl, hcrlf⟩

theorem flatMap_consText (b : UInt8) (spans : List (List UInt8 × List UInt8)) :
    (consText b spans).flatMap (fun s => s.1 ++ s.2) = b :: spans.flatMap fun s => s.1 ++ s.2 := by
  cases spans with
  | nil => rfl
  | cons s spans => rfl

/-- One behind the other, the lines and their terminators are the text. -/
theorem textSpans_cover (bytes : List UInt8) :
    (textSpans bytes).flatMap (fun s => s.1 ++ s.2) = bytes := by
  induction hlen : bytes.length using Nat.strong_induction_on generalizing bytes with
  | _ n ih =>
      subst hlen
      cases bytes with
      | nil => rfl
      | cons b r =>
          by_cases hb : isTerminator b = true
          · obtain ⟨hone, -⟩ | ⟨r', rfl, rfl, htwo⟩ := @textSpans_terminator r b hb
            · rw [hone, List.flatMap_cons, ih r.length (Nat.lt_succ_self _) r rfl]
              rfl
            · -- a CR LF is two bytes
              have hlt : r'.length < (cr :: lf :: r').length := by
                simp only [List.length_cons]
                omega
              rw [htwo, List.flatMap_cons, ih r'.length hlt r' rfl]
              rfl
          · rw [textSpans, if_neg hb, flatMap_consText, ih r.length (Nat.lt_succ_self _) r rfl]

/-- Bytes that are no terminators come in front of the first line. -/
theorem textSpans_append (hm : ∀ b ∈ m, isTerminator b = false) :
    textSpans (m ++ r) = m.foldr consText (textSpans r) := by
  induction m with
  | nil => rfl
  | cons b m ih =>
      have hb : ¬ isTerminator b = true := by
        rw [hm b List.mem_cons_self]
        exact Bool.false_ne_true
      rw [List.cons_append, textSpans, if_neg hb, ih fun b hb => hm b (List.mem_cons_of_mem _ hb),
        List.foldr_cons]

theorem foldr_consText (m text terminator : List UInt8)
    (spans : List (List UInt8 × List UInt8)) :
    m.foldr consText ((text, terminator) :: spans) = (m ++ text, terminator) :: spans := by
  induction m with
  | nil => rfl
  | cons b m ih => rw [List.foldr_cons, ih, consText, List.cons_append]

theorem foldr_consText_nil (m : List UInt8) (hm : m ≠ []) : m.foldr consText [] = [(m, [])] := by
  induction m with
  | nil => exact absurd rfl hm
  | cons b m ih =>
      cases m with
      | nil => rfl
      | cons c m => rw [List.foldr_cons, ih (List.cons_ne_nil c m), consText]

/-- No line holds a terminator. -/
theorem textSpans_text {s : List UInt8 × List UInt8} {bytes : List UInt8}
    (hs : s ∈ textSpans bytes) : ∀ b ∈ s.1, isTerminator b = false := by
  induction bytes generalizing s with
  | nil => exact absurd hs List.not_mem_nil
  | cons b r ih =>
      rw [textSpans] at hs
      split_ifs at hs with hb hcrlf
      · -- a CR with its LF joins the terminator of what follows
        cases hr : textSpans r with
        | nil =>
            rw [hr] at hs
            exact absurd hs List.not_mem_nil
        | cons s' spans =>
            rw [hr] at hs ih
            rcases List.mem_cons.mp hs with rfl | hs
            · exact @ih s' List.mem_cons_self
            · exact ih (List.mem_cons_of_mem _ hs)
      · rcases List.mem_cons.mp hs with rfl | hs
        · exact List.forall_mem_nil _
        · exact ih hs
      · cases hr : textSpans r with
        | nil =>
            rw [hr] at hs
            obtain rfl := List.mem_singleton.mp hs
            intro c hc
            rw [List.mem_singleton.mp hc]
            exact Bool.eq_false_iff.mpr hb
        | cons s' spans =>
            rw [hr] at hs ih
            rcases List.mem_cons.mp hs with rfl | hs
            · intro c hc
              rcases List.mem_cons.mp hc with rfl | hc
              · exact Bool.eq_false_iff.mpr hb
              · exact @ih s' List.mem_cons_self c hc
            · exact ih (List.mem_cons_of_mem _ hs)

/-- The lines of a text that starts with a terminated one. -/
theorem textLines_line (hm : ∀ b ∈ m, isTerminator b = false) (hb : isTerminator b = true) :
    (textLines (m ++ b :: r) = m :: textLines r ∧ ¬ (b = cr ∧ r.head? = some lf)) ∨
      ∃ r', b = cr ∧ r = lf :: r' ∧ textLines (m ++ b :: r) = m :: textLines r' := by
  rw [textLines, textSpans_append hm]
  obtain ⟨hone, hcrlf⟩ | ⟨r', hcr, hr, htwo⟩ := @textSpans_terminator r b hb
  · rw [hone, foldr_consText, List.append_nil]
    exact Or.inl ⟨rfl, hcrlf⟩
  · rw [htwo, foldr_consText, List.append_nil]
    exact Or.inr ⟨r', hcr, hr, rfl⟩

/-- A text without terminators is one line, if it is not empty. -/
theorem textLines_unterminated (hm : ∀ b ∈ m, isTerminator b = false) :
    textLines m = if m = [] then [] else [m] := by
  have happend := @textSpans_append m [] hm
  rw [List.append_nil] at happend
  rw [textLines, happend]
  by_cases hnil : m = []
  · rw [if_pos hnil, hnil]
    rfl
  · rw [if_neg hnil, textSpans, foldr_consText_nil m hnil]
    rfl

end Spans

/-! ## Splitting at every terminator byte -/

section Plain

variable {l rest : List UInt8} {lines : List (List UInt8)} {n : Nat}

theorem plainEnd_eq_some (h : plainEnd l = some n) : ∃ m b r, l = m ++ b :: r ∧
    (∀ c ∈ m, isTerminator c = false) ∧ isTerminator b = true ∧ l.take (n - 1) = m ∧
    l.drop n = r := by
  rw [plainEnd, Option.map_eq_some_iff] at h
  obtain ⟨k, hk, rfl⟩ := h
  obtain ⟨hlt, hterm, hbefore⟩ := List.findIdx?_eq_some_iff_getElem.mp hk
  refine ⟨l.take k, l[k], l.drop (k + 1), ?_, fun c hc => ?_, hterm, rfl, rfl⟩
  · rw [← List.drop_eq_getElem_cons hlt, List.take_append_drop]
  · obtain ⟨i, hi, rfl⟩ := List.mem_iff_getElem.mp hc
    rw [List.length_take] at hi
    rw [List.getElem_take]
    exact Bool.eq_false_iff.mpr (hbefore i (by omega))

theorem not_terminator_of_plainEnd_none (h : plainEnd l = none) :
    ∀ b ∈ l, isTerminator b = false :=
  List.findIdx?_eq_none_iff.mp (plainEnd_eq_none_iff.mp h)

/-- An LF is split off as an empty line. -/
theorem Split.lf {r : List UInt8} (h : Split plainEnd (lf :: r) lines rest)
    (hend : plainEnd rest = none) :
    ∃ lines', lines = [] :: lines' ∧ Split plainEnd r lines' rest := by
  cases h with
  | nil => cases hend
  | @cons _ _ size lines' hsize hrest =>
      obtain rfl : size = 1 := (Option.some.inj hsize).symm
      exact ⟨lines', rfl, hrest⟩

/-- With an empty line in front, what the splitting gives is never what the text holds. -/
theorem replicate_append_ne (h : Split plainEnd l lines rest) (hend : plainEnd rest = none)
    (n : Nat) : List.replicate (n + 1) [] ++ lines ≠ textLines l := by
  -- by induction on the text, whose lines may take a CR LF at a time
  induction hlen : l.length using Nat.strong_induction_on generalizing l lines n with
  | _ len ih =>
      subst hlen
      cases h with
      | nil =>
          rw [textLines_unterminated (not_terminator_of_plainEnd_none hend), List.append_nil,
            List.replicate_succ]
          split
          next => exact List.cons_ne_nil _ _
          next hne =>
            intro heq
            exact hne (List.cons.inj heq).1.symm
      | @cons _ _ size lines hsize hrest =>
          obtain ⟨m, b, r, rfl, hm, hb, htake, hdrop⟩ := plainEnd_eq_some hsize
          rw [htake]
          rw [hdrop] at hrest
          intro heq
          have hshorter : ∀ l' : List UInt8, l'.length ≤ r.length → l'.length
              < (m ++ b :: r).length := by
            intro l' hl'
            rw [List.length_append, List.length_cons]
            omega
          -- the first line is empty on both sides, and one less is in front of the rest
          have hshift : List.replicate (n + 1) [] ++ m :: lines
              = [] :: (List.replicate n [] ++ m :: lines) := by
            rw [List.replicate_succ, List.cons_append]
          obtain ⟨hone, -⟩ | ⟨r', rfl, rfl, htwo⟩ := @textLines_line m r b hm hb
          · rw [hone, hshift] at heq
            obtain ⟨rfl, htail⟩ := List.cons.inj heq
            refine ih r.length (hshorter r (Nat.le_refl _)) hrest n rfl ?_
            rw [← htail, List.replicate_succ', List.append_assoc, List.singleton_append]
          · rw [htwo, hshift] at heq
            obtain ⟨rfl, htail⟩ := List.cons.inj heq
            -- the LF gives one more empty line
            obtain ⟨lines', rfl, hrest'⟩ := hrest.lf hend
            refine ih r'.length (hshorter r' (Nat.le_succ _)) hrest' (n + 1) rfl ?_
            rw [← htail, List.replicate_succ', List.replicate_succ', List.append_assoc,
              List.append_assoc, List.singleton_append, List.singleton_append]

theorem infix_line {m r : List UInt8} {b : UInt8} (hm : ∀ c ∈ m, isTerminator c = false) :
    [cr, lf] <:+: m ++ b :: r ↔ (b = cr ∧ r.head? = some lf) ∨ [cr, lf] <:+: r := by
  induction m with
  | nil =>
      rw [List.nil_append, List.infix_cons_iff, List.cons_prefix_cons]
      refine or_congr (and_congr eq_comm ?_) Iff.rfl
      cases r with
      | nil => simp
      | cons c r => simp [eq_comm]
  | cons c m ih =>
      have hc : c ≠ cr := by
        rintro rfl
        exact absurd (hm cr List.mem_cons_self) (by decide)
      rw [List.cons_append, List.infix_cons_iff, ih fun c hc => hm c (List.mem_cons_of_mem _ hc)]
      refine or_iff_right fun hstart => hc ?_
      exact (List.cons_prefix_cons.mp hstart).1.symm

/-- Splitting leaves nothing of a text exactly if it is terminated. -/
theorem rest_eq_nil_iff (h : Split plainEnd l lines rest) (hend : plainEnd rest = none) :
    rest = [] ↔ Terminated l := by
  induction h with
  | nil bytes =>
      constructor
      · rintro rfl b hb
        exact absurd hb (Option.not_mem_none b)
      · intro hterm
        by_contra hne
        have hlast := hterm _ (List.getLast?_eq_some_getLast hne)
        rw [not_terminator_of_plainEnd_none hend _ (List.getLast_mem hne)] at hlast
        cases hlast
  | @cons bytes rest size lines hsize hrest ih =>
      obtain ⟨m, b, r, rfl, -, hb, -, hdrop⟩ := plainEnd_eq_some hsize
      rw [ih hend, hdrop, Terminated, Terminated, List.getLast?_append]
      cases r with
      | nil => simp [hb]
      | cons c r => rw [List.getLast?_cons_cons, List.getLast?_cons, Option.some_or]

/-- It gives the lines of the text exactly if this is terminated and holds no CR LF. -/
theorem eq_textLines_iff (h : Split plainEnd l lines rest) (hend : plainEnd rest = none) :
    lines = textLines l ↔ Terminated l ∧ NoCrLf l := by
  rw [← rest_eq_nil_iff h hend]
  induction h with
  | nil bytes =>
      rw [textLines_unterminated (not_terminator_of_plainEnd_none hend)]
      split
      next hnil =>
        subst hnil
        exact iff_of_true rfl ⟨rfl, fun hinfix => by cases List.eq_nil_of_infix_nil hinfix⟩
      next hne => exact iff_of_false (List.cons_ne_nil _ _).symm fun hand => hne hand.1
  | @cons bytes rest size lines hsize hrest ih =>
      obtain ⟨m, b, r, rfl, hm, hb, htake, hdrop⟩ := plainEnd_eq_some hsize
      have hih := ih hend
      rw [hdrop] at hih hrest
      rw [htake, NoCrLf, infix_line hm, not_or]
      obtain ⟨hone, hcrlf⟩ | ⟨r', rfl, rfl, htwo⟩ := @textLines_line m r b hm hb
      · rw [hone, List.cons.injEq, hih]
        simp [hcrlf, NoCrLf]
      · -- the LF is split off as a line of its own
        rw [htwo]
        refine iff_of_false (fun heq => ?_) fun hand => hand.2.1 ⟨rfl, rfl⟩
        obtain ⟨lines', rfl, hrest'⟩ := hrest.lf hend
        exact replicate_append_ne hrest' hend 0 (List.cons.inj heq).2

/-- Each line takes a byte at least. -/
theorem Split.length_le_bytes (h : Split plainEnd l lines rest) : lines.length ≤ l.length := by
  induction h with
  | nil bytes => exact Nat.zero_le _
  | cons hsize _ ih =>
      obtain ⟨m, b, r, rfl, -, -, -, hdrop⟩ := plainEnd_eq_some hsize
      rw [hdrop] at ih
      rw [List.length_cons, List.length_append, List.length_cons]
      omega

end Plain

end Camio.Log
