/-
  Camio.Parsing.Shape

  The shape of the texts that are accepted.

  What is accepted should be white space, a sign, a literal with digits, a suffix and white
  space again.  The parser does not look at what comes behind a suffix letter, and it takes
  `0x`, `0b` and a period without any digits.
-/

import Camio.Parsing.Acceptance

namespace Camio.Parsing

open Camio.Lib

/-- A well-formed literal with at least one digit of its base. -/
def Literal.HasDigits : Literal → Prop
  | .zero => True
  | .dec digits => digits ≠ [] ∧ ∀ c ∈ digits, isDigit c = true
  | .oct digits => digits ≠ [] ∧ ∀ c ∈ digits, isODigit c = true
  | .hex x digits => (x = ch 'x' ∨ x = ch 'X') ∧ digits ≠ [] ∧ ∀ c ∈ digits, isXDigit c = true
  | .bin b digits => (b = ch 'b' ∨ b = ch 'B') ∧ digits ≠ [] ∧ ∀ c ∈ digits, isBDigit c = true
  | .frac whole digits => (∀ c ∈ whole, isDigit c = true) ∧ (∀ c ∈ digits, isDigit c = true) ∧
      (whole ≠ [] ∨ digits ≠ [])

/-- No suffix, a letter, or a letter with an `i`. -/
def IsSuffix (unit : List UInt8) : Prop :=
  unit = [] ∨ ∃ k, isPrefix k = true ∧ (unit = [k] ∨ ∃ b, isBin b = true ∧ unit = [k, b])

/-- `whitespace* [+|-] literal [k|m|g [i]] whitespace*` -/
structure IsForm (w1 : List UInt8) (sign : Option UInt8) (literal : Literal)
    (unit w2 : List UInt8) : Prop where
  w1 : AllWhite w1
  sign : ∀ c ∈ sign, c = ch '-' ∨ c = ch '+'
  literal : literal.HasDigits
  unit : IsSuffix unit
  w2 : AllWhite w2

/-- The text has that form. -/
def Form (text : List UInt8) : Prop :=
  ∃ w1 sign literal unit w2, IsForm w1 sign literal unit w2 ∧
    text = w1 ++ (sign.toList ++ (literal.text ++ (unit ++ w2)))

/-- Behind a suffix letter: an `i`, if anything, and white space. -/
def CleanRest (rest : List UInt8) : Prop :=
  ∃ bin w, rest = bin ++ w ∧ AllWhite w ∧ (bin = [] ∨ ∃ b, isBin b = true ∧ bin = [b])

def Tail.Clean : Tail → Prop
  | .white _ => True
  | .suffix _ rest => CleanRest rest

/-- `0x`, `0b` or a period alone. -/
def Literal.Digitless : Literal → Prop
  | .hex _ [] | .bin _ [] | .frac [] [] => True
  | _ => False

/-- A literal that has no digits, or a suffix letter with something else behind it. -/
def Defective (text : List UInt8) : Prop :=
  ∃ n : Numeral, n.Ok ∧ n.text = text ∧ (¬ n.tail.Clean ∨ n.literal.Digitless)

/-! ## Texts without a defect -/

section Forms

variable {n : Numeral} {sign : Option UInt8} {whole : List UInt8}

theorem NonzeroLed.isDigit (h : NonzeroLed whole) : ∀ c ∈ whole, isDigit c = true := by
  obtain ⟨d, ds, rfl, -, hd, hds⟩ := h
  exact List.forall_mem_cons.mpr ⟨hd, hds⟩

theorem WholePart.isDigit (h : WholePart sign whole) : ∀ c ∈ whole, isDigit c = true := by
  rcases h with rfl | hled | ⟨k, rfl, -⟩
  · exact List.forall_mem_nil _
  · exact hled.isDigit
  · intro c hc
    rw [List.eq_of_mem_replicate hc]
    rfl

theorem Literal.hasDigits_of_ok {literal : Literal} (h : literal.Ok sign)
    (hdigits : ¬ literal.Digitless) : literal.HasDigits := by
  cases literal with
  | zero => trivial
  | dec digits =>
      refine ⟨?_, NonzeroLed.isDigit h⟩
      obtain ⟨d, ds, rfl, -⟩ := h
      exact List.cons_ne_nil d ds
  | oct digits => exact h.2
  | hex x digits =>
      refine ⟨h.2.1, ?_, h.2.2⟩
      rintro rfl
      exact hdigits trivial
  | bin b digits =>
      refine ⟨h.2.1, ?_, h.2.2⟩
      rintro rfl
      exact hdigits trivial
  | frac whole digits =>
      refine ⟨h.1.isDigit, h.2, ?_⟩
      by_contra hnone
      obtain ⟨hwhole, hfrac⟩ := not_or.mp hnone
      obtain rfl := not_not.mp hwhole
      obtain rfl := not_not.mp hfrac
      exact hdigits trivial

/-- A text with digits and nothing behind its suffix has the form. -/
theorem Numeral.Ok.form (h : n.Ok) (hclean : n.tail.Clean) (hdigits : ¬ n.literal.Digitless) :
    Form n.text := by
  obtain ⟨white, sign, literal, tail⟩ := n
  have hliteral := Literal.hasDigits_of_ok h.literal hdigits
  cases tail with
  | white w =>
      exact ⟨white, sign, literal, [], w, ⟨h.white, h.sign, hliteral, Or.inl rfl, h.tail.1⟩, rfl⟩
  | suffix letter rest =>
      obtain ⟨bin, w, rfl, hw, hbin⟩ := hclean
      refine ⟨white, sign, literal, letter :: bin, w,
        ⟨h.white, h.sign, hliteral, Or.inr ⟨letter, h.tail, ?_⟩, hw⟩, rfl⟩
      rcases hbin with rfl | ⟨b, hb, rfl⟩
      · exact Or.inl rfl
      · exact Or.inr ⟨b, hb, rfl⟩

end Forms

/-! ## Texts with a defect -/

section Defects

variable {n : Numeral} {w1 w2 unit text : List UInt8} {sign : Option UInt8} {literal : Literal}

/-- What is read before the first character of a kind does not depend on how it was taken
    apart. -/
theorem dropWhile_split {q : UInt8 → Bool} {a r : List UInt8} {c : UInt8}
    (ha : ∀ d ∈ a, q d = true) (hc : q c = false) : (a ++ c :: r).dropWhile q = c :: r := by
  rw [List.dropWhile_append_of_pos ha, List.dropWhile_cons_of_neg (Bool.eq_false_iff.mp hc)]

theorem isPrefix_of_isXDigit {c : UInt8} (hc : isXDigit c = true) : isPrefix c = false := by
  by_contra hpre
  rw [(isDigit_of_isPrefix (Bool.of_not_eq_false hpre)).1] at hc
  cases hc

/-- No suffix letter stands in a literal. -/
theorem Literal.HasDigits.isPrefix (h : literal.HasDigits) :
    ∀ c ∈ literal.text, isPrefix c = false := by
  have hdecimal : ∀ c, isDigit c = true → Parsing.isPrefix c = false :=
    fun c hc => isPrefix_of_isXDigit (isXDigit_of_isDigit hc)
  cases literal with
  | zero => exact List.forall_mem_cons.mpr ⟨rfl, List.forall_mem_nil _⟩
  | dec digits => exact fun c hc => hdecimal c (h.2 c hc)
  | oct digits =>
      exact List.forall_mem_cons.mpr ⟨rfl, fun c hc => hdecimal c (isDigit_of_isODigit (h.2 c hc))⟩
  | hex x digits =>
      refine List.forall_mem_cons.mpr ⟨rfl, List.forall_mem_cons.mpr ⟨?_, ?_⟩⟩
      · rcases h.1 with rfl | rfl <;> rfl
      · exact fun c hc => isPrefix_of_isXDigit (h.2.2 c hc)
  | bin b digits =>
      refine List.forall_mem_cons.mpr ⟨rfl, List.forall_mem_cons.mpr ⟨?_, ?_⟩⟩
      · rcases h.1 with rfl | rfl <;> rfl
      · exact fun c hc => hdecimal c (isDigit_of_isBDigit (h.2.2 c hc))
  | frac whole digits =>
      intro c hc
      rcases List.mem_append.mp hc with hc | hc
      · exact hdecimal c (h.1 c hc)
      · rcases List.mem_cons.mp hc with rfl | hc
        · rfl
        · exact hdecimal c (h.2.1 c hc)

/-- No suffix letter stands before a tail. -/
theorem isPrefix_before_tail (hw1 : AllWhite w1) (hsign : ∀ c ∈ sign, c = ch '-' ∨ c = ch '+')
    (hliteral : literal.HasDigits) :
    ∀ c ∈ w1 ++ (sign.toList ++ literal.text), isPrefix c = false := by
  intro c hc
  rcases List.mem_append.mp hc with hc | hc
  · exact (isDigit_of_isWhite (hw1 c hc)).2.2.1
  · rcases List.mem_append.mp hc with hc | hc
    · rcases hsign c (Option.mem_toList.mp hc) with rfl | rfl <;> rfl
    · exact hliteral.isPrefix c hc

/-- Behind the first suffix letter of a text of the form, there is an `i` or nothing. -/
theorem Form.clean {letter : UInt8} {a rest : List UInt8} (h : Form (a ++ letter :: rest))
    (ha : ∀ c ∈ a, isPrefix c = false) (hletter : isPrefix letter = true) : CleanRest rest := by
  obtain ⟨w1, sign, literal, unit, w2, hform, htext⟩ := h
  have hbefore := isPrefix_before_tail hform.w1 hform.sign hform.literal
  have hnone : ∀ {l : List UInt8}, (∀ c ∈ l, isPrefix c = false) →
      ∀ c ∈ l, (!isPrefix c) = true := fun hl c hc => by rw [hl c hc]; rfl
  have hstop : ∀ {k : UInt8}, isPrefix k = true → (!isPrefix k) = false := fun hk => by rw [hk]; rfl
  have hdrop := dropWhile_split (r := rest) (hnone ha) (hstop hletter)
  rw [← List.append_assoc, ← List.append_assoc, List.append_assoc w1] at htext
  rcases hform.unit with rfl | ⟨k, hk, hunit⟩
  · have hmem : letter ∈ (w1 ++ (sign.toList ++ literal.text)) ++ w2 :=
      htext ▸ List.mem_append_right a List.mem_cons_self
    rcases List.mem_append.mp hmem with hmem | hmem
    · rw [hbefore letter hmem] at hletter
      cases hletter
    · rw [(isDigit_of_isWhite (hform.w2 letter hmem)).2.2.1] at hletter
      cases hletter
  · rw [htext] at hdrop
    rcases hunit with rfl | ⟨b, hb, rfl⟩
    · rw [List.singleton_append, dropWhile_split (hnone hbefore) (hstop hk)] at hdrop
      obtain ⟨-, rfl⟩ := List.cons.inj hdrop
      exact ⟨[], w2, rfl, hform.w2, Or.inl rfl⟩
    · rw [List.cons_append, dropWhile_split (hnone hbefore) (hstop hk)] at hdrop
      obtain ⟨-, rfl⟩ := List.cons.inj hdrop
      exact ⟨[b], w2, rfl, hform.w2, Or.inr ⟨b, hb, rfl⟩⟩

/-- What may stand behind a literal. -/
def StartsTail (l : List UInt8) : Prop := ∀ c ∈ l.head?, isPrefix c = true ∨ isWhite c = true

theorem AllWhite.startsTail (h : AllWhite w1) : StartsTail w1 :=
  fun c hc => Or.inr (h c (List.mem_of_mem_head? hc))

theorem Tail.Ok.startsTail {tail : Tail} (h : tail.Ok literal) : StartsTail tail.text := by
  cases tail with
  | white w => exact AllWhite.startsTail h.1
  | suffix letter rest =>
      intro c hc
      rw [← Option.mem_some.mp hc]
      exact Or.inl h

theorem IsSuffix.startsTail (h : IsSuffix unit) (hw2 : AllWhite w2) : StartsTail (unit ++ w2) := by
  rcases h with rfl | ⟨k, hk, hunit⟩
  · exact hw2.startsTail
  · intro c hc
    rcases hunit with rfl | ⟨b, -, rfl⟩
    · rw [← Option.mem_some.mp hc]
      exact Or.inl hk
    · rw [← Option.mem_some.mp hc]
      exact Or.inl hk

/-- No digit of any base starts a tail, nor does a character that stands in a literal. -/
theorem StartsTail.head {c : UInt8} {l : List UInt8} (h : StartsTail (c :: l)) :
    isXDigit c = false ∧ isDigit c = false ∧ c ≠ ch '.' ∧ c ≠ ch 'x' ∧ c ≠ ch 'X' := by
  rcases h c rfl with hc | hc
  · rcases isPrefix_iff.mp hc with rfl | rfl | rfl | rfl | rfl | rfl <;> decide
  · rcases isWhite_iff.mp hc with rfl | rfl | rfl | rfl <;> decide

/-- A literal starts with a digit or a period. -/
theorem Literal.HasDigits.head (h : literal.HasDigits) :
    ∃ c r, literal.text = c :: r ∧ (isDigit c = true ∨ c = ch '.') := by
  cases literal with
  | zero | oct digits | hex x digits | bin b digits => exact ⟨_, _, rfl, Or.inl rfl⟩
  | dec digits =>
      obtain ⟨d, ds, rfl⟩ := List.exists_cons_of_ne_nil h.1
      exact ⟨d, ds, rfl, Or.inl (h.2 d List.mem_cons_self)⟩
  | frac whole digits =>
      cases whole with
      | nil => exact ⟨_, _, rfl, Or.inr rfl⟩
      | cons d ds => exact ⟨_, _, rfl, Or.inl (h.1 d List.mem_cons_self)⟩

/-- White space or a sign. -/
def isLead (c : UInt8) : Bool := isWhite c || c = ch '-' || c = ch '+'

theorem isLead_before_literal (hw1 : AllWhite w1) (hsign : ∀ c ∈ sign, c = ch '-' ∨ c = ch '+') :
    ∀ c ∈ w1 ++ sign.toList, isLead c = true := by
  intro c hc
  rcases List.mem_append.mp hc with hc | hc
  · simp [isLead, hw1 c hc]
  · rcases hsign c (Option.mem_toList.mp hc) with rfl | rfl <;> rfl

theorem isLead_of_literal {c : UInt8} (hc : isDigit c = true ∨ c = ch '.') : isLead c = false := by
  by_contra hlead
  rw [Bool.not_eq_false, isLead, Bool.or_eq_true, Bool.or_eq_true, decide_eq_true_eq,
    decide_eq_true_eq] at hlead
  rcases hlead with (hwhite | rfl) | rfl
  · obtain ⟨-, hdigit, -, hperiod, -⟩ := isDigit_of_isWhite hwhite
    rcases hc with hc | hc
    · rw [hdigit] at hc
      cases hc
    · exact hperiod hc
  · exact absurd hc (by decide)
  · exact absurd hc (by decide)

/-- White space and a sign are told from what stands behind them. -/
theorem lead_unique {v1 v2 : List UInt8} {sign1 sign2 : Option UInt8} {c d : UInt8}
    {l r : List UInt8} (hv1 : AllWhite v1) (hv2 : AllWhite v2)
    (hsign1 : ∀ c ∈ sign1, c = ch '-' ∨ c = ch '+') (hsign2 : ∀ c ∈ sign2, c = ch '-' ∨ c = ch '+')
    (hc : isDigit c = true ∨ c = ch '.') (hd : isDigit d = true ∨ d = ch '.')
    (h : v1 ++ (sign1.toList ++ c :: l) = v2 ++ (sign2.toList ++ d :: r)) : c :: l = d :: r := by
  have hdrop := congrArg (List.dropWhile isLead) h
  rwa [← List.append_assoc, ← List.append_assoc,
    dropWhile_split (isLead_before_literal hv1 hsign1) (isLead_of_literal hc),
    dropWhile_split (isLead_before_literal hv2 hsign2) (isLead_of_literal hd)] at hdrop

/-- What does not start with a digit has no digits in front. -/
theorem nil_of_cons_eq_append {q : UInt8 → Bool} {c : UInt8} {l digits r : List UInt8}
    (hc : q c = false) (hdigits : ∀ d ∈ digits, q d = true) (h : c :: l = digits ++ r) :
    digits = [] := by
  cases digits with
  | nil => rfl
  | cons d ds =>
      have hd := hdigits d List.mem_cons_self
      rw [← (List.cons.inj h).1, hc] at hd
      cases hd

/-- No literal with digits starts with the mark of a base and a tail behind it. -/
theorem Literal.HasDigits.ne_mark {m : UInt8} {l r : List UInt8} (h : literal.HasDigits)
    (hm : m = ch 'x' ∨ m = ch 'X' ∨ m = ch 'b' ∨ m = ch 'B') (hl : StartsTail l)
    (hr : StartsTail r) : ch '0' :: m :: l ≠ literal.text ++ r := by
  have hdecimal : isDigit m = false ∧ m ≠ ch '.' := by
    rcases hm with rfl | rfl | rfl | rfl <;> decide
  -- a tail behind the zero
  have htail : m :: l ≠ r := by
    rintro rfl
    obtain ⟨hx, -, -, hx1, hx2⟩ := hr.head
    rcases hm with rfl | rfl | rfl | rfl
    · exact hx1 rfl
    · exact hx2 rfl
    · cases hx
    · cases hx
  -- digits behind the mark
  have hbehind : ∀ {digits}, digits ≠ [] → (∀ c ∈ digits, isXDigit c = true) → l ≠ digits ++ r := by
    intro digits hne hdigits heq
    obtain ⟨d, ds, rfl⟩ := List.exists_cons_of_ne_nil hne
    rw [heq] at hl
    have hd := hdigits d List.mem_cons_self
    rw [hl.head.1] at hd
    cases hd
  intro heq
  cases literal with
  | zero => exact htail (List.cons.inj heq).2
  | dec digits =>
      obtain ⟨d, ds, rfl⟩ := List.exists_cons_of_ne_nil h.1
      have hrest : m :: l = ds ++ r := (List.cons.inj heq).2
      obtain rfl := nil_of_cons_eq_append hdecimal.1
        (fun c hc => h.2 c (List.mem_cons_of_mem _ hc)) hrest
      exact htail hrest
  | oct digits =>
      exact h.1 (nil_of_cons_eq_append hdecimal.1 (fun c hc => isDigit_of_isODigit (h.2 c hc))
        (List.cons.inj heq).2)
  | hex x digits => exact hbehind h.2.1 h.2.2 (List.cons.inj (List.cons.inj heq).2).2
  | bin b digits =>
      refine hbehind h.2.1 (fun c hc => ?_) (List.cons.inj (List.cons.inj heq).2).2
      exact isXDigit_of_isDigit (isDigit_of_isBDigit (h.2.2 c hc))
  | frac whole digits =>
      cases whole with
      | nil => exact absurd (List.cons.inj heq).1 (by decide)
      | cons d ds =>
          have hrest : m :: l = ds ++ (ch '.' :: digits ++ r) := by
            rw [← List.append_assoc]
            exact (List.cons.inj heq).2
          obtain rfl := nil_of_cons_eq_append hdecimal.1
            (fun c hc => h.1 c (List.mem_cons_of_mem _ hc)) hrest
          exact hdecimal.2 (List.cons.inj hrest).1

/-- No literal with digits is a period with a tail behind it. -/
theorem Literal.HasDigits.ne_period {l r : List UInt8} (h : literal.HasDigits)
    (hl : StartsTail l) : ch '.' :: l ≠ literal.text ++ r := by
  intro heq
  cases literal with
  | zero | oct digits | hex x digits | bin b digits =>
      exact absurd (List.cons.inj heq).1 (by decide)
  | dec digits => exact h.1 (nil_of_cons_eq_append rfl h.2 heq)
  | frac whole digits =>
      have hwhole : whole = [] := by
        rw [Literal.text, List.append_assoc] at heq
        exact nil_of_cons_eq_append rfl h.1 heq
      subst hwhole
      obtain ⟨d, ds, rfl⟩ := List.exists_cons_of_ne_nil (h.2.2.resolve_left fun hne => hne rfl)
      have hrest : l = d :: (ds ++ r) := (List.cons.inj heq).2
      have hd := h.2.1 d List.mem_cons_self
      rw [hrest] at hl
      rw [hl.head.2.1] at hd
      cases hd

/-- A text whose literal has no digits is not of the form. -/
theorem Numeral.Ok.not_form_of_digitless (h : n.Ok) (hdigits : n.literal.Digitless) :
    ¬ Form n.text := by
  rintro ⟨w1, sign, literal, unit, w2, hform, htext⟩
  obtain ⟨d, r, hd, hhead⟩ := hform.literal.head
  have hunit := hform.unit.startsTail hform.w2
  have htail := h.tail.startsTail
  obtain ⟨white, sign', literal', tail⟩ := n
  have hunique : ∀ {c l}, literal'.text = c :: l → (isDigit c = true ∨ c = ch '.') →
      c :: (l ++ tail.text) = literal.text ++ (unit ++ w2) := by
    intro c l hl hc
    rw [Numeral.text, hl, hd, List.cons_append, List.cons_append] at htext
    rw [hd]
    exact lead_unique h.white hform.w1 h.sign hform.sign hc hhead htext
  cases literal' with
  | zero | dec digits | oct digits => exact hdigits
  | hex x digits =>
      cases digits with
      | cons e es => exact hdigits
      | nil =>
          have hmark : x = ch 'x' ∨ x = ch 'X' ∨ x = ch 'b' ∨ x = ch 'B' :=
            h.literal.2.1.elim Or.inl fun hx => Or.inr (Or.inl hx)
          exact hform.literal.ne_mark hmark htail hunit (hunique rfl (Or.inl rfl))
  | bin b digits =>
      cases digits with
      | cons e es => exact hdigits
      | nil =>
          have hmark : b = ch 'x' ∨ b = ch 'X' ∨ b = ch 'b' ∨ b = ch 'B' :=
            Or.inr (Or.inr h.literal.2.1)
          exact hform.literal.ne_mark hmark htail hunit (hunique rfl (Or.inl rfl))
  | frac whole digits =>
      cases whole with
      | cons e es => exact hdigits
      | nil =>
          cases digits with
          | cons e es => exact hdigits
          | nil => exact hform.literal.ne_period htail (hunique rfl (Or.inr rfl))

/-- A text with a defect is not of the form. -/
theorem not_form_of_defective (h : Defective text) : ¬ Form text := by
  obtain ⟨n, hn, rfl, hdefect⟩ := h
  by_cases hdigits : n.literal.Digitless
  · exact hn.not_form_of_digitless hdigits
  · intro hform
    apply hdefect.resolve_right hdigits
    obtain ⟨white, sign, literal, tail⟩ := n
    cases tail with
    | white w => trivial
    | suffix letter rest =>
        have hbefore := isPrefix_before_tail hn.white hn.sign
          (Literal.hasDigits_of_ok hn.literal hdigits)
        rw [Numeral.text, ← List.append_assoc, ← List.append_assoc, List.append_assoc white]
          at hform
        exact hform.clean hbefore hn.tail

theorem Defective.ne_nil (h : Defective text) : text ≠ [] := by
  obtain ⟨⟨white, sign, literal, tail⟩, hn, rfl, hdefect⟩ := h
  intro hnil
  obtain ⟨-, hnil⟩ := List.append_eq_nil_iff.mp hnil
  obtain ⟨-, hnil⟩ := List.append_eq_nil_iff.mp hnil
  obtain ⟨hliteral, htail⟩ := List.append_eq_nil_iff.mp hnil
  rcases hdefect with hclean | hdigits
  · cases tail with
    | white w => exact hclean trivial
    | suffix letter rest => exact List.cons_ne_nil _ _ htail
  · cases literal with
    | zero | dec digits | oct digits => exact hdigits
    | hex x digits | bin b digits => exact List.cons_ne_nil _ _ hliteral
    | frac whole digits =>
        exact List.append_ne_nil_of_right_ne_nil _ (List.cons_ne_nil _ _) hliteral

end Defects

/-- Accepted texts are of the form, exactly if they have no defect: those with a defect are
    accepted all the same. -/
theorem accepts_form_iff (s : CStr) (i : Nat) :
    ((∃ r, parseNumber s i = some r ∧ r ≠ .noType) → Form (s.bytes.drop i)) ↔
      ¬ Defective (s.bytes.drop i) := by
  constructor
  · intro haccepts hdefect
    refine not_form_of_defective hdefect (haccepts ?_)
    have hi := le_length_of_drop rfl hdefect.ne_nil
    obtain ⟨n, hn, htext, -⟩ := hdefect
    exact ⟨n.result, parseNumber_of_ok hi hn htext, n.result_ne_noType⟩
  · rintro hdefect ⟨r, hr, hne⟩
    obtain ⟨n, hn, htext, -⟩ := parseNumber_accepted hr hne
    rw [← htext] at hdefect ⊢
    apply hn.form
    · by_contra hclean
      exact hdefect ⟨n, hn, rfl, Or.inl hclean⟩
    · exact fun hdigits => hdefect ⟨n, hn, rfl, Or.inr hdigits⟩

/-- `1kx` -/
theorem accepts_form_fails :
    ¬ ∀ (s : CStr) (r : NumResult), parseNumber s 0 = some r → r ≠ .noType → Form s.bytes := by
  intro hall
  have hform := hall ⟨[49, 107, 120], by decide⟩ (.uint64 1000) rfl (fun h => by cases h)
  obtain ⟨bin, w, hsplit, hw, hbin⟩ := @Form.clean 107 [49] [120] hform (by simp [isPrefix]) rfl
  rcases hbin with rfl | ⟨b, hb, rfl⟩
  · obtain rfl : [120] = w := hsplit
    exact absurd (hw 120 List.mem_cons_self) (by decide)
  · obtain rfl : 120 = b := (List.cons.inj hsplit).1
    cases hb

end Camio.Parsing
