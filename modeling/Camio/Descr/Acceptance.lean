/-
  Camio.Descr.Acceptance

  The descriptions that `camio_descr_parse` accepts, as a condition on their last segment.

  An option name may hold commas and an option value equals signs, so a comma does not
  always start an option.  The last one does all the same: it either starts one, or stands
  in the name of one.  Nothing here depends on what the output struct held before.
-/

import Mathlib.Data.List.DropRight
import Camio.Descr.Grammar

namespace Camio.Descr

open Camio.Lib

/-- The text behind the last `','`. -/
def lastSegment (l : List UInt8) : List UInt8 := l.rtakeWhile (· != comma)

/-- An option list that is complete. -/
def CompleteOpts (l : List UInt8) : Prop := l = [] ∨ equals ∈ lastSegment l

/-- The parser succeeds where `ok` holds, and reports an incomplete option elsewhere. -/
def Decides {α : Type} (result : Except ParseFault α) (ok : Prop) : Prop :=
  (ok ∧ ∃ a, result = .ok a) ∨
    (¬ ok ∧ ∃ text, result = .error (.exit ⟨.incompleteOpt, text⟩))

/-! ## The last segment -/

section LastSegment

variable {a v r : List UInt8}

theorem lastSegment_append_comma : lastSegment (a ++ comma :: v) = lastSegment v := by
  induction v using List.reverseRecOn with
  | nil => exact List.rtakeWhile_concat_neg _ _ _ (by simp)
  | append_singleton v c ih =>
      have hshift : a ++ comma :: (v ++ [c]) = (a ++ comma :: v) ++ [c] := by
        rw [List.append_assoc, List.cons_append]
      rw [lastSegment] at ih
      rw [hshift, lastSegment, lastSegment, List.rtakeWhile_concat, List.rtakeWhile_concat, ih,
        lastSegment]

/-- What holds no `','` is part of the last segment. -/
theorem mem_lastSegment_append {c : UInt8} (hcomma : comma ∉ v) (hc : c ∈ v) :
    c ∈ lastSegment (a ++ v) := by
  have hplain : ∀ b ∈ v.reverse, (b != comma) = true := by
    intro b hb
    rw [bne_iff_ne]
    rintro rfl
    exact hcomma (List.mem_reverse.mp hb)
  rw [lastSegment, List.rtakeWhile, List.reverse_append, List.takeWhile_append_of_pos hplain,
    List.reverse_append, List.reverse_reverse]
  exact List.mem_append_right _ hc

/-- Without an `'='` the option is not complete. -/
theorem not_completeOpts (h : equals ∉ r) : ¬ CompleteOpts (comma :: r) := by
  rintro (hnil | hmem)
  · cases hnil
  · rcases List.mem_cons.mp ((List.rtakeWhile_suffix _ _).subset hmem) with heq | hmem
    · exact absurd heq (by decide)
    · exact h hmem

/-- Behind the value of an option the rest decides. -/
theorem completeOpts_option (h0 : 0 ∉ v) :
    CompleteOpts (comma :: (a ++ equals :: v))
      ↔ CompleteOpts (v.dropWhile fun c => !stopComma c) := by
  have hsplit : v = v.takeWhile (fun c => !stopComma c) ++ v.dropWhile fun c => !stopComma c :=
    List.takeWhile_append_dropWhile.symm
  have hhead := dropWhile_stopComma_head h0
  cases hrest : v.dropWhile fun c => !stopComma c with
  | nil =>
      -- this option is the last one
      have hcomma : comma ∉ equals :: v := by
        rw [hrest, List.append_nil] at hsplit
        intro hmem
        rcases List.mem_cons.mp hmem with heq | hmem
        · exact absurd heq (by decide)
        · rw [hsplit] at hmem
          exact absurd (List.mem_takeWhile_imp hmem) (by decide)
      exact iff_of_true (Or.inr (mem_lastSegment_append (a := comma :: a) hcomma
        List.mem_cons_self)) (Or.inl rfl)
  | cons c w =>
      -- the last ',' is in the rest
      rw [hrest] at hsplit hhead
      obtain rfl : c = comma := hhead c rfl
      have hshift : comma :: (a ++ equals :: v)
          = (comma :: (a ++ equals :: v.takeWhile fun c => !stopComma c)) ++ comma :: w := by
        rw [List.cons_append, List.append_assoc, List.cons_append, ← hsplit]
      have hlast := @lastSegment_append_comma [] w
      rw [List.nil_append] at hlast
      rw [CompleteOpts, CompleteOpts, hshift, lastSegment_append_comma, hlast]
      exact or_congr (iff_of_false (List.append_ne_nil_of_right_ne_nil _ (List.cons_ne_nil _ _))
        (List.cons_ne_nil _ _)) Iff.rfl

/-- In front of the options there is no `','`. -/
theorem completeOpts_rest (ha : comma ∉ a) (hr : ∀ c ∈ r.head?, c = comma) :
    CompleteOpts r ↔ comma ∉ a ++ r ∨ equals ∈ lastSegment (a ++ r) := by
  cases r with
  | nil =>
      rw [List.append_nil]
      exact iff_of_true (Or.inl rfl) (Or.inl ha)
  | cons c w =>
      obtain rfl : c = comma := hr c rfl
      have hmem : comma ∈ a ++ comma :: w := List.mem_append_right _ List.mem_cons_self
      have hlast := @lastSegment_append_comma [] w
      rw [List.nil_append] at hlast
      rw [CompleteOpts, lastSegment_append_comma, hlast]
      exact or_congr (iff_of_false (List.cons_ne_nil _ _) (not_not_intro hmem)) Iff.rfl

end LastSegment

/-! ## The parser -/

section Parser

variable {s : CStr} {fuel head : Nat} {d : CamioDescr} {prev : Option Nat}

theorem Decides.of_iff {α : Type} {result : Except ParseFault α} {ok ok' : Prop}
    (h : Decides result ok) (hiff : ok ↔ ok') : Decides result ok' := by
  rwa [← propext hiff]

/-- From each `','` on, the loop succeeds if the list it stands before is complete. -/
theorem parseOptions_decides (hhead : head ≤ s.length) (hfuel : s.length < fuel + head)
    (hcomma : ∀ c ∈ (s.bytes.drop head).head?, c = comma) :
    Decides (parseOptions s fuel head d prev) (CompleteOpts (s.bytes.drop head)) := by
  induction fuel generalizing head d prev with
  | zero => omega
  | succ fuel ih =>
      cases hrest : s.bytes.drop head with
      | nil =>
          have hend := (CStr.charAt_eq_zero_iff_drop hhead).mpr hrest
          rw [parseOptions, hend]
          exact Or.inl ⟨Or.inl rfl, _, rfl⟩
      | cons c r =>
          rw [hrest] at hcomma
          obtain rfl : c = comma := hcomma c rfl
          obtain ⟨hlt, hr⟩ := CStr.of_drop_eq_cons hrest
          have hc : s.charAt head = some comma := CStr.charAt_of_drop_eq_cons hrest
          have hr0 : 0 ∉ r := fun h0 => s.noNul (List.mem_of_mem_drop (hr ▸ h0))
          -- the name, up to the '='
          obtain ⟨eq, hscan, hle, heq, -, hafter⟩ := CStr.scan_spec stopEquals rfl hlt hr
          simp only [parseOptions, hc, if_neg (by decide : comma ≠ 0), hscan,
            CStr.charAt_eq_zero_iff_drop heq, hafter]
          have hsplit : r = r.takeWhile (fun c => !stopEquals c)
              ++ r.dropWhile fun c => !stopEquals c := List.takeWhile_append_dropWhile.symm
          cases hd : r.dropWhile fun c => !stopEquals c with
          | nil =>
              -- the terminator comes first: the option is incomplete
              have hnone : equals ∉ r := fun hmem => by
                rw [hsplit, hd, List.append_nil] at hmem
                exact absurd (List.mem_takeWhile_imp hmem) (by decide)
              rw [if_pos rfl]
              exact Or.inr ⟨not_completeOpts hnone, _, rfl⟩
          | cons e v =>
              have he0 : e ≠ 0 := fun h0 => hr0 (by
                rw [hsplit, hd, h0]
                exact List.mem_append_right _ List.mem_cons_self)
              obtain rfl : e = equals := by
                simpa [stopEquals, he0] using dropWhile_head_false hd
              rw [hd] at hafter hsplit
              obtain ⟨heqlt, hv⟩ := CStr.of_drop_eq_cons hafter
              have hv0 : 0 ∉ v := fun h0 => hr0 (by
                rw [hsplit]
                exact List.mem_append_right _ (List.mem_cons_of_mem _ h0))
              -- the value, up to the ',' or the terminator
              obtain ⟨stop, hscan', hle', hstop, -, hafter'⟩ :=
                CStr.scan_spec stopComma rfl heqlt hv
              rw [if_neg (List.cons_ne_nil _ _), hscan', hsplit]
              refine Decides.of_iff ?_ (completeOpts_option hv0).symm
              simp only [CStr.charAt_eq_zero_iff_drop hstop, ← hafter']
              -- the loop ends here, or goes on from the next ','
              by_cases hend : s.bytes.drop stop = []
              · rw [if_pos hend]
                exact Or.inl ⟨Or.inl hend, _, rfl⟩
              · rw [if_neg hend]
                refine ih hstop (by omega) ?_
                rw [hafter']
                exact dropWhile_stopComma_head hv0

theorem parseOptionList_decides (hhead : head ≤ s.length)
    (hcomma : ∀ c ∈ (s.bytes.drop head).head?, c = comma) :
    Decides (parseOptionList s head d) (CompleteOpts (s.bytes.drop head)) := by
  have hloop := @parseOptions_decides s (s.length + 1) head d none hhead (by omega) hcomma
  rw [parseOptionList]
  rcases hloop with ⟨hok, ⟨d', prev⟩, hresult⟩ | ⟨hok, text, hresult⟩
  · rw [hresult]
    exact Or.inl ⟨hok, _, rfl⟩
  · rw [hresult]
    exact Or.inr ⟨hok, text, rfl⟩

theorem camioDescrParse_decides (s : CStr) (d : CamioDescr) :
    Decides (camioDescrParse s (some d))
      (s.bytes ≠ [] ∧ (comma ∉ s.bytes ∨ equals ∈ lastSegment s.bytes)) := by
  by_cases hnil : s.bytes = []
  · have h0 := (CStr.charAt_eq_zero_iff_drop (Nat.zero_le s.length)).mpr
      (by rw [hnil]; rfl : s.bytes.drop 0 = [])
    rw [camioDescrParse, if_pos h0]
    exact Or.inr ⟨fun h => h.1 hnil, _, rfl⟩
  · have h0 : s.charAt 0 ≠ some 0 := fun h0 =>
      hnil ((CStr.charAt_eq_zero_iff_drop (Nat.zero_le s.length)).mp h0)
    -- the protocol
    obtain ⟨head, hscan, -, hhead, -, hafter⟩ :=
      CStr.scan_spec (s := s) stopProtocol rfl (Nat.zero_le _) List.drop_zero
    have hprotocol : comma ∉ s.bytes.takeWhile fun c => !stopProtocol c := fun hmem =>
      absurd (List.mem_takeWhile_imp hmem) (by decide)
    have hsplit : s.bytes = s.bytes.takeWhile (fun c => !stopProtocol c)
        ++ s.bytes.dropWhile fun c => !stopProtocol c := List.takeWhile_append_dropWhile.symm
    simp only [camioDescrParse, if_neg h0, hscan, CStr.charAt_eq_zero_iff_drop hhead, hafter]
    cases hd : s.bytes.dropWhile fun c => !stopProtocol c with
    | nil =>
        rw [hd, List.append_nil] at hsplit
        rw [if_pos rfl]
        exact Or.inl ⟨⟨hnil, Or.inl (hsplit ▸ hprotocol)⟩, _, rfl⟩
    | cons c r =>
        rw [hd] at hafter hsplit
        have hc : s.charAt head = some c := CStr.charAt_of_drop_eq_cons hafter
        obtain ⟨hlt, hr⟩ := CStr.of_drop_eq_cons hafter
        have hr0 : 0 ∉ r := fun h0 => s.noNul (List.mem_of_mem_drop (hr ▸ h0))
        rw [if_neg (List.cons_ne_nil c r), hc]
        simp only [Option.some.injEq]
        by_cases hcomma : c = comma
        · -- `goto parse_options`: there is no query
          have hopts := @parseOptionList_decides s head
            { d with protocol := some (s.slice 0 head) } hhead (by
              rw [hafter]
              exact fun b hb => (Option.some.inj hb).symm.trans hcomma)
          rw [hafter] at hopts
          rw [if_pos hcomma]
          refine hopts.of_iff ((completeOpts_rest hprotocol ?_).trans ?_)
          · exact fun b hb => (Option.some.inj hb).symm.trans hcomma
          · rw [← hsplit]
            exact (and_iff_right hnil).symm
        · -- a ':': the query comes before the options
          obtain ⟨stop, hscan', -, hstop, -, hafter'⟩ := CStr.scan_spec stopComma rfl hlt hr
          have hopts := @parseOptionList_decides s stop
            { d with
              protocol := some (s.slice 0 head)
              query := some (s.slice (head + 1) stop) } hstop (by
              rw [hafter']
              exact dropWhile_stopComma_head hr0)
          have hquery : comma ∉ s.bytes.takeWhile (fun c => !stopProtocol c)
              ++ c :: r.takeWhile fun c => !stopComma c := by
            rw [List.mem_append, List.mem_cons, not_or, not_or]
            exact ⟨hprotocol, Ne.symm hcomma, fun hmem =>
              absurd (List.mem_takeWhile_imp hmem) (by decide)⟩
          rw [hafter'] at hopts
          rw [if_neg hcomma, hscan']
          refine hopts.of_iff ((completeOpts_rest hquery (dropWhile_stopComma_head hr0)).trans ?_)
          rw [List.append_assoc, List.cons_append, List.takeWhile_append_dropWhile, ← hsplit]
          exact (and_iff_right hnil).symm

end Parser

/-- **Exact acceptance.**  A description is accepted if it is not empty and either holds no
    `','` or has an `'='` behind the last one; any other is an incomplete option.  No
    character behind the terminator is read. -/
theorem camioDescrParse_acceptance (s : CStr) (d : CamioDescr) :
    ((∃ d', camioDescrParse s (some d) = .ok d') ↔
      s.bytes ≠ [] ∧ (comma ∉ s.bytes ∨ equals ∈ lastSegment s.bytes)) ∧
    ((¬ ∃ d', camioDescrParse s (some d) = .ok d') →
      ∃ text, camioDescrParse s (some d) = .error (.exit ⟨.incompleteOpt, text⟩)) ∧
    camioDescrParse s (some d) ≠ .error .outOfBounds := by
  rcases camioDescrParse_decides s d with ⟨hok, d', hresult⟩ | ⟨hok, text, hresult⟩
  · rw [hresult]
    refine ⟨iff_of_true ⟨d', rfl⟩ hok, fun hnone => absurd ⟨d', rfl⟩ hnone, ?_⟩
    intro h
    cases h
  · have hnone : ¬ ∃ d', camioDescrParse s (some d) = .ok d' := by
      rw [hresult]
      rintro ⟨d', h⟩
      cases h
    refine ⟨iff_of_false hnone hok, fun _ => ⟨text, hresult⟩, ?_⟩
    rw [hresult]
    intro h
    cases h

end Camio.Descr
