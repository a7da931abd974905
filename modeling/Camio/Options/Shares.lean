/-
  Camio.Options.Shares

  What a command line does to one of the options.

  The loop over the calls of `getopt_long` takes each to one option and leaves the others as
  they are, since no two have the same character.  So an option ends as it does if only its
  own calls are made, and then its own parameters are processed.
-/

import Mathlib.Data.List.Forall2
import Mathlib.Data.Fintype.Card
import Camio.Options.Parse

namespace Camio.Options

open Camio.Lib Camio.Parsing Camio.Types

variable {F : Type}

/-- The call is one for the option at index `k`, with character `c`. -/
def isOf (k : Nat) (c : UInt8) : Found → Bool
  | .short c' _ => c' = c
  | .long index _ => index = k
  | .unknown => false

/-- What a call does to its option.  The long form of a flag stores `neg`, what the flag was
    not when the table was made. -/
def act [Double F] (A : BlockAllocator (Value F)) (neg : Int) (d : OptDef F) (found : Found) :
    Except Stop (OptDef F) :=
  match found, d.mode with
  | .long _ _, .flag => .ok (d.setFlag neg)
  | found, _ => processFound A d (optarg found)

def actAll [Double F] (A : BlockAllocator (Value F)) (neg : Int) :
    List Found → OptDef F → Except Stop (OptDef F)
  | [], d => .ok d
  | found :: calls, d => (act A neg d found).bind (actAll A neg calls)

/-- The parameters that are left for the option. -/
def operandsOf (mode : Mode) (args : List CStr) : List CStr :=
  if mode = .unlimited then args else []

/-- What never changes of an option. -/
def Same (d d' : OptDef F) : Prop := d'.mode = d.mode ∧ d'.shortStr = d.shortStr

/-- The option that a `Stop` is about. -/
def Stop.option : Stop → Option UInt8
  | .usage error => error.bind (·.option)
  | .exit _ => none
  | .wild option => some option

section OneOption

variable {A : BlockAllocator (Value F)} {d d' : OptDef F} {v : Value F} {arg : Option CStr}
  {found : Found} {e : Stop} {neg : Int} {args : List CStr}

theorem storeArgument_error (h : storeArgument A d v = .error e) :
    e.option = some d.shortStr.byte ∨ e.option = none := by
  unfold storeArgument at h
  split at h
  next => cases h
  next elem list heap hvar =>
    rw [map_eq_error_iff] at h
    generalize camioListAdd A elem.listName _ v = r at h
    rcases r with (e' | _) | s
    · cases h
      exact Or.inr rfl
    · cases h
      exact Or.inl rfl
    · cases h

theorem storeArgument_same (h : storeArgument A d v = .ok d') : Same d d' := by
  unfold storeArgument at h
  split at h
  next =>
    cases h
    exact ⟨rfl, rfl⟩
  next =>
    obtain ⟨s, -, rfl⟩ := map_eq_ok_iff.mp h
    exact ⟨rfl, rfl⟩

/-- An error that reading an argument ends with. -/
def IsReadError (d : OptDef F) (e : Stop) : Prop :=
  e = .wild d.shortStr.byte ∨ ∃ format, format ≠ onlyOneInstance ∧ e = d.usage format

theorem IsReadError.option (h : IsReadError d e) : e.option = some d.shortStr.byte := by
  rcases h with rfl | ⟨format, -, rfl⟩
  · rfl
  · rfl

/-- Whatever fails here fails so. -/
def ReadErrors (d : OptDef F) (x : Except Stop (Value F)) : Prop :=
  ∀ e, x = .error e → IsReadError d e

theorem readErrors_usage (d : OptDef F) {format : String} (h : format ≠ onlyOneInstance) :
    ReadErrors d (.error (d.usage format)) := by
  rintro e ⟨⟩
  exact Or.inr ⟨format, h, rfl⟩

theorem readErrors_ok (d : OptDef F) (v : Value F) : ReadErrors d (.ok v) := by
  rintro e ⟨⟩

theorem readErrors_readResult {noArgument : String} {parse : CStr → Option (NumResult F)}
    {convert : NumResult F → Except Stop (Value F)} (hne : noArgument ≠ onlyOneInstance)
    (h : ∀ r, ReadErrors d (convert r)) :
    ReadErrors d (readResult d arg noArgument parse convert) := by
  unfold readResult
  cases arg with
  | none => exact readErrors_usage d hne
  | some arg =>
      dsimp only
      cases parse arg with
      | none =>
          rintro e ⟨⟩
          exact Or.inl rfl
      | some r => exact h r

variable [Double F]

theorem readErrors_doubleOf (d : OptDef F) (r : NumResult F) : ReadErrors d (doubleOf d r) := by
  cases r with
  | noType | int64 z => exact readErrors_usage d (by decide)
  | double q => exact readErrors_ok d _
  | uint64 v =>
      unfold doubleOf
      cases d.var with
      | one w => exact readErrors_ok d _
      | many elem s => exact readErrors_ok d _

theorem readArgument_error (h : readArgument d arg = .error e) : IsReadError d e := by
  suffices herrors : ReadErrors d (readArgument d arg) from herrors e h
  unfold readArgument
  cases d.var.elem with
  | double => exact readErrors_readResult (by decide) (readErrors_doubleOf d)
  | int64 =>
      refine readErrors_readResult (by decide) fun r => ?_
      cases r with
      | noType | double q => exact readErrors_usage d (by decide)
      | uint64 v | int64 z => exact readErrors_ok d _
  | uint64 =>
      refine readErrors_readResult (by decide) fun r => ?_
      cases r with
      | noType | double q | int64 z => exact readErrors_usage d (by decide)
      | uint64 v => exact readErrors_ok d _
  | bool =>
      refine readErrors_readResult (by decide) fun r => ?_
      cases r with
      | noType | double q | uint64 v => exact readErrors_usage d (by decide)
      | int64 z => exact readErrors_ok d _
  | string =>
      cases arg with
      | none => exact readErrors_usage d (by decide)
      | some arg => exact readErrors_ok d _

theorem parseArgument_error (h : parseArgument A d arg = .error e) :
    e.option = some d.shortStr.byte ∨ e.option = none := by
  rcases bind_eq_error_iff.mp h with h | ⟨v, -, h⟩
  · exact Or.inl (readArgument_error h).option
  · exact storeArgument_error h

theorem parseArgument_same (h : parseArgument A d arg = .ok d') : Same d d' := by
  obtain ⟨v, -, h⟩ := bind_eq_ok_iff.mp h
  exact storeArgument_same h

theorem processFound_error (h : processFound A d arg = .error e) :
    e.option = some d.shortStr.byte ∨ e.option = none := by
  unfold processFound at h
  dsimp only at h
  split at h
  next =>
    cases h
    exact Or.inl rfl
  next =>
    split at h
    next => cases h
    next => exact parseArgument_error (d := { d with found := d.found + 1 }) h

theorem processFound_same (h : processFound A d arg = .ok d') : Same d d' := by
  unfold processFound at h
  dsimp only at h
  split at h
  next => cases h
  next =>
    split at h
    next =>
      cases h
      exact ⟨rfl, rfl⟩
    next => exact parseArgument_same (d := { d with found := d.found + 1 }) h

theorem act_flag (h : d.mode = .flag) (k : Nat) :
    act A neg d (.long k arg) = .ok (d.setFlag neg) := by
  unfold act
  rw [h]

theorem act_noFlag (h : d.mode ≠ .flag) :
    act A neg d found = processFound A d (optarg found) := by
  unfold act
  split
  next _ _ hd => exact absurd hd h
  next => rfl

theorem act_error (h : act A neg d found = .error e) :
    e.option = some d.shortStr.byte ∨ e.option = none := by
  unfold act at h
  split at h
  next => cases h
  next => exact processFound_error h

theorem act_same (h : act A neg d found = .ok d') : Same d d' := by
  unfold act at h
  split at h
  next =>
    cases h
    exact ⟨rfl, rfl⟩
  next => exact processFound_same h

end OneOption

/-! ## One call -/

/-- The long options of the table, by their indices. -/
def longEntry (k : Nat) (d : OptDef F) : LongOption :=
  if d.mode = .flag then ⟨d.longStr, false, some k, d.var.cNot⟩
  else ⟨d.longStr, true, none, d.shortStr.byte.toNat⟩

section Calls

variable {A : BlockAllocator (Value F)} {ds ds' ds₀ : List (OptDef F)} {d d' d₀ : OptDef F}
  {arg : Option CStr} {found : Found} {e : Stop} {k i used : Nat} {c : UInt8}
  {shortOpts : List UInt8} {longOpts : List LongOption}

theorem longEntry_cons {rest : List LongOption}
    (h : ∀ k, rest[k]? = ds[k]?.map (longEntry (i + 1 + k))) (k : Nat) :
    (longEntry i d :: rest)[k]? = (d :: ds)[k]?.map (longEntry (i + k)) := by
  cases k with
  | zero => rfl
  | succ k =>
      have hk := h k
      rw [Nat.add_right_comm] at hk
      exact hk

/-- All options are in the table. -/
theorem generateUnixOpts_eq (hroom : used + 2 * ds.length ≤ 1023)
    (h : generateUnixOpts ds i used = .ok (shortOpts, longOpts)) (k : Nat) :
    longOpts[k]? = ds[k]?.map (longEntry (i + k)) := by
  induction ds generalizing i used k shortOpts longOpts with
  | nil =>
      cases h
      rfl
  | cons d ds ih =>
      rw [List.length_cons] at hroom
      rw [generateUnixOpts, if_neg (by omega)] at h
      by_cases hflag : d.mode = .flag
      · have hentry : longEntry i d = ⟨d.longStr, false, some i, d.var.cNot⟩ := if_pos hflag
        rw [if_pos hflag, ← hentry] at h
        obtain ⟨⟨shortRest, longRest⟩, hrest, heq⟩ := map_eq_ok_iff.mp h
        rw [← (Prod.mk.inj heq).2]
        exact longEntry_cons (ih (by omega) hrest) k
      · have hentry : longEntry i d = ⟨d.longStr, true, none, d.shortStr.byte.toNat⟩ :=
          if_neg hflag
        rw [if_neg hflag, if_neg (by omega), ← hentry] at h
        obtain ⟨⟨shortRest, longRest⟩, hrest, heq⟩ := map_eq_ok_iff.mp h
        rw [← (Prod.mk.inj heq).2]
        exact longEntry_cons (ih (by omega) hrest) k

/-- The characters of the options. -/
def chars (ds : List (OptDef F)) : List UInt8 := ds.map (·.shortStr.byte)

theorem Same.refl (d : OptDef F) : Same d d := ⟨rfl, rfl⟩

theorem same_trans {ds'' : List (OptDef F)} (h : List.Forall₂ Same ds ds')
    (h' : List.Forall₂ Same ds' ds'') : List.Forall₂ Same ds ds'' := by
  induction h generalizing ds'' with
  | nil =>
      cases h'
      exact .nil
  | cons hd _ ih =>
      cases h' with
      | cons hd' hrest => exact .cons ⟨hd'.1.trans hd.1, hd'.2.trans hd.2⟩ (ih hrest)

theorem chars_eq (h : List.Forall₂ Same ds ds') : chars ds' = chars ds := by
  induction h with
  | nil => rfl
  | cons hd _ ih => exact congrArg₂ List.cons (congrArg (·.byte) hd.2) ih

theorem modes_eq (h : List.Forall₂ Same ds ds') :
    ds'.map (·.mode) = ds.map (·.mode) := by
  induction h with
  | nil => rfl
  | cons hd _ ih => exact congrArg₂ List.cons hd.1 ih

theorem getElem?_of_forall₂ {α β : Type} {R : α → β → Prop} {as : List α} {bs : List β} {a : α}
    (h : List.Forall₂ R as bs) (hk : as[k]? = some a) : ∃ b, bs[k]? = some b ∧ R a b := by
  induction h generalizing k with
  | nil => cases hk
  | cons hab _ ih =>
      cases k with
      | zero =>
          cases hk
          exact ⟨_, rfl, hab⟩
      | succ k => exact ih hk

theorem getElem?_same (h : List.Forall₂ Same ds ds') (hk : ds[k]? = some d) :
    ∃ d', ds'[k]? = some d' ∧ Same d d' := getElem?_of_forall₂ h hk

theorem getElem?_same_left (h : List.Forall₂ Same ds ds') (hk : ds'[k]? = some d') :
    ∃ d, ds[k]? = some d ∧ Same d d' := getElem?_of_forall₂ h.flip hk

/-- Different options have different characters. -/
theorem eq_of_char (hnodup : (chars ds).Nodup) (hk : ds[k]? = some d) (hi : ds[i]? = some d')
    (hc : d.shortStr.byte = d'.shortStr.byte) : k = i := by
  have hk' : (chars ds)[k]? = some d.shortStr.byte := by
    rw [chars, List.getElem?_map, hk]
    rfl
  have hi' : (chars ds)[i]? = some d.shortStr.byte := by
    rw [chars, List.getElem?_map, hi, hc]
    rfl
  have hlt : k < (chars ds).length := (List.getElem?_eq_some_iff.mp hk').1
  exact (List.getElem?_inj hlt hnodup).mp (hk'.trans hi'.symm)

/-- The characters of options are none of those that `getopt_long` returns otherwise. -/
theorem char_ne_zero (d : OptDef F) : d.shortStr.byte ≠ 0 := by
  intro h
  have hvisible := d.shortStr.visible.1
  rw [h] at hvisible
  exact absurd hvisible (by decide)

theorem toChar_byte (b : UInt8) : toChar b.toNat = b := by
  have hlt := b.toNat_lt
  have hmod : ((b.toNat : Int) % 2 ^ 8).toNat = b.toNat := by omega
  rw [toChar, UInt8.ofInt, hmod, UInt8.ofNat_toNat]

/-- The option of an index of the table, and what `getopt_long` makes of its long form. -/
theorem returned_long (htable : ∀ k, longOpts[k]? = ds₀[k]?.map (longEntry k))
    (hi : ds₀[i]? = some d₀) (arg : Option CStr) (ds : List (OptDef F)) :
    returned longOpts ds (.long i arg) =
      if d₀.mode = .flag then
        (0, ds.modify i (·.setFlag d₀.var.cNot))
      else (d₀.shortStr.byte, ds) := by
  rw [returned, htable, hi, Option.map_some, longEntry]
  by_cases hflag : d₀.mode = .flag
  · rw [if_pos hflag, if_pos hflag]
  · rw [if_neg hflag, if_neg hflag]
    dsimp only
    rw [toChar_byte]

theorem returned_none (htable : ∀ k, longOpts[k]? = ds₀[k]?.map (longEntry k))
    (hi : ds₀[i]? = none) (arg : Option CStr) (ds : List (OptDef F)) :
    returned longOpts ds (.long i arg) = (ch '?', ds) := by
  rw [returned, htable, hi]
  rfl

theorem forall₂_setFlag (v : Int) (ds : List (OptDef F)) (i : Nat) :
    List.Forall₂ Same ds (ds.modify i (·.setFlag v)) := by
  induction ds generalizing i with
  | nil =>
      rw [List.modify_nil]
      exact .nil
  | cons d ds ih =>
      cases i with
      | zero =>
          rw [List.modify_zero_cons]
          exact .cons ⟨rfl, rfl⟩ (List.forall₂_same.mpr fun d _ => Same.refl d)
      | succ i =>
          rw [List.modify_succ_cons]
          exact .cons (Same.refl d) (ih i)

theorem returned_same (longOpts : List LongOption) (ds : List (OptDef F)) (found : Found) :
    List.Forall₂ Same ds (returned longOpts ds found).2 := by
  have hrefl : List.Forall₂ Same ds ds := List.forall₂_same.mpr fun d _ => Same.refl d
  unfold returned
  split
  next => exact hrefl
  next => exact hrefl
  next =>
    split
    next => exact hrefl
    next o _ =>
      split
      next => exact hrefl
      next i _ => exact forall₂_setFlag o.val ds i

variable [Double F]

theorem processOption_same (h : processOption A c arg ds = .ok ds') :
    List.Forall₂ Same ds ds' := by
  induction ds generalizing ds' with
  | nil =>
      cases h
      exact .nil
  | cons d ds ih =>
      rw [processOption] at h
      split at h
      next =>
        obtain ⟨d', hd', rfl⟩ := map_eq_ok_iff.mp h
        exact .cons (processFound_same hd') (List.forall₂_same.mpr fun d _ => Same.refl d)
      next =>
        obtain ⟨rest, hrest, rfl⟩ := map_eq_ok_iff.mp h
        exact .cons (Same.refl d) (ih hrest)

/-- Only the option of the character is processed. -/
theorem processOption_ok (hnodup : (chars ds).Nodup) (h : processOption A c arg ds = .ok ds')
    (hk : ds[k]? = some d) :
    ∃ d', ds'[k]? = some d' ∧
      (d.shortStr.byte = c → processFound A d arg = .ok d') ∧ (d.shortStr.byte ≠ c → d' = d) := by
  induction ds generalizing ds' k with
  | nil => cases hk
  | cons d₁ ds ih =>
      obtain ⟨hfresh, hrestNodup⟩ := List.nodup_cons.mp hnodup
      rw [processOption] at h
      split at h
      next hc =>
        obtain ⟨d', hd', rfl⟩ := map_eq_ok_iff.mp h
        cases k with
        | zero =>
            cases hk
            exact ⟨d', rfl, fun _ => hd', fun hne => absurd hc hne⟩
        | succ k =>
            have hmem : d ∈ ds := List.mem_of_getElem? hk
            refine ⟨d, hk, fun hd => absurd ?_ hfresh, fun _ => rfl⟩
            have hchar := List.mem_map_of_mem (f := fun d : OptDef F => d.shortStr.byte) hmem
            rwa [hd, ← hc] at hchar
      next hc =>
        obtain ⟨rest, hrest, rfl⟩ := map_eq_ok_iff.mp h
        cases k with
        | zero =>
            cases hk
            exact ⟨d, rfl, fun hd => absurd hd hc, fun _ => rfl⟩
        | succ k =>
            have htail := ih hrestNodup hrest hk
            exact htail

theorem processOption_error (h : processOption A c arg ds = .error e) :
    ∃ (k : Nat) (d : OptDef F), ds[k]? = some d ∧ d.shortStr.byte = c ∧
      processFound A d arg = .error e := by
  induction ds with
  | nil => cases h
  | cons d ds ih =>
      rw [processOption] at h
      split at h
      next hc => exact ⟨0, d, rfl, hc, map_eq_error_iff.mp h⟩
      next =>
        obtain ⟨k, d', hk, hc, he⟩ := ih (map_eq_error_iff.mp h)
        exact ⟨k + 1, d', hk, hc, he⟩

/-- Where a long option has been stored already, nothing is processed. -/
theorem processOption_zero (arg : Option CStr) (ds : List (OptDef F)) :
    processOption A 0 arg ds = .ok ds := by
  induction ds with
  | nil => rfl
  | cons d ds ih =>
      rw [processOption, if_neg (char_ne_zero d), ih]
      rfl

/-- A call that does not end the program takes `getopt_long`'s answer to `process_option`. -/
theorem optionStep_eq_ok (h : optionStep A longOpts found ds = .ok ds') :
    (returned longOpts ds found).1 ≠ ch '?' ∧
      processOption A (returned longOpts ds found).1 (optarg found)
        (returned longOpts ds found).2 = .ok ds' := by
  unfold optionStep at h
  dsimp only at h
  split at h
  next => cases h
  next =>
    split at h
    next => cases h
    next hne => exact ⟨hne, h⟩

theorem optionStep_same (h : optionStep A longOpts found ds = .ok ds') :
    List.Forall₂ Same ds ds' :=
  same_trans (returned_same longOpts ds found) (processOption_same (optionStep_eq_ok h).2)

/-- A call is acted on by its option, and leaves the others as they are. -/
theorem optionStep_ok (htable : ∀ k, longOpts[k]? = ds₀[k]?.map (longEntry k))
    (hnodup : (chars ds₀).Nodup) (hsame : List.Forall₂ Same ds₀ ds)
    (h : optionStep A longOpts found ds = .ok ds') (hk₀ : ds₀[k]? = some d₀)
    (hk : ds[k]? = some d) :
    ∃ d', ds'[k]? = some d' ∧
      (isOf k d₀.shortStr.byte found = true → act A d₀.var.cNot d found = .ok d') ∧
      (isOf k d₀.shortStr.byte found = false → d' = d) := by
  obtain ⟨hknown, hprocess⟩ := optionStep_eq_ok h
  obtain ⟨hmode, hchar⟩ : Same d₀ d := by
    obtain ⟨d₁, hk₁, hd₁⟩ := getElem?_same hsame hk₀
    rwa [Option.some.inj (hk.symm.trans hk₁)]
  have hnodup' : (chars ds).Nodup := by rwa [chars_eq hsame]
  cases found with
  | unknown => exact absurd rfl hknown
  | short c arg =>
      -- the character is that of the option or of another one
      obtain ⟨d', hk', hof, hother⟩ := processOption_ok hnodup' hprocess hk
      refine ⟨d', hk', fun h => ?_, fun h => ?_⟩
      · have hc : c = d₀.shortStr.byte := of_decide_eq_true h
        exact hof (by rw [hc, hchar]; rfl)
      · have hc : c ≠ d₀.shortStr.byte := of_decide_eq_false h
        exact hother fun hd => hc (by rw [← hchar, hd]; rfl)
  | long i arg =>
      cases hi : ds₀[i]? with
      | none =>
          rw [returned_none htable hi] at hknown
          exact absurd rfl hknown
      | some dᵢ =>
          rw [returned_long htable hi] at hprocess
          by_cases hflag : dᵢ.mode = .flag
          · -- `getopt_long` has stored in the variable, and that is all
            rw [if_pos hflag, processOption_zero] at hprocess
            obtain rfl := Except.ok.inj hprocess
            by_cases hik : i = k
            · subst hik
              obtain rfl := Option.some.inj (hi.symm.trans hk₀)
              refine ⟨d.setFlag dᵢ.var.cNot, ?_, fun _ => act_flag (hmode.trans hflag) i,
                fun h => absurd rfl (of_decide_eq_false h)⟩
              rw [List.getElem?_modify_eq, hk]
              rfl
            · refine ⟨d, ?_, fun h => absurd (of_decide_eq_true h) hik, fun _ => rfl⟩
              rw [List.getElem?_modify_ne _ ds hik, hk]
          · -- the entry stands for the character of its option
            rw [if_neg hflag] at hprocess
            obtain ⟨d', hk', hof, hother⟩ := processOption_ok hnodup' hprocess hk
            refine ⟨d', hk', fun h => ?_, fun h => ?_⟩
            · obtain rfl : i = k := of_decide_eq_true h
              obtain rfl := Option.some.inj (hi.symm.trans hk₀)
              rw [act_noFlag fun hd => hflag (hmode.symm.trans hd)]
              exact hof (by rw [hchar])
            · have hne : i ≠ k := of_decide_eq_false h
              refine hother fun hd => hne (eq_of_char hnodup hi hk₀ ?_)
              rw [← hchar]
              exact hd.symm

/-- A call ends the program on behalf of its option, or of none. -/
theorem optionStep_error (htable : ∀ k, longOpts[k]? = ds₀[k]?.map (longEntry k))
    (hnodup : (chars ds₀).Nodup) (hsame : List.Forall₂ Same ds₀ ds)
    (h : optionStep A longOpts found ds = .error e) :
    e.option = none ∨ ∃ (k : Nat) (d₀ d : OptDef F), ds₀[k]? = some d₀ ∧ ds[k]? = some d ∧
      isOf k d₀.shortStr.byte found = true ∧ act A d₀.var.cNot d found = .error e := by
  unfold optionStep at h
  dsimp only at h
  split at h
  next =>
    cases h
    exact Or.inl rfl
  next =>
    split at h
    next =>
      cases h
      exact Or.inl rfl
    next hknown =>
      cases found with
      | unknown => exact absurd rfl hknown
      | short c arg =>
          obtain ⟨k, d, hk, hc, he⟩ := processOption_error h
          obtain ⟨d₀, hk₀, -, hchar⟩ := getElem?_same_left hsame hk
          refine Or.inr ⟨k, d₀, d, hk₀, hk, decide_eq_true ?_, he⟩
          rw [← hchar]
          exact hc.symm
      | long i arg =>
          cases hi : ds₀[i]? with
          | none =>
              rw [returned_none htable hi] at hknown
              exact absurd rfl hknown
          | some dᵢ =>
              rw [returned_long htable hi] at h
              by_cases hflag : dᵢ.mode = .flag
              · rw [if_pos hflag, processOption_zero] at h
                cases h
              · rw [if_neg hflag] at h
                obtain ⟨k, d, hk, hc, he⟩ := processOption_error h
                obtain ⟨d₀, hk₀, hmode, hchar⟩ := getElem?_same_left hsame hk
                -- the option that failed is the one of the entry
                obtain rfl : i = k := by
                  refine eq_of_char hnodup hi hk₀ ?_
                  rw [← hchar]
                  exact hc.symm
                obtain rfl := Option.some.inj (hi.symm.trans hk₀)
                refine Or.inr ⟨i, dᵢ, d, hi, hk, decide_eq_true rfl, ?_⟩
                rw [act_noFlag fun hd => hflag (hmode.symm.trans hd)]
                exact he

/-! ## All calls -/

variable {calls : List Found}

theorem optionLoop_same (h : optionLoop A longOpts calls ds = .ok ds') :
    List.Forall₂ Same ds ds' := by
  induction calls generalizing ds with
  | nil =>
      cases h
      exact List.forall₂_same.mpr fun d _ => Same.refl d
  | cons found calls ih =>
      obtain ⟨ds₁, hstep, hrest⟩ := bind_eq_ok_iff.mp h
      exact same_trans (optionStep_same hstep) (ih hrest)

/-- A call for another option is left out. -/
theorem actAll_filter_cons {neg : Int} {p : Found → Bool} {d₁ : OptDef F}
    {x : Except Stop (OptDef F)} (hof : p found = true → act A neg d found = .ok d₁)
    (hother : p found = false → d₁ = d) (hall : actAll A neg (calls.filter p) d₁ = x) :
    actAll A neg ((found :: calls).filter p) d = x := by
  cases hfound : p found with
  | true =>
      rw [List.filter_cons_of_pos hfound, actAll, hof hfound]
      exact hall
  | false =>
      rw [List.filter_cons_of_neg (Bool.eq_false_iff.mp hfound), ← hother hfound]
      exact hall

/-- An option ends as after its own calls. -/
theorem optionLoop_ok (htable : ∀ k, longOpts[k]? = ds₀[k]?.map (longEntry k))
    (hnodup : (chars ds₀).Nodup) (hsame : List.Forall₂ Same ds₀ ds)
    (h : optionLoop A longOpts calls ds = .ok ds') (hk₀ : ds₀[k]? = some d₀)
    (hk : ds[k]? = some d) :
    ∃ d', ds'[k]? = some d' ∧
      actAll A d₀.var.cNot (calls.filter (isOf k d₀.shortStr.byte)) d = .ok d' := by
  induction calls generalizing ds d with
  | nil =>
      cases h
      exact ⟨d, hk, rfl⟩
  | cons found calls ih =>
      obtain ⟨ds₁, hstep, hrest⟩ := bind_eq_ok_iff.mp h
      obtain ⟨d₁, hk₁, hof, hother⟩ := optionStep_ok htable hnodup hsame hstep hk₀ hk
      obtain ⟨d', hk', hall⟩ := ih (same_trans hsame (optionStep_same hstep)) hrest hk₁
      exact ⟨d', hk', actAll_filter_cons hof hother hall⟩

/-- The loop ends the program where the calls of one option do, or on behalf of none. -/
theorem optionLoop_error (htable : ∀ k, longOpts[k]? = ds₀[k]?.map (longEntry k))
    (hnodup : (chars ds₀).Nodup) (hsame : List.Forall₂ Same ds₀ ds)
    (h : optionLoop A longOpts calls ds = .error e) :
    e.option = none ∨ ∃ (k : Nat) (d₀ d : OptDef F), ds₀[k]? = some d₀ ∧ ds[k]? = some d ∧
      actAll A d₀.var.cNot (calls.filter (isOf k d₀.shortStr.byte)) d = .error e := by
  induction calls generalizing ds with
  | nil => cases h
  | cons found calls ih =>
      rcases bind_eq_error_iff.mp h with hstep | ⟨ds₁, hstep, hrest⟩
      · refine (optionStep_error htable hnodup hsame hstep).imp id ?_
        rintro ⟨k, d₀, d, hk₀, hk, hfound, hact⟩
        refine ⟨k, d₀, d, hk₀, hk, ?_⟩
        rw [List.filter_cons_of_pos hfound, actAll, hact]
        rfl
      · have hsame₁ := same_trans hsame (optionStep_same hstep)
        refine (ih hsame₁ hrest).imp id ?_
        rintro ⟨k, d₀, d₁, hk₀, hk₁, hall⟩
        obtain ⟨d, hk, -⟩ := getElem?_same_left (optionStep_same hstep) hk₁
        obtain ⟨d₁', hk₁', hof, hother⟩ := optionStep_ok htable hnodup hsame hstep hk₀ hk
        obtain rfl := Option.some.inj (hk₁'.symm.trans hk₁)
        exact ⟨k, d₀, d, hk₀, hk, actAll_filter_cons hof hother hall⟩

theorem actAll_same {neg : Int} (h : actAll A neg calls d = .ok d') : Same d d' := by
  induction calls generalizing d with
  | nil =>
      cases h
      exact Same.refl _
  | cons found calls ih =>
      obtain ⟨d₁, hact, hrest⟩ := bind_eq_ok_iff.mp h
      have hd := act_same hact
      have hd' := ih hrest
      exact ⟨hd'.1.trans hd.1, hd'.2.trans hd.2⟩

theorem actAll_error {neg : Int} (h : actAll A neg calls d = .error e) :
    e.option = some d.shortStr.byte ∨ e.option = none := by
  induction calls generalizing d with
  | nil => cases h
  | cons found calls ih =>
      rcases bind_eq_error_iff.mp h with hact | ⟨d₁, hact, hrest⟩
      · exact act_error hact
      · rw [← (act_same hact).2]
        exact ih hrest

/-! ## The remaining parameters -/

variable {args : List CStr}

theorem operandLoop_error (h : operandLoop A args d = .error e) :
    e.option = some d.shortStr.byte ∨ e.option = none := by
  induction args generalizing d with
  | nil => cases h
  | cons arg args ih =>
      rcases bind_eq_error_iff.mp h with hparse | ⟨d₁, hparse, hrest⟩
      · exact parseArgument_error (d := { d with found := d.found + 1 }) hparse
      · rw [← (parseArgument_same hparse).2]
        exact ih hrest

/-- Only one option is unlimited. -/
def UnlimitedOnce (ds : List (OptDef F)) : Prop :=
  (ds.map (·.mode)).Pairwise fun mode mode' => ¬ (mode = .unlimited ∧ mode' = .unlimited)

theorem operandsOf_of_ne {mode : Mode} (h : mode ≠ .unlimited) : operandsOf mode args = [] :=
  if_neg h

/-- An option gets the parameters that are left for it. -/
theorem processOperands_ok (honce : UnlimitedOnce ds) (h : processOperands A args ds = .ok ds')
    (hk : ds[k]? = some d) :
    ∃ d', ds'[k]? = some d' ∧ operandLoop A (operandsOf d.mode args) d = .ok d' := by
  induction ds generalizing ds' k with
  | nil => cases hk
  | cons d₁ ds ih =>
      obtain ⟨hfirst, hrestOnce⟩ := List.pairwise_cons.mp honce
      rw [processOperands] at h
      split at h
      next hunlimited =>
        obtain ⟨d₁', hd₁', rfl⟩ := map_eq_ok_iff.mp h
        cases k with
        | zero =>
            cases hk
            refine ⟨d₁', rfl, ?_⟩
            rw [operandsOf, if_pos hunlimited]
            exact hd₁'
        | succ k =>
            have hlimited : d.mode ≠ .unlimited := fun hd =>
              hfirst _ (List.mem_map_of_mem (List.mem_of_getElem? hk)) ⟨hunlimited, hd⟩
            refine ⟨d, hk, ?_⟩
            rw [operandsOf_of_ne hlimited]
            rfl
      next hlimited =>
        obtain ⟨rest, hrest, rfl⟩ := map_eq_ok_iff.mp h
        cases k with
        | zero =>
            cases hk
            refine ⟨_, rfl, ?_⟩
            rw [operandsOf_of_ne hlimited]
            rfl
        | succ k =>
            obtain ⟨d', hk', hd'⟩ := ih hrestOnce hrest hk
            exact ⟨d', hk', hd'⟩

theorem processOperands_error (h : processOperands A args ds = .error e) :
    e.option = none ∨ ∃ (k : Nat) (d : OptDef F), ds[k]? = some d ∧
      operandLoop A (operandsOf d.mode args) d = .error e := by
  induction ds with
  | nil =>
      cases h
      exact Or.inl rfl
  | cons d ds ih =>
      rw [processOperands] at h
      split at h
      next hunlimited =>
        refine Or.inr ⟨0, d, rfl, ?_⟩
        rw [operandsOf, if_pos hunlimited]
        exact map_eq_error_iff.mp h
      next =>
        refine (ih (map_eq_error_iff.mp h)).imp id ?_
        rintro ⟨k, d', hk, hd'⟩
        exact ⟨k + 1, d', hk, hd'⟩

end Calls

end Camio.Options
