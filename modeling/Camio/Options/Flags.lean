/-
  Camio.Options.Flags

  The two forms of a flag.

  The long form stores what the flag was not before the command line was read, as often as it
  occurs.  The short form inverts what the flag is now, and may occur once only.  So a short
  form behind long ones undoes what they have done.
-/

import Camio.Options.Lines

namespace Camio.Options

open Camio.Lib Camio.Parsing Camio.Types

def isShort : Found → Bool
  | .short _ _ => true
  | _ => false

def isLong : Found → Bool
  | .long _ _ => true
  | _ => false

/-- The last form is the short one, and there is a long one before. -/
def ShortAfterLong (calls : List Found) : Prop :=
  calls.getLast?.any isShort = true ∧ calls.any isLong = true

/-- What a form makes of a flag. -/
def flagStep (neg u : Int) (found : Found) : Int := if isLong found then neg else cNot u

section Forms

variable {calls : List Found} {v : Int}

theorem cNot_cNot_ne (v : Int) : cNot (cNot v) ≠ cNot v := by
  by_cases hv : v = 0
  · rw [hv]
    decide
  · rw [cNot, cNot, if_neg hv]
    decide

/-- Any long form leaves the negated default. -/
theorem foldl_long (hne : calls ≠ []) (hlong : ∀ found ∈ calls, isLong found = true) (neg u : Int) :
    calls.foldl (flagStep neg) u = neg := by
  induction calls using List.reverseRecOn with
  | nil => exact absurd rfl hne
  | append_singleton init found _ =>
      have hfound := hlong found (List.mem_append_right _ List.mem_cons_self)
      rw [List.foldl_append, List.foldl_cons, List.foldl_nil, flagStep, if_pos hfound]

/-- With one short form at most, a flag is negated unless that form follows long ones. -/
theorem foldl_forms_iff (hforms : ∀ found ∈ calls, isLong found = !isShort found)
    (honce : calls.countP isShort ≤ 1) :
    calls.foldl (flagStep (cNot v)) v = (if calls = [] then v else cNot v) ↔
      ¬ ShortAfterLong calls := by
  induction calls using List.reverseRecOn with
  | nil => exact iff_of_true rfl fun h => by cases h.1
  | append_singleton init found _ =>
      have hlast : (init ++ [found]).getLast? = some found := List.getLast?_concat
      rw [if_neg (List.append_ne_nil_of_right_ne_nil _ (List.cons_ne_nil _ _)), List.foldl_append,
        List.foldl_cons, List.foldl_nil, flagStep]
      cases hlong : isLong found with
      | true =>
          refine iff_of_true (if_pos rfl) fun h => ?_
          have hshort := h.1
          rw [hlast, Option.any_some] at hshort
          have hform := hforms found (List.mem_append_right _ List.mem_cons_self)
          rw [hlong, hshort] at hform
          cases hform
      | false =>
          have hshort : isShort found = true := by
            have hform := hforms found (List.mem_append_right _ List.mem_cons_self)
            rw [hlong] at hform
            exact (Bool.not_eq_false' ..).mp hform.symm
          rw [if_neg Bool.false_ne_true]
          -- what stands before is all long
          have hnone : init.countP isShort = 0 := by
            rw [List.countP_append, List.countP_singleton, if_pos hshort] at honce
            omega
          have hinit : ∀ f ∈ init, isLong f = true := by
            intro f hf
            have hform := hforms f (List.mem_append_left _ hf)
            rw [Bool.eq_false_iff.mpr (List.countP_eq_zero.mp hnone f hf)] at hform
            exact hform
          by_cases hnil : init = []
          · subst hnil
            refine iff_of_true rfl fun h => ?_
            have hany := h.2
            rw [List.nil_append, List.any_cons, hlong] at hany
            cases hany
          · rw [foldl_long hnil hinit]
            refine iff_of_false (cNot_cNot_ne v) (not_not.mpr ⟨?_, ?_⟩)
            · rw [hlast]
              exact hshort
            · obtain ⟨f, hf⟩ := List.exists_mem_of_ne_nil init hnil
              exact List.any_eq_true.mpr ⟨f, List.mem_append_left _ hf, hinit f hf⟩

variable {F : Type} [Double F] {A : BlockAllocator (Value F)} {d d' : OptDef F} {found : Found}
  {neg u : Int}

/-- What the forms make of a flag when they occur. -/
theorem act_form (hmode : d.mode = .flag) (hvar : d.var = .one (.bool u))
    (hform : isLong found = !isShort found) (h : act A neg d found = .ok d') :
    d'.mode = .flag ∧ d'.var = .one (.bool (flagStep neg u found)) ∧
      (isShort found = true → d.found = 0 ∧ d'.found = 1) ∧
      (isShort found = false → d'.found = d.found) := by
  cases found with
  | unknown => cases hform
  | long i arg =>
      rw [act_flag hmode] at h
      cases h
      exact ⟨hmode, rfl, fun h => absurd h Bool.false_ne_true, fun _ => rfl⟩
  | short c arg =>
      have hprocess : processFound A d arg = .ok d' := h
      rw [processFound] at hprocess
      dsimp only at hprocess
      split at hprocess
      next => cases hprocess
      next hmany =>
        have hzero : d.found = 0 := by
          by_contra hne
          refine hmany ⟨by omega, ?_⟩
          rw [hvar]
          rfl
        cases hprocess
        refine ⟨hmode, ?_, fun _ => ⟨hzero, ?_⟩, fun h => by cases h⟩
        · rw [hvar]
          rfl
        · rw [OptDef.setFlag, hzero]

theorem actAll_forms (hmode : d.mode = .flag) (hvar : d.var = .one (.bool u))
    (hforms : ∀ found ∈ calls, isLong found = !isShort found)
    (h : actAll A neg calls d = .ok d') :
    d'.var = .one (.bool (calls.foldl (flagStep neg) u)) ∧
      (d.found ≤ 1 → d.found + calls.countP isShort ≤ 1) := by
  induction calls generalizing d u with
  | nil =>
      cases h
      exact ⟨hvar, id⟩
  | cons found calls ih =>
      obtain ⟨d₁, hact, hrest⟩ := bind_eq_ok_iff.mp h
      obtain ⟨hform, hforms⟩ := List.forall_mem_cons.mp hforms
      obtain ⟨hmode₁, hvar₁, hshort, hlong⟩ := act_form hmode hvar hform hact
      obtain ⟨hvar', hcount⟩ := ih hmode₁ hvar₁ hforms hrest
      refine ⟨hvar', fun hle => ?_⟩
      cases hfound : isShort found with
      | true =>
          obtain ⟨hzero, hone⟩ := hshort hfound
          rw [List.countP_cons_of_pos hfound]
          have hle' := hcount (by omega)
          omega
      | false =>
          rw [List.countP_cons_of_neg (Bool.eq_false_iff.mp hfound), ← hlong hfound]
          exact hcount (by rw [hlong hfound]; exact hle)

end Forms

/-- The calls for an option are in one of its forms. -/
theorem callsOf_forms {F : Type} (line : CommandLine F) (k : Nat) (c : UInt8) :
    ∀ found ∈ callsOf line k c, isLong found = !isShort found := by
  intro found hfound
  have hof := List.of_mem_filter hfound
  cases found with
  | unknown => cases hof
  | short c arg | long i arg => rfl

/-- Where the command line is accepted, a flag has been negated if it occurs and is as it was
    if not, except that it is as it was before if its short form stands behind long ones, and
    none behind it. -/
theorem flag_forms_iff {F : Type} [Double F] {A : BlockAllocator (Value F)}
    {rs : List (Registration F)} {opts : CamioOptions F} {posixlyCorrect : Bool}
    {argv : List CStr} {line : CommandLine F} {ds' : List (OptDef F)} {k : Nat}
    {r : Registration F} {v : Int} (hreg : Registered A rs opts)
    (hline : commandLine A posixlyCorrect opts argv = .ok line)
    (hparse : camioOptionsParse A posixlyCorrect opts argv = .ok ds') (hk : rs[k]? = some r)
    (hflag : r.mode = .flag) (hdflt : r.dflt = .one (.bool v)) :
    ds'[k]?.map (·.var) = some (.one (.bool
        (if callsOf line k r.shortStr.byte = [] then v else cNot v))) ↔
      ¬ ShortAfterLong (callsOf line k r.shortStr.byte) := by
  rw [camioOptionsParse, hline] at hparse
  obtain ⟨hprepared, hadded⟩ := hreg.prepared hline
  obtain ⟨d, hd, hisAdded⟩ := exists_optDef hadded hk
  obtain ⟨var, hvar, rfl⟩ := hisAdded.populated
  rw [hdflt] at hvar
  obtain rfl := Except.ok.inj hvar
  obtain ⟨d₁, d', hact, hoperands, hk'⟩ := hprepared.ok hparse hd
  -- no parameter is left for a flag
  have hmode : r.mode ≠ .unlimited := by
    rw [hflag]
    decide
  have hnil : operandsOf (r.optDef (.one (.bool v))).mode (operands line.tokens) = [] :=
    operandsOf_of_ne hmode
  rw [hnil] at hoperands
  obtain rfl := Except.ok.inj hoperands
  obtain ⟨hfinal, hcount⟩ := actAll_forms hflag rfl (callsOf_forms line k _) hact
  have honce := hcount (Nat.zero_le 1)
  have hneg : (r.optDef (.one (.bool v))).var.cNot = cNot v := rfl
  rw [hk', Option.map_some, hfinal, hneg, Option.some.injEq, Var.one.injEq, Value.bool.injEq]
  exact foldl_forms_iff (callsOf_forms line k _) ((Nat.le_add_left _ _).trans honce)

/-- A flag `-x`, `--xx`, which is off. -/
def demoFlag : Registration Float where
  mode := .flag
  shortStr := ⟨ch 'x', by decide, by decide, by decide, by decide⟩
  longStr := ⟨[120, 120], by decide⟩
  dflt := .one (.bool 0)

def demoFlagOptions : CamioOptions Float :=
  { optDefs := [demoFlag.optDef (.one (.bool 0))], unlimitedSet := false }

theorem demoFlag_registered : Registered (.inPlace _) [demoFlag] demoFlagOptions :=
  ⟨rfl, by decide⟩

/-- The program is `p`; its arguments `-x` and `--xx`. -/
def demoProgram : CStr := ⟨[112], by decide⟩

def demoShort : CStr := ⟨[45, 120], by decide⟩

def demoLong : CStr := ⟨[45, 45, 120, 120], by decide⟩

theorem demo_short_long : ∃ line ds',
    commandLine (.inPlace _) false demoFlagOptions [demoProgram, demoShort, demoLong] = .ok line ∧
    camioOptionsParse (.inPlace _) false demoFlagOptions [demoProgram, demoShort, demoLong]
      = .ok ds' ∧
    callsOf line 0 120 = [.short 120 none, .long 0 none] := ⟨_, _, rfl, rfl, rfl⟩

theorem demo_long_short : ∃ line ds',
    commandLine (.inPlace _) false demoFlagOptions [demoProgram, demoLong, demoShort] = .ok line ∧
    camioOptionsParse (.inPlace _) false demoFlagOptions [demoProgram, demoLong, demoShort]
      = .ok ds' ∧
    callsOf line 0 120 = [.long 0 none, .short 120 none] ∧
    ds'[0]?.map (·.var) = some (.one (.bool 0)) := ⟨_, _, rfl, rfl, rfl, rfl⟩

theorem flag_forms_on : ∃ ds',
    camioOptionsParse (.inPlace _) false demoFlagOptions [demoProgram, demoShort, demoLong]
      = .ok ds' ∧
    ds'[0]?.map (·.var) = some (.one (.bool 1)) := by
  obtain ⟨line, ds', hline, hparse, hcalls⟩ := demo_short_long
  have hiff := @flag_forms_iff _ _ _ _ _ _ _ _ _ 0 demoFlag 0 demoFlag_registered hline hparse
    rfl rfl rfl
  have hchar : demoFlag.shortStr.byte = 120 := rfl
  rw [hchar, hcalls] at hiff
  exact ⟨ds', hparse, hiff.mpr fun h => absurd h.1 Bool.false_ne_true⟩

/-- `--xx -x` leaves the flag off. -/
theorem flag_forms_fails :
    ¬ ∀ (A : BlockAllocator (Value Float)) (rs : List (Registration Float))
      (opts : CamioOptions Float) (posixlyCorrect : Bool) (argv : List CStr)
      (line : CommandLine Float) (ds' : List (OptDef Float)) (k : Nat)
      (r : Registration Float) (v : Int), Registered A rs opts →
      commandLine A posixlyCorrect opts argv = .ok line →
      camioOptionsParse A posixlyCorrect opts argv = .ok ds' → rs[k]? = some r →
      r.mode = .flag → r.dflt = .one (.bool v) →
      ds'[k]?.map (·.var) = some (.one (.bool
        (if callsOf line k r.shortStr.byte = [] then v else cNot v))) := by
  intro hall
  obtain ⟨line, ds', hline, hparse, hcalls, hoff⟩ := demo_long_short
  have hon := hall _ _ _ _ _ _ _ 0 _ 0 demoFlag_registered hline hparse rfl rfl rfl
  have hchar : demoFlag.shortStr.byte = 120 := rfl
  rw [hoff, hchar, hcalls] at hon
  cases hon

end Camio.Options
