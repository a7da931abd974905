/-
  Camio.Options.Lines

  What a command line does to one of the options that were registered.

  The options are those of any calls of `camio_options_add` that return, no two of them with
  the same character, nor one with that of the help option.
-/

import Mathlib.Data.List.Nodup
import Camio.Options.Shares

namespace Camio.Options

open Camio.Lib Camio.Parsing Camio.Types

variable {F : Type}

/-- The option was added with these arguments. -/
structure IsAdded (A : BlockAllocator (Value F)) (r : Registration F) (d : OptDef F) : Prop where
  populated : ∃ var, populate A r.shortStr.byte r.dflt = .ok var ∧ d = r.optDef var
  flag : r.mode = .flag → r.dflt.type = .one .bool

/-- The options were added one after the other. -/
structure Added (A : BlockAllocator (Value F)) (rs : List (Registration F))
    (opts : CamioOptions F) : Prop where
  optDefs : List.Forall₂ (IsAdded A) rs opts.optDefs
  once : UnlimitedOnce opts.optDefs
  limited : opts.unlimitedSet = false → ∀ d ∈ opts.optDefs, d.mode ≠ .unlimited

/-- The options that a program registers. -/
structure Registered (A : BlockAllocator (Value F)) (rs : List (Registration F))
    (opts : CamioOptions F) : Prop where
  added : addOptions A .empty rs = .ok opts
  distinct : (rs.map (·.shortStr.byte) ++ [ch 'h']).Nodup

/-- The tables that are made of the options. -/
structure Prepared (line : CommandLine F) : Prop where
  table : ∀ k, line.longOpts[k]? = line.optDefs[k]?.map (longEntry k)
  nodup : (chars line.optDefs).Nodup
  once : UnlimitedOnce line.optDefs

/-- The calls of `getopt_long` that find an option. -/
def callsOf (line : CommandLine F) (k : Nat) (c : UInt8) : List Found :=
  (options line.tokens).filter (isOf k c)

section Registering

variable {A : BlockAllocator (Value F)} {rs rs' : List (Registration F)} {r : Registration F}
  {opts opts' : CamioOptions F} {set set' : Bool} {mode : Mode} {type : CamioType}
  {posixlyCorrect : Bool} {argv : List CStr} {line : CommandLine F} {d : OptDef F} {k : Nat}

theorem IsAdded.mode_eq (h : IsAdded A r d) : d.mode = r.mode := by
  obtain ⟨var, -, rfl⟩ := h.populated
  rfl

theorem IsAdded.shortStr_eq (h : IsAdded A r d) : d.shortStr = r.shortStr := by
  obtain ⟨var, -, rfl⟩ := h.populated
  rfl

/-- What has been checked. -/
theorem checkMode_ok (h : checkMode set mode type = .ok set') :
    (mode = .flag → type = .one .bool) ∧ (mode = .unlimited → set = false ∧ set' = true) ∧
      (mode ≠ .unlimited → set' = set) := by
  rw [checkMode] at h
  by_cases hflag : mode = .flag ∧ type ≠ .one .bool
  · rw [if_pos hflag] at h
    cases h
  · rw [if_neg hflag] at h
    refine ⟨fun hmode => not_not.mp fun htype => hflag ⟨hmode, htype⟩, ?_⟩
    by_cases hunlimited : mode = .unlimited
    · rw [if_pos hunlimited] at h
      cases set with
      | true => cases h
      | false =>
          by_cases hlist : isListType type = true
          · rw [if_neg Bool.false_ne_true, if_pos hlist] at h
            cases h
            exact ⟨fun _ => ⟨rfl, rfl⟩, fun hne => absurd hunlimited hne⟩
          · rw [if_neg Bool.false_ne_true, if_neg hlist] at h
            cases h
    · rw [if_neg hunlimited] at h
      cases h
      exact ⟨fun hmode => absurd hmode hunlimited, fun _ => rfl⟩

theorem Added.add (hadded : Added A rs opts) (h : camioOptionsAdd A opts r = .ok opts') :
    Added A (rs ++ [r]) opts' := by
  obtain ⟨set', hcheck, h⟩ := bind_eq_ok_iff.mp h
  obtain ⟨var, hvar, rfl⟩ := map_eq_ok_iff.mp h
  obtain ⟨hflag, hunlimited, hlimited⟩ := checkMode_ok hcheck
  refine ⟨List.rel_append hadded.optDefs (.cons ⟨⟨var, hvar, rfl⟩, hflag⟩ .nil), ?_, ?_⟩
  · rw [UnlimitedOnce, List.map_append]
    refine List.pairwise_append.mpr ⟨hadded.once, List.pairwise_singleton _ _, ?_⟩
    rintro mode hmem mode' hmem' ⟨hmode, hmode'⟩
    obtain ⟨d, hd, rfl⟩ := List.mem_map.mp hmem
    rw [List.mem_singleton.mp hmem'] at hmode'
    exact hadded.limited (hunlimited hmode').1 d hd hmode
  · rintro hset d hd hmode
    have hne : r.mode ≠ .unlimited := fun hmode' => by
      rw [(hunlimited hmode').2] at hset
      cases hset
    rcases List.mem_append.mp hd with hd | hd
    · exact hadded.limited ((hlimited hne).symm.trans hset) d hd hmode
    · obtain rfl := List.mem_singleton.mp hd
      exact hne hmode

theorem Added.addOptions (hadded : Added A rs opts)
    (h : Options.addOptions A opts rs' = .ok opts') : Added A (rs ++ rs') opts' := by
  induction rs' generalizing rs opts with
  | nil =>
      cases h
      rwa [List.append_nil]
  | cons r rs' ih =>
      obtain ⟨opts₁, hadd, hrest⟩ := bind_eq_ok_iff.mp h
      rw [List.append_cons]
      exact ih (hadded.add hadd) hrest

theorem added_empty : Added A [] .empty :=
  ⟨.nil, .nil, fun _ => List.forall_mem_nil _⟩

theorem chars_of_added (h : List.Forall₂ (IsAdded A) rs opts.optDefs) :
    chars opts.optDefs = rs.map (·.shortStr.byte) := by
  generalize opts.optDefs = ds at h
  induction h with
  | nil => rfl
  | cons hd _ ih => exact congrArg₂ List.cons (congrArg (·.byte) hd.shortStr_eq) ih

theorem length_le_of_nodup {bytes : List UInt8} (h : bytes.Nodup) : bytes.length ≤ 256 := by
  have hmap : (bytes.map UInt8.toNat).Nodup := h.map fun _ _ => UInt8.toNat_inj.mp
  have hsub : bytes.map UInt8.toNat ⊆ List.range 256 := by
    intro n hn
    obtain ⟨b, -, rfl⟩ := List.mem_map.mp hn
    exact List.mem_range.mpr b.toNat_lt
  have hle := (List.subperm_of_subset hmap hsub).length_le
  rwa [List.length_map, List.length_range] at hle

/-- The tables describe the options that were registered and the one for help. -/
theorem Registered.prepared (hreg : Registered A rs opts)
    (h : commandLine A posixlyCorrect opts argv = .ok line) :
    Prepared line ∧ List.Forall₂ (IsAdded A) (rs ++ [helpOption]) line.optDefs := by
  obtain ⟨opts₁, hhelp, h⟩ := bind_eq_ok_iff.mp h
  obtain ⟨⟨shortOpts, longOpts⟩, htables, rfl⟩ := map_eq_ok_iff.mp h
  have hrs : Added A rs opts := by
    have hall := added_empty.addOptions hreg.added
    rwa [List.nil_append] at hall
  have hadded : Added A (rs ++ [helpOption]) opts₁ := hrs.add hhelp
  have hchars : chars opts₁.optDefs = rs.map (·.shortStr.byte) ++ [ch 'h'] := by
    rw [chars_of_added hadded.optDefs, List.map_append]
    rfl
  have hnodup : (chars opts₁.optDefs).Nodup := by
    rw [hchars]
    exact hreg.distinct
  refine ⟨⟨fun k => ?_, hnodup, hadded.once⟩, hadded.optDefs⟩
  -- there are too few characters for the string to be full
  have hroom : 0 + 2 * opts₁.optDefs.length ≤ 1023 := by
    have hle := length_le_of_nodup hnodup
    rw [chars, List.length_map] at hle
    omega
  have htable := generateUnixOpts_eq hroom htables k
  rwa [Nat.zero_add] at htable

/-- The option of a registration. -/
theorem exists_optDef (h : List.Forall₂ (IsAdded A) (rs ++ [helpOption]) line.optDefs)
    (hk : rs[k]? = some r) : ∃ d, line.optDefs[k]? = some d ∧ IsAdded A r d := by
  have hk' : (rs ++ [helpOption])[k]? = some r := by
    rw [List.getElem?_append_left (List.getElem?_eq_some_iff.mp hk).1, hk]
  exact getElem?_of_forall₂ h hk'

end Registering

section Lines

variable {A : BlockAllocator (Value F)} {line : CommandLine F} {ds' : List (OptDef F)}
  {d : OptDef F} {k : Nat} {e : Stop} [Double F]

/-- An option ends as after its own calls and its own parameters. -/
theorem Prepared.ok (hline : Prepared line) (h : parseCommandLine A line = .ok ds')
    (hk : line.optDefs[k]? = some d) :
    ∃ d₁ d', actAll A d.var.cNot (callsOf line k d.shortStr.byte) d = .ok d₁ ∧
      operandLoop A (operandsOf d.mode (operands line.tokens)) d₁ = .ok d' ∧
      ds'[k]? = some d' := by
  obtain ⟨ds₂, hboth, hcheck⟩ := bind_eq_ok_iff.mp h
  obtain ⟨ds₁, hloop, hoperands⟩ := bind_eq_ok_iff.mp hboth
  obtain rfl : ds₂ = ds' := by
    rw [checkRequired] at hcheck
    split at hcheck
    next => exact Except.ok.inj hcheck
    next => cases hcheck
  have hrefl : List.Forall₂ Same line.optDefs line.optDefs :=
    List.forall₂_same.mpr fun d _ => Same.refl d
  obtain ⟨d₁, hk₁, hact⟩ := optionLoop_ok hline.table hline.nodup hrefl hloop hk hk
  have hmode : d₁.mode = d.mode := (actAll_same hact).1
  by_cases hnil : operands line.tokens = []
  · rw [if_pos hnil] at hoperands
    cases hoperands
    refine ⟨d₁, d₁, hact, ?_, hk₁⟩
    rw [hnil, operandsOf, ite_self]
    rfl
  · rw [if_neg hnil] at hoperands
    have honce : UnlimitedOnce ds₁ := by
      rw [UnlimitedOnce, modes_eq (optionLoop_same hloop)]
      exact hline.once
    obtain ⟨d', hk', hd'⟩ := processOperands_ok honce hoperands hk₁
    rw [hmode] at hd'
    exact ⟨d₁, d', hact, hd', hk'⟩

/-- An error of an option is one of its own calls, of its own parameters, or that it is
    missing. -/
theorem Prepared.error (hline : Prepared line) (h : parseCommandLine A line = .error e)
    (hk : line.optDefs[k]? = some d) (he : e.option = some d.shortStr.byte) :
    actAll A d.var.cNot (callsOf line k d.shortStr.byte) d = .error e ∨
    (∃ d₁, actAll A d.var.cNot (callsOf line k d.shortStr.byte) d = .ok d₁ ∧
      operandLoop A (operandsOf d.mode (operands line.tokens)) d₁ = .error e) ∨
    e = d.usage "Option --%s (-%c) is required but not supplied\n" := by
  have hrefl : List.Forall₂ Same line.optDefs line.optDefs :=
    List.forall₂_same.mpr fun d _ => Same.refl d
  -- an error that names the character of `d` can only be one of `d`
  have hown : ∀ {i dᵢ}, line.optDefs[i]? = some dᵢ →
      e.option = some dᵢ.shortStr.byte ∨ e.option = none → i = k ∧ dᵢ = d := by
    rintro i dᵢ hi (hoption | hoption)
    · obtain rfl := eq_of_char hline.nodup hi hk (Option.some.inj (hoption.symm.trans he))
      exact ⟨rfl, Option.some.inj (hi.symm.trans hk)⟩
    · rw [he] at hoption
      cases hoption
  rcases bind_eq_error_iff.mp h with hboth | ⟨ds₂, hboth, hcheck⟩
  · rcases bind_eq_error_iff.mp hboth with hloop | ⟨ds₁, hloop, hoperands⟩
    · rcases optionLoop_error hline.table hline.nodup hrefl hloop with
        hnone | ⟨i, d₀, dᵢ, hi, hi', hact⟩
      · rw [he] at hnone
        cases hnone
      · obtain rfl := Option.some.inj (hi.symm.trans hi')
        obtain ⟨rfl, rfl⟩ := hown hi (actAll_error hact)
        exact Or.inl hact
    · by_cases hnil : operands line.tokens = []
      · rw [if_pos hnil] at hoperands
        cases hoperands
      · rw [if_neg hnil] at hoperands
        rcases processOperands_error hoperands with hnone | ⟨i, d₁, hi, hd₁⟩
        · rw [he] at hnone
          cases hnone
        · obtain ⟨dᵢ, hi', hsame⟩ := getElem?_same_left (optionLoop_same hloop) hi
          have hoption := operandLoop_error hd₁
          rw [hsame.2] at hoption
          obtain ⟨rfl, rfl⟩ := hown hi' hoption
          obtain ⟨d₁', hk₁, hact⟩ := optionLoop_ok hline.table hline.nodup hrefl hloop hi' hi'
          obtain rfl := Option.some.inj (hi.symm.trans hk₁)
          rw [hsame.1] at hd₁
          exact Or.inr (Or.inl ⟨d₁, hact, hd₁⟩)
  · refine Or.inr (Or.inr ?_)
    rw [checkRequired] at hcheck
    split at hcheck
    next => cases hcheck
    next dᵢ _ =>
      have hformat := (Except.error.inj hcheck).symm
      rw [hformat] at he
      have hchar : dᵢ.shortStr.byte = d.shortStr.byte := Option.some.inj he
      rw [hformat, OptDef.usage, OptDef.usage, hchar]

end Lines

end Camio.Options
