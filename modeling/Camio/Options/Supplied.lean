/-
  Camio.Options.Supplied

  What the list of an option holds after the command line is parsed.

  The default value is the first element of the list from registration on.  Only the branch
  for strings removes it when a value is found; and a list of doubles is no list to
  `is_list_type`, so a second value ends the program.  The list has room for 512 elements.
-/

import Camio.Options.Lines

namespace Camio.Options

open Camio.Lib Camio.Parsing Camio.Types

variable {F : Type}

/-- The value that an argument denotes, as an element of a list of this type. -/
def denoted [Double F] (elem : Elem) (arg : CStr) : Option (Value F) :=
  match elem with
  | .string => some (.string arg)
  | .bool =>
      match (parseBool arg 0 : Option (NumResult F)) with
      | some (.int64 v) => some (.bool v)
      | _ => none
  | .uint64 =>
      match parseNumber arg 0 F with
      | some (.uint64 v) => some (.uint64 v)
      | _ => none
  | .int64 =>
      match parseNumber arg 0 F with
      | some (.uint64 v) => if v < 2 ^ 63 then some (.int64 v) else none
      | some (.int64 v) => some (.int64 v)
      | _ => none
  | .double =>
      match parseNumber arg 0 F with
      | some (.uint64 v) => some (.double (Double.ofNat v))
      | some (.int64 v) => some (.double (Double.ofInt v))
      | some (.double v) => some (.double v)
      | _ => none

/-- The value of a part of the command line for an option, if it is one. -/
def valueOf (k : Nat) (r : Registration F) : Token → Option CStr
  | .option found => if isOf k r.shortStr.byte found then optarg found else none
  | .operand arg => if r.mode = .unlimited then some arg else none

/-- The values given for an option, in the order of the command line. -/
def given (line : CommandLine F) (k : Nat) (r : Registration F) : List CStr :=
  line.tokens.filterMap (valueOf k r)

/-- Those given by its short or long form, and then the parameters. -/
def givenInTurn (line : CommandLine F) (k : Nat) (r : Registration F) : List CStr :=
  (callsOf line k r.shortStr.byte).filterMap optarg ++ operandsOf r.mode (operands line.tokens)

/-- The list of the option holds what is denoted by these arguments; the default value, if
    there are none. -/
def HoldsSupplied [Double F] (k : Nat) (dflt : Value F) (args : List CStr)
    (outcome : Except Stop (List (OptDef F))) : Prop :=
  ∃ ds d s vs, outcome = .ok ds ∧ ds[k]? = some d ∧ d.var = .many dflt.elem s ∧
    Keeps dflt.elem.listName vs s ∧
    ((args = [] ∧ vs = [dflt]) ∨
      (args ≠ [] ∧ List.Forall₂ (fun arg v => denoted dflt.elem arg = some v) args vs))

/-- The program is ended because of this option: by the error for options that may be given
    once, or by an access out of bounds. -/
def IsFault (option : UInt8) (e : Stop) : Prop :=
  e = .usage (some ⟨onlyOneInstance, some option⟩) ∨ e = .wild option

/-- What cannot be stored as it should. -/
def Spoiled (elem : Elem) (args : List CStr) : Prop :=
  args ≠ [] ∧ (elem ≠ .string ∨ 512 < args.length)

/-- The elements of a list for which these values have been found. -/
def Contents (dflt : Value F) (args : List CStr) (vs : List (Value F)) : Prop :=
  (dflt.elem = .string ∧ args ≠ [] ∧ vs = args.map .string) ∨
    ((dflt.elem = .string → args = []) ∧ ∃ ws, vs = dflt :: ws ∧ ws.length = args.length)

/-- A list option for which these values have been found. -/
structure Holding (dflt : Value F) (args : List CStr) (d : OptDef F) : Prop where
  found_eq : d.found = args.length
  mode_ne : d.mode ≠ .flag
  holds : ∃ s vs, d.var = .many dflt.elem s ∧ NotGrown dflt.elem.listName 512 vs s ∧
    Contents dflt args vs

section Holding

variable {A : BlockAllocator (Value F)} {dflt v : Value F} {args more : List CStr} {arg : CStr}
  {vs : List (Value F)} {d d' : OptDef F} {e : Stop} {s s' : CamioList × Heap (Value F)}

theorem Spoiled.append (h : Spoiled dflt.elem args) (more : List CStr) :
    Spoiled dflt.elem (args ++ more) := by
  refine ⟨List.append_ne_nil_of_left_ne_nil h.1 _, h.2.imp id fun hlen => ?_⟩
  rw [List.length_append]
  omega

theorem spoiled_of_ne (h : dflt.elem ≠ .string) (arg : CStr) :
    Spoiled dflt.elem (args ++ [arg]) :=
  ⟨List.append_ne_nil_of_right_ne_nil _ (List.cons_ne_nil _ _), Or.inl h⟩

/-- The list that a value is added to. -/
def cleared (elem : Elem) (found : Nat) (s : CamioList × Heap (Value F)) :
    CamioList × Heap (Value F) :=
  (if elem = .string ∧ found = 1 then { s.1 with count := 0 } else s.1, s.2)

theorem storeArgument_many {elem : Elem} (hvar : d.var = .many elem s) :
    storeArgument A d v =
      (d.listCall (camioListAdd A elem.listName (cleared elem d.found s) v)).map fun s =>
        { d with var := .many elem s } := by
  unfold storeArgument
  rw [hvar]
  rfl

theorem listCall_ok {α : Type} {x : Except ListFault α} {a : α} (h : d.listCall x = .ok a) :
    x = .ok a := by
  rcases x with (e | _) | a'
  · cases h
  · cases h
  · exact congrArg Except.ok (Except.ok.inj h)

/-- A list of strings is empty when its first value is added. -/
theorem cleared_holds (hlist : NotGrown dflt.elem.listName 512 vs s) (hvs : Contents dflt args vs) :
    ∃ ws, NotGrown dflt.elem.listName 512 ws (cleared dflt.elem (args.length + 1) s) ∧
      (dflt.elem = .string → ws = args.map .string) ∧
      (dflt.elem ≠ .string → ws = vs) := by
  by_cases hfirst : dflt.elem = .string ∧ args = []
  · have hone : dflt.elem = .string ∧ args.length + 1 = 1 := by
      rw [hfirst.2]
      exact ⟨hfirst.1, rfl⟩
    refine ⟨[], ?_, fun _ => ?_, fun hne => absurd hfirst.1 hne⟩
    · rw [cleared, if_pos hone]
      exact hlist.clear
    · rw [hfirst.2]
      rfl
  · have hmany : ¬ (dflt.elem = .string ∧ args.length + 1 = 1) := by
      rintro ⟨helem, hlen⟩
      exact hfirst ⟨helem, List.eq_nil_of_length_eq_zero (by omega)⟩
    refine ⟨vs, ?_, fun helem => ?_, fun _ => rfl⟩
    · rw [cleared, if_neg hmany]
      exact hlist
    · rcases hvs with ⟨-, -, hvs⟩ | ⟨hnil, -⟩
      · exact hvs
      · exact absurd ⟨helem, hnil helem⟩ hfirst

/-- Adding a value that was found. -/
theorem Holding.store_ok (h : Holding dflt args d)
    (hv : dflt.elem = .string → v = .string arg)
    (hstore : storeArgument A { d with found := d.found + 1 } v = .ok d') :
    Holding dflt (args ++ [arg]) d' := by
  obtain ⟨s, vs, hvar, hlist, hvs⟩ := h.holds
  obtain ⟨ws, hws, hstrings, hothers⟩ := cleared_holds hlist hvs
  rw [storeArgument_many (d := { d with found := d.found + 1 }) hvar] at hstore
  obtain ⟨s', hcall, rfl⟩ := map_eq_ok_iff.mp hstore
  have hadd := listCall_ok hcall
  dsimp only at hadd
  rw [h.found_eq] at hadd
  refine ⟨?_, h.mode_ne, s', ws ++ [v], rfl, hws.add_ok (by decide) hadd, ?_⟩
  · rw [List.length_append, List.length_singleton, ← h.found_eq]
  · by_cases helem : dflt.elem = .string
    · refine Or.inl ⟨helem, List.append_ne_nil_of_right_ne_nil _ (List.cons_ne_nil _ _), ?_⟩
      rw [hstrings helem, hv helem, List.map_append]
      rfl
    · refine Or.inr ⟨fun h => absurd h helem, ?_⟩
      rcases hvs with ⟨hstring, -⟩ | ⟨-, us, hus, hlen⟩
      · exact absurd hstring helem
      · refine ⟨us ++ [v], ?_, ?_⟩
        · rw [hothers helem, hus]
          rfl
        · rw [List.length_append, List.length_append, hlen]
          rfl

theorem bytes_lt (elem : Elem) : 512 * elem.listName.sizeof < 2 ^ 64 := by
  cases elem <;> decide

/-- The only store that fails on a list of strings is the one behind its end. -/
theorem Holding.store_fault (h : Holding dflt args d)
    (hstore : storeArgument A { d with found := d.found + 1 } v = .error e) :
    Spoiled dflt.elem (args ++ [arg]) := by
  by_cases helem : dflt.elem = .string
  · -- up to 512 strings there is room in the block
    refine ⟨List.append_ne_nil_of_right_ne_nil _ (List.cons_ne_nil _ _), Or.inr ?_⟩
    obtain ⟨s, vs, hvar, hlist, hvs⟩ := h.holds
    obtain ⟨ws, hws, hstrings, -⟩ := cleared_holds hlist hvs
    rw [storeArgument_many (d := { d with found := d.found + 1 }) hvar, map_eq_error_iff] at hstore
    dsimp only at hstore
    rw [h.found_eq] at hstore
    by_contra hroom
    rw [List.length_append, List.length_singleton] at hroom
    obtain ⟨s', hadd⟩ : ∃ s', addAll A dflt.elem.listName
        (cleared dflt.elem (args.length + 1) s) [v] = .ok s' :=
      hws.addAll_ok (bytes_lt dflt.elem) (by
        rw [hstrings helem, List.length_map, List.length_singleton]
        omega)
    obtain ⟨s₁, hadd, -⟩ := bind_eq_ok_iff.mp hadd
    rw [hadd] at hstore
    cases hstore
  · exact spoiled_of_ne helem arg

/-! ## Over the command line -/

/-- A part of the run ends with a list option for which these values have been found. -/
structure Ends (dflt : Value F) (c : UInt8) (args : List CStr) (x : Except Stop (OptDef F)) :
    Prop where
  ok : ∀ d', x = .ok d' → Holding dflt args d'
  fault : ∀ e, x = .error e → IsFault c e → Spoiled dflt.elem args

variable {c : UInt8} {x : Except Stop (OptDef F)} {f : OptDef F → Except Stop (OptDef F)}

theorem Holding.ends (h : Holding dflt args d) : Ends dflt c args (.ok d) := by
  refine ⟨?_, ?_⟩
  · rintro d' ⟨⟩
    exact h
  · rintro e ⟨⟩

/-- One part after the other. -/
theorem Ends.bind (hx : Ends dflt c args x)
    (hf : ∀ d, Holding dflt args d → Ends dflt c (args ++ more) (f d)) :
    Ends dflt c (args ++ more) (x.bind f) := by
  refine ⟨fun d' hd' => ?_, fun e hbind he => ?_⟩
  · obtain ⟨d, hd, hd'⟩ := bind_eq_ok_iff.mp hd'
    exact (hf d (hx.ok d hd)).ok d' hd'
  · rcases bind_eq_error_iff.mp hbind with herror | ⟨d, hd, herror⟩
    · exact (hx.fault e herror he).append more
    · exact (hf d (hx.ok d hd)).fault e herror he

theorem usage_not_fault {format : String} (h : format ≠ onlyOneInstance) (d : OptDef F) :
    ¬ IsFault c (d.usage format) := by
  rintro (he | he)
  · have herror := Option.some.inj (Stop.usage.inj he)
    exact h (UsageError.mk.inj herror).1
  · cases he

theorem Holding.elem_eq (h : Holding dflt args d) : d.var.elem = dflt.elem := by
  obtain ⟨s, vs, hvar, -⟩ := h.holds
  rw [hvar]
  rfl

variable [Double F]

theorem readArgument_string (h : d.var.elem = .string) (arg : CStr) :
    readArgument d (some arg) = .ok (.string arg) := by
  rw [readArgument, h]

theorem readArgument_none (d : OptDef F) :
    ∃ format, format ≠ onlyOneInstance ∧ readArgument d none = .error (d.usage format) := by
  unfold readArgument
  cases d.var.elem with
  | bool | uint64 | int64 | string | double => exact ⟨_, by decide, rfl⟩

theorem Holding.parse (h : Holding dflt args d) (arg : CStr) :
    Ends dflt c (args ++ [arg]) (parseArgument A { d with found := d.found + 1 } (some arg)) := by
  have hread (helem : dflt.elem = .string) :
      readArgument { d with found := d.found + 1 } (some arg) = .ok (.string arg) :=
    readArgument_string (d := { d with found := d.found + 1 }) (h.elem_eq.trans helem) arg
  refine ⟨fun d' hd' => ?_, fun e hparse _ => ?_⟩
  · obtain ⟨v, hv, hstore⟩ := bind_eq_ok_iff.mp hd'
    refine h.store_ok (fun helem => ?_) hstore
    rw [hread helem] at hv
    exact (Except.ok.inj hv).symm
  · by_cases helem : dflt.elem = .string
    · rw [parseArgument, hread helem] at hparse
      exact h.store_fault hparse
    · exact spoiled_of_ne helem arg

/-- Only a list of doubles may not be repeated. -/
theorem Holding.process (h : Holding dflt args d) (arg : Option CStr) :
    Ends dflt c (args ++ arg.toList) (processFound A d arg) := by
  rw [processFound]
  dsimp only
  split
  next hmany =>
    refine ⟨?_, ?_⟩
    · rintro d' ⟨⟩
    · rintro e - -
      obtain ⟨s, vs, hvar, -⟩ := h.holds
      have hne : args ≠ [] := by
        rintro rfl
        have hfound := h.found_eq
        rw [List.length_nil] at hfound
        omega
      refine Spoiled.append ⟨hne, Or.inl fun helem => ?_⟩ arg.toList
      have htype := hmany.2
      rw [hvar, Var.type, helem] at htype
      cases htype
  next =>
    rw [if_neg h.mode_ne]
    cases arg with
    | some arg => exact h.parse arg
    | none =>
        -- another usage error
        obtain ⟨format, hne, hread⟩ := readArgument_none { d with found := d.found + 1 }
        rw [parseArgument, hread]
        refine ⟨?_, ?_⟩
        · rintro d' ⟨⟩
        · rintro e ⟨⟩ he
          exact absurd he (usage_not_fault hne _)

theorem Holding.calls (h : Holding dflt args d) (neg : Int) (calls : List Found) :
    Ends dflt c (args ++ calls.filterMap optarg) (actAll A neg calls d) := by
  induction calls generalizing args d with
  | nil =>
      rw [List.filterMap_nil, List.append_nil]
      exact h.ends
  | cons found calls ih =>
      have hsplit : (found :: calls).filterMap optarg
          = (optarg found).toList ++ calls.filterMap optarg := by
        rw [List.filterMap_cons]
        cases optarg found with
        | none => rfl
        | some arg => rfl
      rw [hsplit, ← List.append_assoc, actAll, act_noFlag h.mode_ne]
      exact (h.process (optarg found)).bind fun d' hd' => ih hd'

theorem Holding.operands (h : Holding dflt args d) (rest : List CStr) :
    Ends dflt c (args ++ rest) (operandLoop A rest d) := by
  induction rest generalizing args d with
  | nil =>
      rw [List.append_nil]
      exact h.ends
  | cons arg rest ih =>
      rw [List.append_cons, operandLoop]
      exact (h.parse arg).bind fun d' hd' => ih hd'

end Holding

/-! ## The list at the end -/

section Supplied

variable {dflt : Value F} {r : Registration F} {line : CommandLine F} {k : Nat}

/-- Only the order of the values differs. -/
theorem given_perm (line : CommandLine F) (k : Nat) (r : Registration F) :
    (given line k r).Perm (givenInTurn line k r) := by
  unfold given givenInTurn callsOf
  induction line.tokens with
  | nil =>
      have hnil : operandsOf r.mode (operands []) = [] := ite_self _
      rw [hnil]
      exact .nil
  | cons token tokens ih =>
      cases token with
      | option found =>
          have hoptions : options (.option found :: tokens) = found :: options tokens := rfl
          have hoperands : operands (.option found :: tokens) = operands tokens := rfl
          rw [hoptions, hoperands, List.filterMap_cons, valueOf]
          by_cases hof : isOf k r.shortStr.byte found = true
          · rw [if_pos hof, List.filter_cons_of_pos hof, List.filterMap_cons]
            cases optarg found with
            | none => exact ih
            | some arg => exact ih.cons arg
          · rw [if_neg hof, List.filter_cons_of_neg hof]
            exact ih
      | operand arg =>
          have hoptions : options (.operand arg :: tokens) = options tokens := rfl
          have hoperands : operands (.operand arg :: tokens) = arg :: operands tokens := rfl
          rw [hoptions, hoperands, List.filterMap_cons, valueOf]
          by_cases hmode : r.mode = .unlimited
          · -- behind the values that have been given by an option
            rw [operandsOf, if_pos hmode] at ih ⊢
            rw [if_pos hmode]
            exact (ih.cons arg).trans List.perm_middle.symm
          · rw [operandsOf, if_neg hmode] at ih ⊢
            rw [if_neg hmode]
            exact ih

/-- What has to hold for the values to be stored in order. -/
def Storable (elem : Elem) (args inTurn : List CStr) : Prop :=
  args = [] ∨ elem = .string ∧ args.length ≤ 512 ∧ args = inTurn

theorem Spoiled.not_storable {elem : Elem} {args inTurn : List CStr} (h : Spoiled elem inTurn)
    (hperm : args.Perm inTurn) : ¬ Storable elem args inTurn := by
  rintro (hnil | ⟨helem, hlen, -⟩)
  · rw [hnil] at hperm
    exact h.1 hperm.nil_eq.symm
  · rcases h.2 with hne | hlong
    · exact hne helem
    · rw [hperm.length_eq] at hlen
      omega

/-- A string denotes itself. -/
theorem denoted_strings_iff [Double F] {args args' : List CStr} :
    List.Forall₂ (fun arg v => denoted (F := F) .string arg = some v) args
      (args'.map .string) ↔ args = args' := by
  rw [List.forall₂_map_right_iff]
  have hiff : ∀ arg arg' : CStr,
      denoted (F := F) .string arg = some (.string arg') ↔ arg = arg' := fun arg arg' => by
    rw [denoted, Option.some.injEq, Value.string.injEq]
  simp only [hiff]
  exact List.forall₂_eq_eq_eq ▸ Iff.rfl

/-- What a list holds is what was given, unless the default value stands before it or the
    values are in another order. -/
theorem Holding.supplied_iff [Double F] {args inTurn : List CStr} {ds : List (OptDef F)}
    {d : OptDef F} (h : Holding dflt inTurn d) (hperm : args.Perm inTurn) (hk : ds[k]? = some d) :
    HoldsSupplied k dflt args (.ok ds) ↔ Storable dflt.elem args inTurn := by
  obtain ⟨s, vs, hvar, hlist, hvs⟩ := h.holds
  constructor
  · rintro ⟨ds', d', s', us, hds, hk', hvar', hkeeps, hus⟩
    obtain rfl := Except.ok.inj hds
    obtain rfl := Option.some.inj (hk.symm.trans hk')
    obtain ⟨-, rfl⟩ := Var.many.inj (hvar.symm.trans hvar')
    obtain rfl := hlist.eq_of_keeps hkeeps
    rcases hus with ⟨hnil, -⟩ | ⟨hne, hall⟩
    · exact Or.inl hnil
    · rcases hvs with ⟨helem, -, rfl⟩ | ⟨-, ws, rfl, hlen⟩
      · rw [helem, denoted_strings_iff] at hall
        have hle := hlist.length_le
        rw [List.length_map] at hle
        exact Or.inr ⟨helem, hall ▸ hle, hall⟩
      · -- the default value is one too many
        have hlength := hall.length_eq
        rw [List.length_cons, hlen, hperm.length_eq] at hlength
        omega
  · intro hstorable
    refine ⟨ds, d, s, vs, rfl, hk, hvar, hlist.keeps (bytes_lt dflt.elem), ?_⟩
    rcases hvs with ⟨helem, hne, rfl⟩ | ⟨hstring, ws, rfl, hlen⟩
    · -- strings that have been found
      rcases hstorable with hnil | ⟨-, -, rfl⟩
      · rw [hnil] at hperm
        exact absurd hperm.nil_eq.symm hne
      · refine Or.inr ⟨hne, ?_⟩
        rw [helem, denoted_strings_iff]
    · -- the default value is in the list, so nothing may have been given
      have hnil : args = [] := by
        rcases hstorable with hnil | ⟨helem, -, rfl⟩
        · exact hnil
        · exact hstring helem
      rw [hnil] at hperm
      rw [← hperm.nil_eq, List.length_nil] at hlen
      obtain rfl := List.eq_nil_of_length_eq_zero hlen
      exact Or.inl ⟨hnil, rfl⟩

/-- A list option when it has been added. -/
theorem IsAdded.holding {A : BlockAllocator (Value F)} {d : OptDef F} (h : IsAdded A r d)
    (hdflt : r.dflt = .many dflt) : Holding dflt [] d := by
  obtain ⟨var, hvar, rfl⟩ := h.populated
  rw [hdflt, populate] at hvar
  split at hvar
  next s hlist =>
    obtain rfl := Except.ok.inj hvar
    refine ⟨rfl, fun hmode => ?_, s, [dflt], rfl, listOf_notGrown (by decide) hlist,
      Or.inr ⟨fun _ => rfl, [], rfl, rfl⟩⟩
    have htype := h.flag hmode
    rw [hdflt] at htype
    cases htype
  next => cases hvar
  next => cases hvar

variable [Double F] {A : BlockAllocator (Value F)} {d : OptDef F} {ds' : List (OptDef F)}
  {e : Stop}

/-- The option's own calls, and then its own parameters. -/
theorem IsAdded.ends (h : IsAdded A r d) (hdflt : r.dflt = .many dflt) (line : CommandLine F)
    (k : Nat) :
    Ends dflt r.shortStr.byte ((callsOf line k d.shortStr.byte).filterMap optarg)
        (actAll A d.var.cNot (callsOf line k d.shortStr.byte) d) ∧
      ∀ d₁, actAll A d.var.cNot (callsOf line k d.shortStr.byte) d = .ok d₁ →
        Ends dflt r.shortStr.byte (givenInTurn line k r)
          (operandLoop A (operandsOf d.mode (operands line.tokens)) d₁) := by
  have hcalls : Ends dflt r.shortStr.byte ((callsOf line k d.shortStr.byte).filterMap optarg)
      (actAll A d.var.cNot (callsOf line k d.shortStr.byte) d) := (h.holding hdflt).calls _ _
  refine ⟨hcalls, fun d₁ hact => ?_⟩
  rw [h.mode_eq, givenInTurn, ← h.shortStr_eq]
  exact (hcalls.ok d₁ hact).operands _

/-- Where the command line is accepted, all values have been found. -/
theorem Prepared.holding (hline : Prepared line) (hk : line.optDefs[k]? = some d)
    (hadded : IsAdded A r d) (hdflt : r.dflt = .many dflt)
    (h : parseCommandLine A line = .ok ds') :
    ∃ d', ds'[k]? = some d' ∧ Holding dflt (givenInTurn line k r) d' := by
  obtain ⟨d₁, d', hact, hloop, hk'⟩ := hline.ok h hk
  obtain ⟨-, hoperands⟩ := hadded.ends hdflt line k
  exact ⟨d', hk', (hoperands d₁ hact).ok d' hloop⟩

/-- Where the program is ended because of the option, its values could not be stored. -/
theorem Prepared.spoiled (hline : Prepared line) (hk : line.optDefs[k]? = some d)
    (hadded : IsAdded A r d) (hdflt : r.dflt = .many dflt)
    (h : parseCommandLine A line = .error e) (he : IsFault r.shortStr.byte e) :
    Spoiled dflt.elem (givenInTurn line k r) := by
  obtain ⟨hcalls, hoperands⟩ := hadded.ends hdflt line k
  have hoption : e.option = some d.shortStr.byte := by
    rw [hadded.shortStr_eq]
    rcases he with rfl | rfl
    · rfl
    · rfl
  rcases hline.error h hk hoption with hact | ⟨d₁, hact, hloop⟩ | hrequired
  · have hspoiled := (hcalls.fault e hact he).append (operandsOf r.mode (operands line.tokens))
    rw [hadded.shortStr_eq] at hspoiled
    exact hspoiled
  · exact (hoperands d₁ hact).fault e hloop he
  · rw [hrequired] at he
    exact absurd he (usage_not_fault (by decide) d)

end Supplied

/-- Where the command line is accepted or the program is ended because of a list option, the
    list holds what was given in its order, and the default value if nothing was, exactly if
    nothing was, or if the values are at most 512 strings and stand in the order of the
    option's forms and the parameters behind them. -/
theorem list_supplied_iff {F : Type} [Double F] {A : BlockAllocator (Value F)}
    {rs : List (Registration F)} {opts : CamioOptions F} {posixlyCorrect : Bool}
    {argv : List CStr} {line : CommandLine F} {k : Nat} {r : Registration F} {dflt : Value F}
    (hreg : Registered A rs opts)
    (hline : commandLine A posixlyCorrect opts argv = .ok line) (hk : rs[k]? = some r)
    (hdflt : r.dflt = .many dflt)
    (hsettled : (∃ ds', camioOptionsParse A posixlyCorrect opts argv = .ok ds') ∨
      ∃ e, camioOptionsParse A posixlyCorrect opts argv = .error e ∧ IsFault r.shortStr.byte e) :
    HoldsSupplied k dflt (given line k r) (camioOptionsParse A posixlyCorrect opts argv) ↔
      given line k r = [] ∨ dflt.elem = .string ∧ (given line k r).length ≤ 512 ∧
        given line k r = givenInTurn line k r := by
  have hparse : camioOptionsParse A posixlyCorrect opts argv = parseCommandLine A line := by
    rw [camioOptionsParse, hline]
    rfl
  rw [hparse] at hsettled ⊢
  obtain ⟨hprepared, hadded⟩ := hreg.prepared hline
  obtain ⟨d, hd, hisAdded⟩ := exists_optDef hadded hk
  have hperm := given_perm line k r
  rcases hsettled with ⟨ds', hds'⟩ | ⟨e, herror, he⟩
  · obtain ⟨d', hk', hholding⟩ := hprepared.holding hd hisAdded hdflt hds'
    rw [hds']
    exact hholding.supplied_iff hperm hk'
  · have hspoiled := hprepared.spoiled hd hisAdded hdflt herror he
    rw [herror]
    refine iff_of_false ?_ (hspoiled.not_storable hperm)
    rintro ⟨ds, d', s, vs, hds, -⟩
    cases hds

/-- A list of strings `-i`, `--in`, which takes the parameters too. -/
def demoStrings : Registration Float where
  mode := .unlimited
  shortStr := ⟨ch 'i', by decide, by decide, by decide, by decide⟩
  longStr := ⟨[105, 110], by decide⟩
  dflt := .many (.string ⟨[45], by decide⟩)

/-- A list of numbers `-m`, `--num`, which is `0` by default. -/
def demoNumbers : Registration Float where
  mode := .optional
  shortStr := ⟨ch 'm', by decide, by decide, by decide, by decide⟩
  longStr := ⟨[110, 117, 109], by decide⟩
  dflt := .many (.int64 0)

/-- `q -i a b` -/
def demoStringsArgv : List CStr :=
  [⟨[113], by decide⟩, ⟨[45, 105], by decide⟩, ⟨[97], by decide⟩, ⟨[98], by decide⟩]

/-- `q -m 5` -/
def demoNumbersArgv : List CStr :=
  [⟨[113], by decide⟩, ⟨[45, 109], by decide⟩, ⟨[53], by decide⟩]

/-- The elements that the list of an option counts. -/
def demoCount (d : OptDef Float) : Nat :=
  match d.var with
  | .one _ => 0
  | .many _ s => s.1.count

theorem demo_strings : ∃ opts line ds',
    addOptions (.inPlace _) .empty [demoStrings] = .ok opts ∧
    commandLine (.inPlace _) false opts demoStringsArgv = .ok line ∧
    camioOptionsParse (.inPlace _) false opts demoStringsArgv = .ok ds' ∧
    given line 0 demoStrings = demoStringsArgv.drop 2 ∧
    givenInTurn line 0 demoStrings = demoStringsArgv.drop 2 :=
  ⟨_, _, _, rfl, rfl, rfl, rfl, rfl⟩

theorem demo_numbers : ∃ opts line ds',
    addOptions (.inPlace _) .empty [demoNumbers] = .ok opts ∧
    commandLine (.inPlace _) false opts demoNumbersArgv = .ok line ∧
    camioOptionsParse (.inPlace _) false opts demoNumbersArgv = .ok ds' ∧
    given line 0 demoNumbers = demoNumbersArgv.drop 2 ∧ ds'[0]?.map demoCount = some 2 :=
  ⟨_, _, _, rfl, rfl, rfl, rfl, rfl⟩

theorem list_supplied_strings : ∃ opts,
    addOptions (.inPlace _) .empty [demoStrings] = .ok opts ∧
    HoldsSupplied 0 (.string ⟨[45], by decide⟩) (demoStringsArgv.drop 2)
      (camioOptionsParse (.inPlace _) false opts demoStringsArgv) := by
  obtain ⟨opts, line, ds', hadd, hline, hparse, hgiven, hturn⟩ := demo_strings
  have hiff := @list_supplied_iff _ _ _ _ _ _ _ _ 0 demoStrings _ ⟨hadd, by decide⟩ hline rfl rfl
    (Or.inl ⟨ds', hparse⟩)
  rw [hgiven, hturn] at hiff
  exact ⟨opts, hadd, hiff.mpr (Or.inr ⟨rfl, by decide, rfl⟩)⟩

/-- `-m 5` adds to the default value. -/
theorem list_supplied_fails :
    ¬ ∀ (A : BlockAllocator (Value Float)) (rs : List (Registration Float))
      (opts : CamioOptions Float) (posixlyCorrect : Bool) (argv : List CStr)
      (line : CommandLine Float) (k : Nat) (r : Registration Float) (dflt : Value Float),
      Registered A rs opts → commandLine A posixlyCorrect opts argv = .ok line →
      rs[k]? = some r → r.dflt = .many dflt →
      ((∃ ds', camioOptionsParse A posixlyCorrect opts argv = .ok ds') ∨
        ∃ e, camioOptionsParse A posixlyCorrect opts argv = .error e ∧
          IsFault r.shortStr.byte e) →
      HoldsSupplied k dflt (given line k r) (camioOptionsParse A posixlyCorrect opts argv) := by
  intro hall
  obtain ⟨opts, line, ds', hadd, hline, hparse, hgiven, hcount⟩ := demo_numbers
  obtain ⟨ds, d, s, vs, hds, hk, hvar, hkeeps, hvs⟩ := hall _ _ _ _ _ _ 0 _ _
    ⟨hadd, by decide⟩ hline rfl rfl (Or.inl ⟨ds', hparse⟩)
  obtain rfl := Except.ok.inj (hparse.symm.trans hds)
  rw [hk, Option.map_some, demoCount, hvar] at hcount
  have htwo : vs.length = 2 := hkeeps.count_eq.symm.trans (Option.some.inj hcount)
  rw [hgiven] at hvs
  rcases hvs with ⟨hnil, -⟩ | ⟨-, hvs⟩
  · cases hnil
  · have hone : 1 = vs.length := hvs.length_eq
    omega

end Camio.Options
