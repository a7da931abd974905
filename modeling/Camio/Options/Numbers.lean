/-
  Camio.Options.Numbers

  What an option stores of a number, compared with the number.

  The result of the number parser is a union with a type.  `parse_argument` reads another
  member than was written where it converts, so what is stored depends on the pair of types:
  an integer from `2^63` on becomes negative, a list of doubles stores the bits of an integer,
  and negative integers are no doubles.
-/

import Camio.Options.Argument
import Camio.Parsing.Value

namespace Camio.Options

open Camio.Lib Camio.Parsing

/-- The types of numbers. -/
def Elem.IsNumeric : Elem → Prop
  | .uint64 | .int64 | .double => True
  | .bool | .string => False

/-- The number that a result of the parser denotes. -/
def number : NumResult Exact → Option Exact
  | .noType => none
  | .uint64 v => some (.num v)
  | .int64 v => some (.num v)
  | .double v => some v

/-- The number that is stored. -/
def Value.number : Value Exact → Option Exact
  | .uint64 v => some (.num v)
  | .int64 v => some (.num v)
  | .double v => some v
  | .bool _ | .string _ => none

/-- An integer outside of the range of an `int64_t`. -/
def OutOfRange (r : NumResult Exact) : Prop :=
  ∃ z : Int, number r = some (.num z) ∧ r.IsInteger ∧ ¬ (-2 ^ 63 ≤ z ∧ z < 2 ^ 63)

/-- The option stores the number that the parser has returned for the argument. -/
structure StoresNumber (d : OptDef Exact) (arg : CStr) (r : NumResult Exact) : Prop where
  /-- a value, or a usage error of this option -/
  outcome : (∃ v, readArgument d (some arg) = .ok v) ∨
    ∃ format, readArgument d (some arg) = .error (d.usage format)
  value : ∀ v, readArgument d (some arg) = .ok v → v.elem = d.var.elem ∧ v.number = number r
  range : d.var.elem = .int64 → OutOfRange r →
    ∃ format, readArgument d (some arg) = .error (d.usage format)
  accepted : d.var.elem = .double → r ≠ .noType → ∃ v, readArgument d (some arg) = .ok v
  /-- what a single value would be is what a list is given -/
  form : ∀ v w : Value Exact, w.elem = d.var.elem →
    readArgument { d with var := .one w } (some arg) = .ok v → readArgument d (some arg) = .ok v

/-- The types of the option and of the result go together. -/
def Agree : CamioType → NumResult Exact → Prop
  | .one .int64, .uint64 v | .many .int64, .uint64 v => v < 2 ^ 63
  | .one .double, .uint64 v => v < 2 ^ 63
  | .many .double, .uint64 v => v = 0
  | .one .double, .int64 _ | .many .double, .int64 _ => False
  | _, _ => True

section Reading

variable {d : OptDef Exact} {arg : CStr} {r : NumResult Exact} {v : Nat}

/-- An integer that the parser returns lies in the range of its type. -/
theorem parsed_represents (h : parseNumber arg 0 Exact = some r) (hinteger : r.IsInteger) :
    ∃ x, r.Represents x := by
  have hne : r ≠ .noType := by
    rintro rfl
    exact hinteger
  obtain ⟨n, -, -, rfl⟩ := parseNumber_accepted h hne
  exact ⟨n.exactValue, Numeral.result_represents (n.isInteger_of_result hinteger)⟩

theorem uint64_lt (h : parseNumber arg 0 Exact = some (.uint64 v)) : v < 2 ^ 64 := by
  obtain ⟨x, hrep⟩ := parsed_represents h trivial
  exact hrep.1

theorem int64_range {z : Int} (h : parseNumber arg 0 Exact = some (.int64 z)) :
    -2 ^ 63 ≤ z ∧ z < 2 ^ 63 := by
  obtain ⟨x, hrep⟩ := parsed_represents h trivial
  exact ⟨hrep.1, hrep.2.1⟩

/-- The member `val_int` is the number if that fits. -/
theorem intOfUint_eq_iff : intOfUint v = v ↔ v < 2 ^ 63 := by
  have hmember : intOfUint v = (v : Int).bmod 18446744073709551616 := rfl
  rw [hmember, Int.bmod]
  omega

/-! ### The types that agree -/

theorem var_type_eq (var : Var Exact) : var.type = .one var.elem ∨ var.type = .many var.elem := by
  cases var with
  | one w => exact Or.inl rfl
  | many elem s => exact Or.inr rfl

theorem agree_uint64 (hd : d.var.elem = .uint64) : Agree d.var.type r := by
  rcases var_type_eq d.var with h | h <;> rw [h, hd] <;> cases r <;> trivial

theorem agree_int64_iff (hd : d.var.elem = .int64) :
    Agree d.var.type r ↔ ∀ v, r = .uint64 v → v < 2 ^ 63 := by
  have hsplit : (∃ v, r = .uint64 v) ∨ ∀ v, r ≠ .uint64 v := by
    by_cases h : ∃ v, r = .uint64 v
    · exact Or.inl h
    · exact Or.inr (not_exists.mp h)
  rcases hsplit with ⟨v, rfl⟩ | hne
  · rcases var_type_eq d.var with h | h
    all_goals
      rw [h, hd]
      exact ⟨fun hv w hw => (NumResult.uint64.inj hw) ▸ hv, fun hall => hall v rfl⟩
  · refine iff_of_true ?_ fun v hv => absurd hv (hne v)
    cases r with
    | uint64 v => exact absurd rfl (hne v)
    | noType | int64 z | double q =>
        rcases var_type_eq d.var with h | h <;> rw [h, hd] <;> trivial

theorem agree_double_iff (hd : d.var.elem = .double) :
    Agree d.var.type r ↔
      (∀ v, r = .uint64 v → Agree d.var.type (.uint64 v)) ∧ ∀ z, r ≠ .int64 z := by
  cases r with
  | uint64 v =>
      refine ⟨fun h => ⟨fun w hw => hw ▸ h, fun z hz => by cases hz⟩, fun h => h.1 v rfl⟩
  | int64 z =>
      refine iff_of_false ?_ fun h => h.2 z rfl
      rcases var_type_eq d.var with h | h <;> rw [h, hd] <;> exact id
  | noType | double q =>
      refine iff_of_true ?_ ⟨fun v hv => ?_, fun z hz => ?_⟩
      rotate_left
      · cases hv
      · cases hz
      rcases var_type_eq d.var with h | h <;> rw [h, hd] <;> trivial

/-! ### What is read is the result of the parser, converted -/

theorem readArgument_int64 (hd : d.var.elem = .int64) (hr : parseNumber arg 0 Exact = some r) :
    readArgument d (some arg) = int64Of d r := by
  rw [readArgument, hd]
  dsimp only [readResult]
  rw [hr]

theorem readArgument_uint64 (hd : d.var.elem = .uint64) (hr : parseNumber arg 0 Exact = some r) :
    readArgument d (some arg) = uint64Of d r := by
  rw [readArgument, hd]
  dsimp only [readResult]
  rw [hr]

theorem readArgument_double (hd : d.var.elem = .double) (hr : parseNumber arg 0 Exact = some r) :
    readArgument d (some arg) = doubleOf d r := by
  rw [readArgument, hd]
  dsimp only [readResult]
  rw [hr]

/-- A number is stored as it is, unless a single value would be another one. -/
theorem StoresNumber.of_ok {v : Value Exact} (hread : readArgument d (some arg) = .ok v)
    (helem : v.elem = d.var.elem) (hnumber : v.number = number r)
    (hrange : d.var.elem = .int64 → ¬ OutOfRange r)
    (hform : ∀ u w : Value Exact, w.elem = d.var.elem →
      readArgument { d with var := .one w } (some arg) = .ok u → u = v) :
    StoresNumber d arg r where
  outcome := Or.inl ⟨v, hread⟩
  value := fun u hu => by
    obtain rfl := Except.ok.inj (hu.symm.trans hread)
    exact ⟨helem, hnumber⟩
  range := fun hd hout => absurd hout (hrange hd)
  accepted := fun _ _ => ⟨v, hread⟩
  form := fun u w hw hu => by
    rw [hform u w hw hu]
    exact hread

/-- A usage error is right for what is no number of the type. -/
theorem StoresNumber.of_usage {format : String}
    (hread : readArgument d (some arg) = .error (d.usage format))
    (hdouble : d.var.elem = .double → r = .noType)
    (hform : ∀ u w : Value Exact, w.elem = d.var.elem →
      readArgument { d with var := .one w } (some arg) ≠ .ok u) :
    StoresNumber d arg r where
  outcome := Or.inr ⟨format, hread⟩
  value := fun u hu => by
    rw [hread] at hu
    cases hu
  range := fun _ _ => ⟨format, hread⟩
  accepted := fun hd hne => absurd (hdouble hd) hne
  form := fun u w hw hu => absurd hu (hform u w hw)

theorem int64_stores_iff (hd : d.var.elem = .int64) (hr : parseNumber arg 0 Exact = some r) :
    StoresNumber d arg r ↔ ∀ v, r = .uint64 v → v < 2 ^ 63 := by
  have hread := readArgument_int64 hd hr
  have hone : ∀ w : Value Exact, w.elem = d.var.elem →
      readArgument { d with var := .one w } (some arg) = int64Of { d with var := .one w } r :=
    fun w hw => readArgument_int64 (hw.trans hd) hr
  have hnd : d.var.elem = .double → r = .noType := fun h => by
    rw [hd] at h
    cases h
  constructor
  · rintro h v rfl
    obtain ⟨-, hnumber⟩ := h.value _ hread
    exact intOfUint_eq_iff.mp (Int.cast_injective (Exact.num.inj (Option.some.inj hnumber)))
  · intro h
    cases r with
    | noType | double q =>
        refine .of_usage hread hnd fun u w hw hu => ?_
        rw [hone w hw] at hu
        cases hu
    | int64 z =>
        -- the parser returns no integer that is out of range
        refine .of_ok hread hd.symm rfl (fun _ => ?_) fun u w hw hu => ?_
        · rintro ⟨z', hz', -, hout⟩
          have hrange := int64_range hr
          obtain rfl : z = z' := Int.cast_injective (Exact.num.inj (Option.some.inj hz'))
          exact hout hrange
        · rw [hone w hw] at hu
          exact (Except.ok.inj hu).symm
    | uint64 v =>
        have hv := h v rfl
        have hnum : ((intOfUint v : Int) : ℚ) = (v : ℚ) := by
          rw [intOfUint_eq_iff.mpr hv, Int.cast_natCast]
        refine .of_ok hread hd.symm (congrArg (some <| Exact.num ·) hnum) (fun _ => ?_)
          fun u w hw hu => ?_
        · rintro ⟨z, hz, -, hout⟩
          have hcast : ((v : Int) : ℚ) = z := Exact.num.inj (Option.some.inj hz)
          obtain rfl : (v : Int) = z := Int.cast_injective hcast
          exact hout (by omega)
        · rw [hone w hw] at hu
          exact (Except.ok.inj hu).symm

theorem uint64_stores (hd : d.var.elem = .uint64) (hr : parseNumber arg 0 Exact = some r) :
    StoresNumber d arg r := by
  have hread := readArgument_uint64 hd hr
  have hone : ∀ w : Value Exact, w.elem = d.var.elem →
      readArgument { d with var := .one w } (some arg) = uint64Of { d with var := .one w } r :=
    fun w hw => readArgument_uint64 (hw.trans hd) hr
  have hni : d.var.elem ≠ .int64 := fun h => by
    rw [hd] at h
    cases h
  have hnd : d.var.elem = .double → r = .noType := fun h => by
    rw [hd] at h
    cases h
  cases r with
  | noType | double q | int64 z =>
      refine .of_usage hread hnd fun u w hw hu => ?_
      rw [hone w hw] at hu
      cases hu
  | uint64 v =>
      refine .of_ok hread hd.symm rfl (fun h => absurd h hni) fun u w hw hu => ?_
      rw [hone w hw] at hu
      exact (Except.ok.inj hu).symm

/-- What a double option converts integers to. -/
def promoted (d : OptDef Exact) (v : Nat) : Exact :=
  match d.var with
  | .one _ => .num (intOfUint v)
  | .many _ _ => .ofBits v

theorem num_intOfUint_eq_iff : Exact.num (intOfUint v) = .num v ↔ v < 2 ^ 63 := by
  rw [Exact.num.injEq, ← Int.cast_natCast, Int.cast_inj, intOfUint_eq_iff]

/-- Of the integers that a list of doubles is given only zero is stored as it is. -/
theorem promoted_eq_iff (hd : d.var.elem = .double) (hv : v < 2 ^ 64) :
    promoted d v = .num v ↔ Agree d.var.type (.uint64 v) := by
  rw [promoted]
  cases hvar : d.var with
  | one w =>
      rw [hvar] at hd
      have htype : (Var.one w).type = .one .double := congrArg CamioType.one hd
      rw [htype]
      exact num_intOfUint_eq_iff
  | many elem s =>
      rw [hvar] at hd
      have htype : (Var.many elem s).type = .many .double := congrArg CamioType.many hd
      rw [htype]
      exact Exact.ofBits_eq_num_iff hv

theorem lt_of_agree (hd : d.var.elem = .double) (h : Agree d.var.type (.uint64 v)) :
    v < 2 ^ 63 := by
  cases hvar : d.var with
  | one w =>
      rw [hvar] at hd h
      have htype : (Var.one w).type = .one .double := congrArg CamioType.one hd
      rw [htype] at h
      exact h
  | many elem s =>
      rw [hvar] at hd h
      have htype : (Var.many elem s).type = .many .double := congrArg CamioType.many hd
      rw [htype] at h
      have hzero : v = 0 := h
      rw [hzero]
      exact Nat.two_pow_pos 63

theorem double_stores_iff (hd : d.var.elem = .double) (hr : parseNumber arg 0 Exact = some r) :
    StoresNumber d arg r ↔
      (∀ v, r = .uint64 v → Agree d.var.type (.uint64 v)) ∧ ∀ z, r ≠ .int64 z := by
  have hread := readArgument_double hd hr
  have hone : ∀ w : Value Exact, w.elem = d.var.elem →
      readArgument { d with var := .one w } (some arg) = doubleOf { d with var := .one w } r :=
    fun w hw => readArgument_double (hw.trans hd) hr
  have hni : d.var.elem ≠ .int64 := fun h => by
    rw [hd] at h
    cases h
  have huint : ∀ v, doubleOf d (.uint64 v) = .ok (.double (promoted d v)) := fun v => by
    rw [doubleOf, promoted]
    cases d.var <;> rfl
  constructor
  · intro h
    refine ⟨?_, ?_⟩
    · rintro v rfl
      rw [huint] at hread
      exact (promoted_eq_iff hd (uint64_lt hr)).mp (Option.some.inj (h.value _ hread).2)
    · -- a negative integer is a usage error
      rintro z rfl
      obtain ⟨v, hv⟩ := h.accepted hd (fun h => by cases h)
      rw [hread] at hv
      cases hv
  · rintro ⟨hagree, hint⟩
    cases r with
    | int64 z => exact absurd rfl (hint z)
    | noType =>
        refine .of_usage hread (fun _ => rfl) fun u w hw hu => ?_
        rw [hone w hw] at hu
        cases hu
    | double q =>
        refine .of_ok hread hd.symm rfl (fun h => absurd h hni) fun u w hw hu => ?_
        rw [hone w hw] at hu
        exact (Except.ok.inj hu).symm
    | uint64 v =>
        -- where a list stores the integer, it is zero, and a single value stores it too
        have hv := hagree v rfl
        rw [huint, (promoted_eq_iff hd (uint64_lt hr)).mpr hv] at hread
        refine .of_ok hread hd.symm rfl (fun h => absurd h hni) fun u w hw hu => ?_
        have hsingle : doubleOf { d with var := .one w } (.uint64 v)
            = .ok (.double (.num (intOfUint v))) := rfl
        rw [hone w hw, hsingle, num_intOfUint_eq_iff.mpr (lt_of_agree hd hv)] at hu
        exact (Except.ok.inj hu).symm

end Reading

/-- A numeric option stores the number that its argument is parsed to exactly if the two
    types agree: for an `int64_t` or a `double` an integer is less than `2^63`, for a list of
    doubles it is zero, and negative integers are no doubles. -/
theorem readArgument_number_iff {d : OptDef Exact} {arg : CStr} {r : NumResult Exact}
    (hnum : d.var.elem.IsNumeric) (hr : parseNumber arg 0 Exact = some r) :
    StoresNumber d arg r ↔ Agree d.var.type r := by
  cases helem : d.var.elem with
  | bool | string =>
      rw [helem] at hnum
      exact absurd hnum id
  | uint64 => exact iff_of_true (uint64_stores helem hr) (agree_uint64 helem)
  | int64 => rw [int64_stores_iff helem hr, agree_int64_iff helem]
  | double => rw [double_stores_iff helem hr, agree_double_iff helem]

/-- An option `-n` with this variable. -/
def demoNumber (var : Var Exact) : OptDef Exact where
  mode := .optional
  var := var
  shortStr := ⟨ch 'n', by decide, by decide, by decide, by decide⟩
  longStr := ⟨[110], by decide⟩
  found := 1

/-- `-1` -/
def demoNegative : CStr := ⟨[45, 49], by decide⟩

theorem demoNegative_parsed : parseNumber demoNegative 0 Exact = some (.int64 (-1)) := rfl

theorem readArgument_number_negative :
    StoresNumber (demoNumber (.one (.int64 0))) demoNegative (.int64 (-1)) :=
  (@readArgument_number_iff (demoNumber (.one (.int64 0))) _ _ trivial
    demoNegative_parsed).mpr trivial

/-- A double option does not take `-1`. -/
theorem readArgument_number_fails :
    ¬ ∀ (d : OptDef Exact) (arg : CStr) (r : NumResult Exact), d.var.elem.IsNumeric →
      parseNumber arg 0 Exact = some r → StoresNumber d arg r := by
  intro hall
  have hstores := hall (demoNumber (.one (.double (.num 0)))) demoNegative _ trivial
    demoNegative_parsed
  obtain ⟨v, hv⟩ := hstores.accepted rfl (fun h => by cases h)
  rw [readArgument_double rfl demoNegative_parsed] at hv
  cases hv

end Camio.Options
