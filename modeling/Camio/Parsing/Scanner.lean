/-
  Camio.Parsing.Scanner

  The loop of `parse_number` closer to the machine: `state` is the number that it is in the
  source, both `switch` statements have their defaults, which end the program, and every
  index at which a character is examined is noted.

  The string lies in a memory that goes on behind its terminator.
-/

import Camio.Lib.ByteMem
import Camio.Lib.Loop
import Camio.Parsing.Number

namespace Camio.Parsing

open Camio.Lib

/-- The constants of the enumeration. -/
def State.code : State → Nat
  | .init => 0
  | .foundSign => 1
  | .mustBeZeroOrPeriod => 2
  -- 3 is `STATE_FOUND_INIT_PERIOD`
  | .foundInitZero => 4
  | .getDecDigits => 5
  | .getBinDigits => 6
  | .getOctDigits => 7
  | .getHexDigits => 8
  | .getFloDigits => 9
  | .endUint => 10
  | .endInt => 11
  | .endFloat => 12
  | .finishedUint => 13
  | .finishedInt => 14
  | .finishedFloat => 15
  | .noneFound => 16

/-- The loop goes on while `state` is none of these. -/
def isFinalCode (state : Nat) : Bool :=
  state == State.noneFound.code || state == State.finishedInt.code ||
    state == State.finishedUint.code || state == State.finishedFloat.code

/-- `parse_number` reaches one of its exits "Undefined state parsing numeric %lu\n". -/
structure UndefinedState where
  state : Nat
deriving DecidableEq

/-- The variables of the loop, and the indices of the characters examined so far. -/
structure Scanner (F : Type) where
  i : Nat
  state : Nat
  parser : Parser F
  examined : List Nat

variable {F : Type} [Double F]

/-- The cases of the `switch` in the loop, `none` being its default. -/
def switchCase (state : Nat) : Option (Parser F → UInt8 → Parser F) :=
  match state with
  | 0 => some turnInit
  | 1 => some turnFoundSign
  | 2 => some turnMustBeZeroOrPeriod
  | 4 => some turnFoundInitZero
  | 5 => some turnGetDecDigits
  | 6 => some turnGetBinDigits
  | 7 => some turnGetOctDigits
  | 8 => some turnGetHexDigits
  | 9 => some turnGetFloDigits
  | 10 => some turnEndUint
  | 11 => some turnEndInt
  | 12 => some turnEndFloat
  | _ => none

/-- A turn of the loop; there is none behind an exit. -/
def scanTurn (c : Mem) :
    Except UndefinedState (Scanner F) → Option (Except UndefinedState (Scanner F))
  | .error _ => none
  | .ok m =>
      if isFinalCode m.state then none
      else
        match switchCase m.state with
        | none => some (.error ⟨m.state⟩)
        | some body =>
            let p := body m.parser (c m.i)
            some (.ok { i := m.i + 1, state := p.state.code, parser := p
                        examined := m.examined ++ [m.i] })

/-- The variables in front of the loop.  The first character has been looked at. -/
def scanStart (i : Nat) : Scanner F :=
  { i := i, state := State.init.code, parser := start, examined := [i] }

/-- The `switch` behind the loop. -/
def scanResult (m : Scanner F) : Except UndefinedState (NumResult F) :=
  if m.state = State.noneFound.code then .ok .noType
  else if m.state = State.finishedInt.code then .ok (.int64 m.parser.intAccumulator)
  else if m.state = State.finishedUint.code then
    if m.parser.sign = -1 then
      .ok (.int64 ((m.parser.uintAccumulator * m.parser.sign).bmod (2 ^ 64)))
    else .ok (.uint64 m.parser.uintAccumulator)
  else if m.state = State.finishedFloat.code then
    .ok (.double (m.parser.floatAccumulator * Double.ofInt m.parser.sign))
  else .error ⟨m.state⟩

/-- `parse_number` on the characters in memory, for fewer than `fuel` turns of its loop: what
    it returns, and the indices it has examined. -/
def scanNumber (c : Mem) (i fuel : Nat) (F : Type := Float) [Double F] :
    Option (Except UndefinedState (NumResult F) × List Nat) :=
  if c i = 0 then some (.ok .noType, [i])
  else
    (loop (scanTurn c) fuel (.ok (scanStart i : Scanner F))).map fun
      | .error e => (.error e, [])
      | .ok m => (scanResult m, m.examined)

section Scanning

variable {s : CStr} {c : Mem} {p q : Parser F} {i fuel : Nat}

theorem isFinalCode_code (state : State) : isFinalCode state.code = state.isFinal := by
  cases state <;> rfl

/-- Every state in which the loop goes on has its case. -/
theorem switchCase_code (h : p.state.isFinal = false) :
    ∃ body, switchCase p.state.code = some body ∧ ∀ ch, body p ch = turn p ch := by
  cases hstate : p.state with
  | finishedUint | finishedInt | finishedFloat | noneFound =>
      rw [hstate] at h
      cases h
  | init | foundSign | mustBeZeroOrPeriod | foundInitZero =>
      exact ⟨_, rfl, fun ch => by rw [turn, hstate]⟩
  | getDecDigits | getBinDigits | getOctDigits | getHexDigits | getFloDigits =>
      exact ⟨_, rfl, fun ch => by rw [turn, hstate]⟩
  | endUint | endInt | endFloat => exact ⟨_, rfl, fun ch => by rw [turn, hstate]⟩

/-- Every state in which the loop ends has its case behind the loop. -/
theorem scanResult_code {examined : List Nat} (h : p.state.isFinal = true) :
    scanResult ⟨i, p.state.code, p, examined⟩ = .ok (numResult p) := by
  cases hstate : p.state with
  | finishedInt => rw [numResult, hstate]; rfl
  | finishedUint =>
      rw [numResult, hstate]
      by_cases hsign : p.sign = -1
      · exact (if_pos hsign).trans (congrArg _ (if_pos hsign).symm)
      · exact (if_neg hsign).trans (congrArg _ (if_neg hsign).symm)
  | finishedFloat => rw [numResult, hstate]; rfl
  | noneFound => rw [numResult, hstate]; rfl
  | init | foundSign | mustBeZeroOrPeriod | foundInitZero | getDecDigits | getBinDigits =>
      rw [hstate] at h
      cases h
  | getOctDigits | getHexDigits | getFloDigits | endUint | endInt | endFloat =>
      rw [hstate] at h
      cases h

/-- Where the loop on the string ends, that in memory ends, having examined characters of the
    string. -/
theorem loop_scanTurn (hc : ∀ j, j ≤ s.length → s.charAt j = some (c j))
    (h : parseLoop s fuel p i = some q) (examined : List Nat) :
    q.state.isFinal = true ∧ ∃ j more, (∀ x ∈ more, x ≤ s.length) ∧
      loop (scanTurn c) fuel (.ok ⟨i, p.state.code, p, examined⟩)
        = some (.ok ⟨j, q.state.code, q, examined ++ more⟩) := by
  induction fuel generalizing p i examined with
  | zero => cases h
  | succ fuel ih =>
      rw [parseLoop] at h
      rw [loop, scanTurn]
      dsimp only
      rw [isFinalCode_code]
      by_cases hfinal : p.state.isFinal = true
      · rw [if_pos hfinal] at h
        obtain rfl := Option.some.inj h
        refine ⟨hfinal, i, [], by simp, ?_⟩
        rw [if_pos hfinal, List.append_nil]
      · rw [if_neg hfinal] at h
        -- a character behind the terminator is not there to be examined
        have hi : i ≤ s.length := by
          by_contra hlt
          rw [CStr.charAt_eq_none (Nat.lt_of_not_le hlt)] at h
          cases h
        rw [hc i hi] at h
        obtain ⟨body, hcase, hbody⟩ := switchCase_code (Bool.eq_false_iff.mpr hfinal)
        obtain ⟨hq, j, more, hmore, hloop⟩ := ih h (examined ++ [i])
        refine ⟨hq, j, i :: more, List.forall_mem_cons.mpr ⟨hi, hmore⟩, ?_⟩
        rw [if_neg hfinal, hcase]
        dsimp only
        rw [hbody, hloop, List.append_assoc, List.singleton_append]

/-- On every string and from every index up to its terminator `parse_number` returns after as
    many turns as characters are left and one at most; it examines none behind the terminator
    and reaches neither exit. -/
theorem scanNumber_inside (hc : ∀ j, j ≤ s.length → s.charAt j = some (c j))
    (hi : i ≤ s.length) :
    ∃ k r examined, k ≤ s.length - i + 1 ∧
      (∀ fuel, k < fuel → scanNumber c i fuel F = some (.ok r, examined)) ∧
      (∀ j ∈ examined, j ≤ s.length) ∧ parseNumber s i F = some r := by
  by_cases hnul : c i = 0
  · refine ⟨0, .noType, [i], Nat.zero_le _, fun fuel _ => if_pos hnul, by simpa using hi, ?_⟩
    rw [parseNumber, hc i hi]
    exact if_pos hnul
  · have hlength : (s.bytes.drop i).length + 2 ≤ s.length - i + 2 := by
      rw [List.length_drop, CStr.length]
    have hparse := @parseLoop_eq F _ start _ s (s.length - i + 2) i hi rfl hlength
    obtain ⟨hfinal, j, more, hmore, hloop⟩ := loop_scanTurn hc hparse [i]
    obtain ⟨k, hk, hend⟩ := endsAfter_of_loop hloop
    refine ⟨k, numResult (feed start (s.bytes.drop i ++ [0])), [i] ++ more, by omega, ?_, ?_, ?_⟩
    · intro fuel hfuel
      have hscan : loop (scanTurn c) fuel (.ok (scanStart i)) = _ := loop_of_endsAfter hend hfuel
      rw [scanNumber, if_neg hnul, hscan, Option.map_some]
      dsimp only
      rw [scanResult_code hfinal]
    · exact List.forall_mem_cons.mpr ⟨hi, hmore⟩
    · exact parseNumber_eq hi

end Scanning

/-- The string `7`, and a digit behind its terminator. -/
def demoDigit : CStr := ⟨[55], by decide⟩

def demoMemory : Mem := fun j => [55, 0, 56].getD j 0

theorem scanNumber_inside_digit : ∃ k r examined, k ≤ 2 ∧
    (∀ fuel, k < fuel → scanNumber demoMemory 0 fuel = some (.ok r, examined)) ∧
    (∀ j ∈ examined, j ≤ 1) ∧ parseNumber demoDigit 0 = some r := by
  have hc : ∀ j, j ≤ demoDigit.length → demoDigit.charAt j = some (demoMemory j) := by decide
  exact scanNumber_inside hc (Nat.zero_le _)

end Camio.Parsing
