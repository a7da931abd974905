/-
  Camio.Lib.Except

  What is known of the parts of a computation that may fail, once its outcome is known.
-/

import Mathlib.Logic.Basic

namespace Camio.Lib

section Outcomes

variable {ε α β : Type _} {x : Except ε α} {e : ε} {b : β}

theorem bind_eq_ok_iff {f : α → Except ε β} :
    x.bind f = .ok b ↔ ∃ a, x = .ok a ∧ f a = .ok b := by
  cases x with
  | error e =>
      constructor
      · intro h
        cases h
      · rintro ⟨a, h, -⟩
        cases h
  | ok a =>
      constructor
      · exact fun h => ⟨a, rfl, h⟩
      · rintro ⟨a', h, hb⟩
        rwa [Except.ok.inj h]

theorem bind_eq_error_iff {f : α → Except ε β} :
    x.bind f = .error e ↔ x = .error e ∨ ∃ a, x = .ok a ∧ f a = .error e := by
  cases x with
  | error e' =>
      constructor
      · intro h
        exact Or.inl (congrArg _ (Except.error.inj h))
      · rintro (h | ⟨a, h, -⟩)
        · exact congrArg _ (Except.error.inj h)
        · cases h
  | ok a =>
      constructor
      · exact fun h => Or.inr ⟨a, rfl, h⟩
      · rintro (h | ⟨a', h, he⟩)
        · cases h
        · rwa [Except.ok.inj h]

theorem map_eq_ok_iff {f : α → β} : x.map f = .ok b ↔ ∃ a, x = .ok a ∧ f a = b := by
  cases x with
  | error e =>
      constructor
      · intro h
        cases h
      · rintro ⟨a, h, -⟩
        cases h
  | ok a =>
      constructor
      · exact fun h => ⟨a, rfl, Except.ok.inj h⟩
      · rintro ⟨a', h, rfl⟩
        rw [Except.ok.inj h]
        rfl

theorem map_eq_error_iff {f : α → β} : x.map f = .error e ↔ x = .error e := by
  cases x with
  | error e' =>
      constructor
      · exact fun h => congrArg _ (Except.error.inj h)
      · exact fun h => congrArg _ (Except.error.inj h)
  | ok a =>
      constructor
      · intro h
        cases h
      · intro h
        cases h

end Outcomes

end Camio.Lib
