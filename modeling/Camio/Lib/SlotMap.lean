/-
  Camio.Lib.SlotMap

  A finite map kept in slots: every slot is empty or holds a key and a value.
  `Holds slots map` says that the slots hold the map, each key in one slot.
  Filling an empty slot with a new key and emptying the slot of a key are the
  updates of the map.
-/

import Mathlib.Logic.Function.Basic

namespace Camio.Lib

variable {ι κ α : Type _} {slots : ι → Option (κ × α)} {map map' : κ → Option α}

/-- The slots hold the map, every key in one of them. -/
structure Holds (slots : ι → Option (κ × α)) (map : κ → Option α) : Prop where
  map_of_slot : ∀ {i k v}, slots i = some (k, v) → map k = some v
  slot_of_map : ∀ {k v}, map k = some v → ∃ i, slots i = some (k, v)
  unique : ∀ {i j k v w}, slots i = some (k, v) → slots j = some (k, w) → i = j

theorem holds_empty : Holds (fun _ : ι => none) (fun _ : κ => (none : Option α)) :=
  ⟨nofun, nofun, nofun⟩

/-- The slots determine the map. -/
theorem Holds.ext (h : Holds slots map) (h' : Holds slots map') : map = map' := by
  funext k
  apply Option.ext
  intro v
  constructor
  · intro hv
    obtain ⟨i, hi⟩ := h.slot_of_map hv
    exact h'.map_of_slot hi
  · intro hv
    obtain ⟨i, hi⟩ := h'.slot_of_map hv
    exact h.map_of_slot hi

variable [DecidableEq ι] [DecidableEq κ]

/-- A new key goes into an empty slot. -/
theorem Holds.insert (h : Holds slots map) {i : ι} (hi : slots i = none) {k : κ}
    (hk : map k = none) (v : α) :
    Holds (Function.update slots i (some (k, v))) (Function.update map k (some v)) := by
  -- the key is in no other slot, because it is not in the map
  have hnew : ∀ {j w}, slots j ≠ some (k, w) := by
    intro j w hj
    exact absurd (hk.symm.trans (h.map_of_slot hj)) nofun
  refine ⟨?_, ?_, ?_⟩
  · intro j l w hj
    by_cases hji : j = i
    · subst hji
      rw [Function.update_self, Option.some.injEq, Prod.mk.injEq] at hj
      rw [← hj.1, ← hj.2, Function.update_self]
    · rw [Function.update_of_ne hji] at hj
      have hlk : l ≠ k := by
        rintro rfl
        exact hnew hj
      rw [Function.update_of_ne hlk]
      exact h.map_of_slot hj
  · intro l w hl
    by_cases hlk : l = k
    · subst hlk
      rw [Function.update_self] at hl
      obtain rfl := Option.some.inj hl
      exact ⟨i, Function.update_self _ _ _⟩
    · rw [Function.update_of_ne hlk] at hl
      obtain ⟨j, hj⟩ := h.slot_of_map hl
      have hji : j ≠ i := by
        rintro rfl
        exact absurd (hi.symm.trans hj) nofun
      exact ⟨j, by rw [Function.update_of_ne hji]; exact hj⟩
  · intro j j' l w w' hj hj'
    by_cases hji : j = i <;> by_cases hji' : j' = i
    · rw [hji, hji']
    · subst hji
      rw [Function.update_self, Option.some.injEq, Prod.mk.injEq] at hj
      rw [Function.update_of_ne hji', ← hj.1] at hj'
      exact absurd hj' hnew
    · subst hji'
      rw [Function.update_self, Option.some.injEq, Prod.mk.injEq] at hj'
      rw [Function.update_of_ne hji, ← hj'.1] at hj
      exact absurd hj hnew
    · rw [Function.update_of_ne hji] at hj
      rw [Function.update_of_ne hji'] at hj'
      exact h.unique hj hj'

/-- Emptying the slot of a key takes the key out of the map. -/
theorem Holds.erase (h : Holds slots map) {i : ι} {k : κ} {v : α} (hi : slots i = some (k, v)) :
    Holds (Function.update slots i none) (Function.update map k none) := by
  have hslot : ∀ {j l w}, Function.update slots i none j = some (l, w) →
      j ≠ i ∧ slots j = some (l, w) := by
    intro j l w hj
    by_cases hji : j = i
    · rw [hji, Function.update_self] at hj
      exact absurd hj nofun
    · rw [Function.update_of_ne hji] at hj
      exact ⟨hji, hj⟩
  refine ⟨?_, ?_, ?_⟩
  · intro j l w hj
    obtain ⟨hji, hj⟩ := hslot hj
    have hlk : l ≠ k := by
      rintro rfl
      exact hji (h.unique hj hi)
    rw [Function.update_of_ne hlk]
    exact h.map_of_slot hj
  · intro l w hl
    by_cases hlk : l = k
    · rw [hlk, Function.update_self] at hl
      exact absurd hl nofun
    · rw [Function.update_of_ne hlk] at hl
      obtain ⟨j, hj⟩ := h.slot_of_map hl
      have hji : j ≠ i := by
        rintro rfl
        rw [hi, Option.some.injEq, Prod.mk.injEq] at hj
        exact hlk hj.1.symm
      exact ⟨j, by rw [Function.update_of_ne hji]; exact hj⟩
  · intro j j' l w w' hj hj'
    exact h.unique (hslot hj).2 (hslot hj').2

end Camio.Lib
