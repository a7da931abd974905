/-
  Camio.Cat.Select

  What waiting does to the inputs and to the selector.

  The selector of `camio_cat` asks streams that change when they are asked.  As far as the
  selector itself goes, its `select` is that of Camio.Selector.System in surroundings that
  answer as the streams do, so what is known of that `select` holds here.
-/

import Mathlib.Logic.Function.Basic
import Camio.Cat.Main

namespace Camio.Cat

open Camio.Lib Camio.Selector

variable {σ : Type _} {I : IstreamCalls σ}

/-! ## The calls of one input -/

/-- From `s` on, calls of a stream have handed out `hs` one after the other, and left `t`. -/
inductive Reads (I : IstreamCalls σ) (s : σ) : List Handed → σ → Prop where
  | start : Reads I s [] s
  | ready {hs : List Handed} {t u : σ} {r : Nat} :
      Reads I s hs t → I.ready t = .ok (r, u) → Reads I s hs u
  | startRead {hs : List Handed} {t u : σ} {h : Handed} :
      Reads I s hs t → I.startRead t = .ok (h, u) → Reads I s (hs ++ [h]) u
  | endRead {hs : List Handed} {t u : σ} {freeBuff : Option Nat} {r : Nat} :
      Reads I s hs t → I.endRead t freeBuff = .ok (r, u) → Reads I s hs u

theorem Reads.trans {s t u : σ} {hs ks : List Handed} (h : Reads I s hs t)
    (h' : Reads I t ks u) : Reads I s (hs ++ ks) u := by
  induction h' with
  | start =>
      rw [List.append_nil]
      exact h
  | ready _ hready ih => exact .ready ih hready
  | startRead _ hread ih =>
      rw [← List.append_assoc]
      exact .startRead ih hread
  | endRead _ hend ih => exact .endRead ih hend

/-- The inputs have come from `start` to `now` by calls that handed out `handed i` at
    place `i`. -/
structure AllRead (I : IstreamCalls σ) (start : List σ) (handed : Nat → List Handed)
    (now : List σ) : Prop where
  length_eq : now.length = start.length
  reads : ∀ {i : Nat} {s t : σ}, start[i]? = some s → now[i]? = some t → Reads I s (handed i) t

section Inputs

variable {start now later : List σ} {handed : Nat → List Handed} {i : Nat} {s t : σ}

theorem allRead_start (start : List σ) : AllRead I start (fun _ => []) start where
  length_eq := rfl
  reads := by
    intro i s t hs ht
    obtain rfl := Option.some.inj (hs.symm.trans ht)
    exact .start

/-- Calls of the input at one place. -/
theorem AllRead.set {hs : List Handed} (h : AllRead I start handed now) (hi : now[i]? = some s)
    (hreads : Reads I s hs t) :
    AllRead I start (Function.update handed i (handed i ++ hs)) (now.set i t) where
  length_eq := by rw [List.length_set, h.length_eq]
  reads := by
    intro j a b ha hb
    by_cases hji : j = i
    · subst hji
      have hlt : j < now.length := (List.getElem?_eq_some_iff.mp hi).1
      rw [List.getElem?_set_self hlt] at hb
      obtain rfl := Option.some.inj hb
      rw [Function.update_self]
      exact (h.reads ha hi).trans hreads
    · rw [List.getElem?_set_ne (Ne.symm hji)] at hb
      rw [Function.update_of_ne hji]
      exact h.reads ha hb

/-- Calls that hand nothing out. -/
theorem AllRead.set_silent (h : AllRead I start handed now) (hi : now[i]? = some s)
    (hreads : Reads I s [] t) : AllRead I start handed (now.set i t) := by
  have hset := h.set hi hreads
  rwa [List.append_nil, Function.update_eq_self] at hset

theorem askReady_spec {place r : Nat} (h : askReady I now place = .ok (r, later)) :
    ∃ s t, now[place]? = some s ∧ I.ready s = .ok (r, t) ∧ later = now.set place t := by
  rw [askReady] at h
  cases hplace : now[place]? with
  | none =>
      rw [hplace] at h
      cases h
  | some s =>
      rw [hplace] at h
      obtain ⟨⟨r', t⟩, hready, hr⟩ := map_eq_ok_iff.mp h
      cases hr
      exact ⟨s, t, rfl, hready, rfl⟩

/-- Being asked hands nothing out. -/
theorem AllRead.askReady {place r : Nat} (h : AllRead I start handed now)
    (hask : askReady I now place = .ok (r, later)) : AllRead I start handed later := by
  obtain ⟨s, t, hplace, hready, rfl⟩ := askReady_spec hask
  exact h.set_silent hplace (.ready .start hready)

end Inputs

/-! ## The loop of `select` -/

section Loop

variable {t : Streams Nat} {start now later : List σ} {handed : Nat → List Handed}
  {fuel i entry index : Nat}

theorem AllRead.selectLoop (h : AllRead I start handed now)
    (hloop : selectLoop I t fuel i now = .ok ((entry, index), later)) :
    AllRead I start handed later := by
  induction fuel generalizing i now with
  | zero => cases hloop
  | succ fuel ih =>
      rw [Cat.selectLoop] at hloop
      by_cases hi : i < t.streamCount
      · rw [if_pos hi] at hloop
        cases hslot : t.slot i with
        | none =>
            rw [hslot] at hloop
            exact ih h hloop
        | some e =>
            rw [hslot] at hloop
            obtain ⟨⟨r, now'⟩, hask, hrest⟩ := bind_eq_ok_iff.mp hloop
            dsimp only at hrest
            by_cases hr : r ≠ 0
            · rw [if_pos hr] at hrest
              cases hrest
              exact h.askReady hask
            · rw [if_neg hr] at hrest
              exact ih (h.askReady hask) hrest
      · rw [if_neg hi] at hloop
        exact ih h hloop

/-- The loop looks at no answers but those from its own turn on. -/
theorem selectLoop_congr {ready ready' : Nat → Nat → Bool} {turn : Nat}
    (h : ∀ k, turn ≤ k → ready k = ready' k) :
    Selector.selectLoop t ready fuel turn i = Selector.selectLoop t ready' fuel turn i := by
  induction fuel generalizing turn i with
  | zero => rfl
  | succ fuel ih =>
      have hrest : ∀ j, Selector.selectLoop t ready fuel (turn + 1) j
          = Selector.selectLoop t ready' fuel (turn + 1) j := fun j =>
        ih fun k hk => h k (Nat.le_of_succ_le hk)
      simp only [Selector.selectLoop, hrest, h turn (Nat.le_refl turn)]

/-- Surroundings in which the loop goes the same way. -/
theorem selectLoop_answers (turn : Nat)
    (hloop : selectLoop I t fuel i now = .ok ((entry, index), later)) :
    ∃ ready, Selector.selectLoop t ready fuel turn i = some (entry, index) := by
  induction fuel generalizing i now turn with
  | zero => cases hloop
  | succ fuel ih =>
      rw [Cat.selectLoop] at hloop
      by_cases hi : i < t.streamCount
      · rw [if_pos hi] at hloop
        cases hslot : t.slot i with
        | none =>
            rw [hslot] at hloop
            obtain ⟨ready, hready⟩ := ih (turn + 1) hloop
            refine ⟨ready, ?_⟩
            rw [Selector.selectLoop, if_pos hi, hslot]
            exact hready
        | some e =>
            obtain ⟨index', place⟩ := e
            rw [hslot] at hloop
            obtain ⟨⟨r, now'⟩, -, hrest⟩ := bind_eq_ok_iff.mp hloop
            dsimp only at hrest
            by_cases hr : r ≠ 0
            · rw [if_pos hr] at hrest
              cases hrest
              refine ⟨fun _ _ => true, ?_⟩
              rw [Selector.selectLoop, if_pos hi, hslot]
              rfl
            · rw [if_neg hr] at hrest
              obtain ⟨ready, hready⟩ := ih (turn + 1) hrest
              -- the answer of this turn put in front of the later ones
              refine ⟨Function.update ready turn fun _ => false, ?_⟩
              rw [Selector.selectLoop, if_pos hi, hslot]
              dsimp only
              rw [Function.update_self, if_neg Bool.false_ne_true, ← hready]
              exact selectLoop_congr fun k hk =>
                Function.update_of_ne (Nat.ne_of_gt hk) _ _
      · rw [if_neg hi] at hloop
        obtain ⟨ready, hready⟩ := ih (turn + 1) hloop
        refine ⟨ready, ?_⟩
        rw [Selector.selectLoop, if_neg hi]
        exact hready

end Loop

/-! ## `select` -/

section Select

variable {w : Wait} {sel sel' : CamioSelector Nat} {start now later : List σ}
  {handed : Nat → List Handed} {which : Nat}

/-- As far as the selector goes, it is a `select` in some surroundings. -/
theorem select_surroundings (h : select I w sel now = .ok (which, sel', later)) :
    ∃ w', sel.select w' = .ok (.returned which sel') := by
  cases sel with
  | spin s =>
      rw [select] at h
      by_cases hzero : s.streamCount = 0
      · rw [if_pos hzero] at h
        cases h
      · rw [if_neg hzero] at h
        obtain ⟨⟨⟨i, index⟩, later'⟩, hloop, hr⟩ := map_eq_ok_iff.mp h
        cases hr
        obtain ⟨ready, hready⟩ := selectLoop_answers 0 hloop
        refine ⟨⟨ready, w.fuel, none⟩, ?_⟩
        rw [CamioSelector.select, camioSelectorSpinSelect, if_neg hzero, hready]
        rfl
  | seq s =>
      rw [select] at h
      obtain ⟨⟨⟨i, index⟩, later'⟩, hloop, hr⟩ := map_eq_ok_iff.mp h
      cases hr
      obtain ⟨ready, hready⟩ := selectLoop_answers 0 hloop
      refine ⟨⟨ready, w.fuel, none⟩, ?_⟩
      rw [CamioSelector.select, camioSelectorSeqSelect, hready]
      rfl
  | poll s =>
      rw [select] at h
      refine ⟨⟨fun _ _ => true, w.fuel, w.poll⟩, ?_⟩
      rw [CamioSelector.select]
      split at h
      next => cases h
      next hselect =>
        cases h
        rw [hselect]
        rfl
      next => cases h
      next => cases h

/-- The inputs are asked, and no more. -/
theorem AllRead.select (h : AllRead I start handed now)
    (hselect : select I w sel now = .ok (which, sel', later)) :
    AllRead I start handed later := by
  cases sel with
  | spin s =>
      rw [Cat.select] at hselect
      split at hselect
      next => cases hselect
      next =>
        obtain ⟨⟨⟨i, index⟩, later'⟩, hloop, hr⟩ := map_eq_ok_iff.mp hselect
        cases hr
        exact h.selectLoop hloop
  | seq s =>
      rw [Cat.select] at hselect
      obtain ⟨⟨⟨i, index⟩, later'⟩, hloop, hr⟩ := map_eq_ok_iff.mp hselect
      cases hr
      exact h.selectLoop hloop
  | poll s =>
      rw [Cat.select] at hselect
      split at hselect
      next => cases hselect
      next =>
        cases hselect
        exact h
      next => cases hselect
      next => cases hselect

end Select

end Camio.Cat
