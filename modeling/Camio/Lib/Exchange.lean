/-
  Camio.Lib.Exchange

  A list of places, and what lies in them.  Where the content of one place changes, the
  contents with the old one put back are those from before with the new one added.
-/

import Mathlib.Data.List.Nodup

namespace Camio.Lib

variable {α β : Type _} {f g : α → β} {a : α} {l : List α}

/-- The content of one place is exchanged. -/
theorem exchange_perm (hnodup : l.Nodup) (ha : a ∈ l) (h : ∀ x ∈ l, x ≠ a → g x = f x) :
    (f a :: l.map g).Perm (g a :: l.map f) := by
  obtain ⟨before, after, rfl⟩ := List.append_of_mem ha
  have hnotin := (List.nodup_middle.mp hnodup).notMem
  have hsame : ∀ x ∈ before ++ after, g x = f x := by
    intro x hx
    refine h x ?_ (fun hxa => hnotin (hxa ▸ hx))
    rcases List.mem_append.mp hx with hx | hx
    · exact List.mem_append_left _ hx
    · exact List.mem_append_right _ (List.mem_cons_of_mem _ hx)
  have hbefore : before.map g = before.map f :=
    List.map_congr_left fun x hx => hsame x (List.mem_append_left _ hx)
  have hafter : after.map g = after.map f :=
    List.map_congr_left fun x hx => hsame x (List.mem_append_right _ hx)
  rw [List.map_append, List.map_append, List.map_cons, List.map_cons, hbefore, hafter]
  -- bring the two contents of the place to the front
  calc
    List.Perm (f a :: (before.map f ++ g a :: after.map f))
        (f a :: g a :: (before.map f ++ after.map f)) := List.perm_middle.cons _
    List.Perm _ (g a :: f a :: (before.map f ++ after.map f)) := List.Perm.swap ..
    List.Perm _ (g a :: (before.map f ++ f a :: after.map f)) := List.perm_middle.symm.cons _

/-- Two exchanges that hand an element on: what the first has put back, the second takes. -/
theorem exchange_back {x y : β} {all all' init : List β} (h : (y :: all).Perm (x :: init))
    (hback : (x :: all').Perm (y :: all)) : all'.Perm init :=
  (hback.trans h).cons_inv

end Camio.Lib
