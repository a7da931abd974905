/-
  Camio.Lib.Assign

  A writer that may be assigned a buffer of its caller's: the assignment stands until
  the next commit, which uses it up, and a later one replaces it.  What stands is read
  off the calls alone, and a writer that keeps it in a field keeps nothing else there.
-/

import Mathlib.Data.List.Induction
import Camio.Lib.ByteMem
import Camio.Lib.Run

namespace Camio.Lib

variable {β : Type _}

/-- What a call of the writer means for the assignment. -/
inductive WriterCall (β : Type _) where
  | assign (buffer : β)
  | commit
  | other

/-- The assignment that stands after the calls. -/
def pendingAfter : Option β → List (WriterCall β) → Option β
  | pending, [] => pending
  | _, .assign buffer :: calls => pendingAfter (some buffer) calls
  | _, .commit :: calls => pendingAfter none calls
  | pending, .other :: calls => pendingAfter pending calls

theorem pendingAfter_append (pending : Option β) (calls more : List (WriterCall β)) :
    pendingAfter pending (calls ++ more) = pendingAfter (pendingAfter pending calls) more := by
  induction calls generalizing pending with
  | nil => rfl
  | cons call calls ih =>
      cases call with
      | assign buffer => exact ih (some buffer)
      | commit => exact ih none
      | other => exact ih pending

/-- Calls that neither assign nor commit leave it standing. -/
theorem pendingAfter_other {pending : Option β} {calls : List (WriterCall β)}
    (h : ∀ call ∈ calls, call = .other) : pendingAfter pending calls = pending := by
  induction calls with
  | nil => rfl
  | cons call calls ih =>
      rw [h call List.mem_cons_self, pendingAfter]
      exact ih fun c hc => h c (List.mem_cons_of_mem call hc)

/-- It is that of the latest assignment, if no commit came after it. -/
theorem pendingAfter_eq_some_iff {calls : List (WriterCall β)} {buffer : β} :
    pendingAfter none calls = some buffer ↔
      ∃ before after, calls = before ++ .assign buffer :: after ∧
        ∀ call ∈ after, call = .other := by
  constructor
  · induction calls using List.reverseRecOn with
    | nil => nofun
    | append_singleton calls call ih =>
        intro h
        rw [pendingAfter_append] at h
        cases call with
        | assign b =>
            obtain rfl := Option.some.inj h
            exact ⟨calls, [], rfl, nofun⟩
        | commit => cases h
        | other =>
            obtain ⟨before, after, rfl, hafter⟩ := ih h
            refine ⟨before, after ++ [.other], by simp, fun call hcall => ?_⟩
            rcases List.mem_append.mp hcall with hcall | hcall
            · exact hafter call hcall
            · exact List.mem_singleton.mp hcall
  · rintro ⟨before, after, rfl, hafter⟩
    rw [pendingAfter_append, pendingAfter]
    exact pendingAfter_other hafter

/-- A field that every step treats so holds what stands. -/
theorem run_pending {σ ε : Type _} {step : σ → ε → Option σ} {assigned : σ → Option β}
    {call : ε → WriterCall β}
    (hstep : ∀ s e s', step s e = some s' → assigned s' = pendingAfter (assigned s) [call e])
    {s t : σ} {es : List ε} (hrun : run step s es = some t) :
    assigned t = pendingAfter (assigned s) (es.map call) := by
  induction es generalizing s with
  | nil =>
      rw [run_nil, Option.some.injEq] at hrun
      rw [hrun]
      rfl
  | cons e es ih =>
      obtain ⟨m, hm, hrest⟩ := run_cons_eq_some.mp hrun
      rw [ih hrest, hstep s e m hm, ← pendingAfter_append, List.map_cons, List.singleton_append]

/-- The bytes that a commit of `len` of them takes: from the buffer that stands assigned,
    from the writer's own place otherwise. -/
def chosen (pending : Option Mem) (own : List UInt8) (len : Nat) : List UInt8 :=
  match pending with
  | some buffer => buffer.read 0 len
  | none => own

end Camio.Lib
