/-
  Camio.Cat.Outputs

  `camio_cat` with several outputs.

  The first output that takes assigned buffers is assigned the message, and `in_buff` is set
  to `NULL` before the next output is looked at.  So nothing behind it gets the message: an
  output that takes assigned buffers is assigned `NULL`, which ends the program, and one that
  copies must have no buffer for it.
-/

import Camio.Cat.LogFiles

namespace Camio.Cat

open Camio.Lib Camio.Selector Camio.Log

variable {σ τ : Type _} {I : IstreamCalls σ} {O : OstreamCalls τ}

/-- With `in_buff` `NULL` the loop gets past an output only if the output has no buffer. -/
theorem writeAll_null (hnull : ∀ t len u, O.assignWrite t none len ≠ .ok u) {len : Nat}
    {outs outs' : List τ} {s s' : σ} (h : writeAll I O len outs none s = .ok (outs', s')) :
    s' = s ∧ ∀ out ∈ outs, O.canAssignWrite out = 0 ∧
      ∃ u, O.startWrite out len = .ok (none, u) := by
  induction outs generalizing outs' with
  | nil =>
      cases h
      exact ⟨rfl, by simp⟩
  | cons out outs ih =>
      rw [writeAll] at h
      obtain ⟨⟨inBuff, out', given⟩, hgive, hrest⟩ := bind_eq_ok_iff.mp h
      rw [giveMessage] at hgive
      by_cases hcan : O.canAssignWrite out ≠ 0
      · rw [if_pos hcan] at hgive
        obtain ⟨u, hassign, -⟩ := map_eq_ok_iff.mp hgive
        exact absurd hassign (hnull out len u)
      · rw [if_neg hcan] at hgive
        rw [not_not] at hcan
        obtain ⟨⟨outBuff, u⟩, hstart, hgive⟩ := bind_eq_ok_iff.mp hgive
        cases outBuff with
        | none =>
            cases hgive
            obtain ⟨⟨outs₁, s₁⟩, hwrite, heq⟩ := map_eq_ok_iff.mp hrest
            cases heq
            obtain ⟨hsame, hothers⟩ := ih hwrite
            exact ⟨hsame, List.forall_mem_cons.mpr ⟨⟨hcan, _, hstart⟩, hothers⟩⟩
        | some outBuff => cases hgive

/-- Where the message gets through, the outputs behind one that takes assigned buffers have
    no buffer for it. -/
theorem writeAll_assigned (hnull : ∀ t len u, O.assignWrite t none len ≠ .ok u) {len : Nat}
    {pre post outs' : List τ} {out : τ} {inBuff : Option Mem} {s s' : σ}
    (hcan : O.canAssignWrite out ≠ 0)
    (h : writeAll I O len (pre ++ out :: post) inBuff s = .ok (outs', s')) :
    ∀ later ∈ post, O.canAssignWrite later = 0 ∧ ∃ u, O.startWrite later len = .ok (none, u) := by
  induction pre generalizing inBuff s s' outs' with
  | nil =>
      rw [List.nil_append, writeAll] at h
      obtain ⟨⟨inBuff', out', given⟩, hgive, hrest⟩ := bind_eq_ok_iff.mp h
      rw [giveMessage, if_pos hcan] at hgive
      obtain ⟨u, -, heq⟩ := map_eq_ok_iff.mp hgive
      cases heq
      obtain ⟨⟨freeBuff, out''⟩, -, hrest⟩ := bind_eq_ok_iff.mp hrest
      obtain ⟨⟨r, s₁⟩, -, hrest⟩ := bind_eq_ok_iff.mp hrest
      obtain ⟨⟨outs₁, s₂⟩, hwrite, -⟩ := map_eq_ok_iff.mp hrest
      exact (writeAll_null hnull hwrite).2
  -- whatever becomes of an earlier output, `in_buff` is `NULL` or as it was
  | cons first pre ih =>
      rw [List.cons_append, writeAll] at h
      obtain ⟨⟨inBuff', out', given⟩, -, hrest⟩ := bind_eq_ok_iff.mp h
      cases given with
      | false =>
          obtain ⟨⟨outs₁, s₁⟩, hwrite, -⟩ := map_eq_ok_iff.mp hrest
          exact ih hwrite
      | true =>
          obtain ⟨⟨freeBuff, out''⟩, -, hrest⟩ := bind_eq_ok_iff.mp hrest
          obtain ⟨⟨r, s₁⟩, -, hrest⟩ := bind_eq_ok_iff.mp hrest
          obtain ⟨⟨outs₁, s₂⟩, hwrite, -⟩ := map_eq_ok_iff.mp hrest
          exact ih hwrite

/-! ## Runs -/

/-- What a run keeps whose outputs all take assigned buffers. -/
structure Silent (ostreams : List τ) (s : Session σ τ) : Prop where
  messages : messages s.read = []
  ostreams : s.cat.ostreams = ostreams

/-- A turn that comes to its end has read no message. -/
theorem len_eq_zero_of_turn (hassign : ∀ t, O.canAssignWrite t ≠ 0)
    (hnull : ∀ t len u, O.assignWrite t none len ≠ .ok u) {w : Wait} {c c' : CamioCat σ τ}
    {which : Nat} {h : Handed} (htwo : 2 ≤ c.ostreams.length)
    (hturn : turn I O w c = .ok ((which, h), c')) :
    h.len = 0 ∧ c'.ostreams = c.ostreams := by
  obtain ⟨sel, istreams, s, t, -, -, -, ⟨hlen, rfl⟩ | ⟨hlen, outs, u, hwrite, rfl⟩⟩ :=
    turn_spec hturn
  · exact ⟨hlen, rfl⟩
  · match houts : c.ostreams, htwo with
    | first :: second :: others, _ =>
        rw [houts] at hwrite
        -- the first output was assigned `in_buff`, so the second one gets `NULL`
        have hlater := @writeAll_assigned σ τ I O hnull h.len [] (second :: others) outs first _
          t u (hassign first) hwrite second List.mem_cons_self
        exact absurd hlater.1 (hassign second)

/-- With two or more outputs, all of which take assigned buffers, nothing gets past the first
    one: in every run inputs come to their end, and nothing else; the turn that reads the
    first message ends the program, when the first output has been given it. -/
theorem nothing_past_first_output (hassign : ∀ t, O.canAssignWrite t ≠ 0)
    (hnull : ∀ t len u, O.assignWrite t none len ≠ .ok u) {c₀ : CamioCat σ τ}
    (htwo : 2 ≤ c₀.ostreams.length) {ws : List Wait} {s : Session σ τ}
    (hrun : run (Cat.step I O) { cat := c₀, read := [] } ws = some s) :
    messages s.read = [] ∧ s.cat.ostreams = c₀.ostreams ∧
      ∀ w which h c, turn I O w s.cat = .ok ((which, h), c) → h.len = 0 := by
  have hsilent : Silent c₀.ostreams s := by
    refine run_invariant (Silent c₀.ostreams) (fun s w s' hs hstep => ?_) ⟨rfl, rfl⟩ hrun
    obtain ⟨-, ⟨which, h⟩, c, hturn, rfl⟩ := step_spec hstep
    have htwo' : 2 ≤ s.cat.ostreams.length := hs.ostreams.symm ▸ htwo
    obtain ⟨hlen, houts⟩ := len_eq_zero_of_turn hassign hnull htwo' hturn
    refine ⟨?_, houts.trans hs.ostreams⟩
    rw [messages_append_closing hlen]
    exact hs.messages
  refine ⟨hsilent.messages, hsilent.ostreams, fun w which h c hturn => ?_⟩
  have htwo' : 2 ≤ s.cat.ostreams.length := hsilent.ostreams.symm ▸ htwo
  exact (len_eq_zero_of_turn hassign hnull htwo' hturn).1

/-- `c\n` to two log files. -/
theorem nothing_past_first_output_demo :
    ∃ (c₀ : CamioCat LogIstream LogOstream),
      start (fun _ => 3) (.spin camioSelectorSpinConstruct) [demoC.istream]
        [(writeInitWith false 64 zeroed ⟨[], []⟩).stream,
          (writeInitWith false 64 zeroed ⟨[], []⟩).stream] = .ok c₀ ∧
      ∀ w which h c, turn (logIstream .inPlace) (logOstream .inPlace) w c₀
        = .ok ((which, h), c) → h.len = 0 := by
  have hassign : ∀ t, (logOstream .inPlace).canAssignWrite t ≠ 0 := fun _ => Nat.one_ne_zero
  have hnull : ∀ t len u, (logOstream .inPlace).assignWrite t none len ≠ .ok u := by
    intro t len u h
    cases h
  have hstart : start (fun _ => 3) (.spin camioSelectorSpinConstruct) [demoC.istream]
      [(writeInitWith false 64 zeroed ⟨[], []⟩).stream,
        (writeInitWith false 64 zeroed ⟨[], []⟩).stream] = .ok _ := rfl
  refine ⟨_, hstart, ?_⟩
  exact (@nothing_past_first_output _ _ (logIstream .inPlace) _ hassign hnull _
    (by exact Nat.le_refl 2) [] _ rfl).2.2

end Camio.Cat
