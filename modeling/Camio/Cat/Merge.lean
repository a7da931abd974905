/-
  Camio.Cat.Merge

  `camio_cat` merges its inputs: whatever order the selector takes them in, the messages that
  are read from one input are read by calls of this input alone, in their order, and every
  output is offered every message, in the order in which they were read.

  An input counts as closed when its `start_read` has returned 0, and is not read again; the
  program ends when all inputs that the selector holds, the first 32, are closed.
-/

import Mathlib.Data.List.Forall2
import Camio.Cat.Entries

namespace Camio.Cat

open Camio.Lib Camio.Selector

/-! ## What was read -/

/-- What input `i` has handed out. -/
def handedOut (read : List (Nat × Handed)) (i : Nat) : List Handed :=
  read.filterMap fun r => if r.1 = i then some r.2 else none

/-- The messages, less the ends of inputs. -/
def messages (read : List (Nat × Handed)) : List Handed :=
  (read.map Prod.snd).filter fun h => h.len ≠ 0

/-- The `start_read` of input `i` has returned 0. -/
def Closed (read : List (Nat × Handed)) (i : Nat) : Prop := ∃ h, (i, h) ∈ read ∧ h.len = 0

section Read

variable {read : List (Nat × Handed)} {i which : Nat} {h : Handed}

theorem handedOut_append :
    handedOut (read ++ [(which, h)])
      = Function.update (handedOut read) which (handedOut read which ++ [h]) := by
  funext i
  by_cases hi : i = which
  · subst hi
    simp [handedOut]
  · simp [handedOut, Function.update_of_ne hi, Ne.symm hi]

theorem messages_append_closing (hlen : h.len = 0) :
    messages (read ++ [(which, h)]) = messages read := by
  simp [messages, hlen]

theorem messages_append_message (hlen : h.len ≠ 0) :
    messages (read ++ [(which, h)]) = messages read ++ [h] := by
  simp [messages, hlen]

theorem closed_append :
    Closed (read ++ [(which, h)]) i ↔ Closed read i ∨ (i = which ∧ h.len = 0) := by
  constructor
  · rintro ⟨g, hg, hlen⟩
    rcases List.mem_append.mp hg with hg | hg
    · exact Or.inl ⟨g, hg, hlen⟩
    · obtain ⟨rfl, rfl⟩ := Prod.mk.inj (List.mem_singleton.mp hg)
      exact Or.inr ⟨rfl, hlen⟩
  · rintro (⟨g, hg, hlen⟩ | ⟨rfl, hlen⟩)
    · exact ⟨g, List.mem_append_left _ hg, hlen⟩
    · exact ⟨h, List.mem_append_right _ List.mem_cons_self, hlen⟩

theorem mem_handedOut : h ∈ handedOut read i ↔ (i, h) ∈ read := by
  rw [handedOut, List.mem_filterMap]
  constructor
  · rintro ⟨⟨j, g⟩, hmem, hg⟩
    dsimp only at hg
    split at hg
    next hj =>
      obtain rfl := Option.some.inj hg
      exact hj ▸ hmem
    next => cases hg
  · exact fun hmem => ⟨(i, h), hmem, if_pos rfl⟩

end Read

/-! ## The outputs -/

/-- From `s` on an output was offered the messages `hs`, and became `t`.  A message that
    `start_write` has no buffer for is lost to it. -/
inductive Offered {τ : Type _} (O : OstreamCalls τ) (s : τ) : List Handed → τ → Prop where
  | start : Offered O s [] s
  | assigned {hs : List Handed} {h : Handed} {t u v : τ} {freeBuff : Option Nat} :
      Offered O s hs t → O.canAssignWrite t ≠ 0 → O.assignWrite t h.out h.len = .ok u →
      O.endWrite u h.len = .ok (freeBuff, v) → Offered O s (hs ++ [h]) v
  | copied {hs : List Handed} {h : Handed} {t u v x : τ} {outBuff : Nat}
      {freeBuff : Option Nat} :
      Offered O s hs t → O.canAssignWrite t = 0 →
      O.startWrite t h.len = .ok (some outBuff, u) → copyOut O u outBuff h.out h.len = .ok v →
      O.endWrite v h.len = .ok (freeBuff, x) → Offered O s (hs ++ [h]) x
  | refused {hs : List Handed} {h : Handed} {t u : τ} :
      Offered O s hs t → O.canAssignWrite t = 0 → O.startWrite t h.len = .ok (none, u) →
      Offered O s (hs ++ [h]) u

/-- Each of the outputs was offered the messages. -/
def AllOffered {τ : Type _} (O : OstreamCalls τ) (start : List τ) (hs : List Handed)
    (now : List τ) : Prop :=
  List.Forall₂ (fun s t => Offered O s hs t) start now

section Outputs

variable {σ τ : Type _} {I : IstreamCalls σ} {O : OstreamCalls τ} {hs ks : List Handed}
  {h : Handed}

theorem Offered.trans {s t u : τ} (h : Offered O s hs t) (h' : Offered O t ks u) :
    Offered O s (hs ++ ks) u := by
  induction h' with
  | start =>
      rw [List.append_nil]
      exact h
  | assigned _ hcan hassign hend ih =>
      rw [← List.append_assoc]
      exact .assigned ih hcan hassign hend
  | copied _ hcan hstart hcopy hend ih =>
      rw [← List.append_assoc]
      exact .copied ih hcan hstart hcopy hend
  | refused _ hcan hstart ih =>
      rw [← List.append_assoc]
      exact .refused ih hcan hstart

theorem allOffered_start (start : List τ) : AllOffered O start [] start :=
  List.forall₂_same.mpr fun _ _ => .start

theorem AllOffered.trans {start now later : List τ} (h : AllOffered O start hs now)
    (h' : AllOffered O now ks later) : AllOffered O start (hs ++ ks) later := by
  unfold AllOffered at h h' ⊢
  induction h generalizing later with
  | nil =>
      cases h'
      exact .nil
  | cons hst _ ih =>
      cases h' with
      | cons htu hrest => exact .cons (hst.trans htu) (ih hrest)

/-- Where the loop over the outputs comes to its end, each of them was offered the message. -/
theorem writeAll_offered (hnull : ∀ t len u, O.assignWrite t none len ≠ .ok u)
    {outs outs' : List τ} {inBuff : Option Mem} {s s' : σ}
    (hbuff : inBuff = h.out ∨ inBuff = none)
    (hwrite : writeAll I O h.len outs inBuff s = .ok (outs', s')) :
    AllOffered O outs [h] outs' ∧ Reads I s [] s' := by
  induction outs generalizing inBuff s outs' with
  | nil =>
      cases hwrite
      exact ⟨.nil, .start⟩
  | cons out outs ih =>
      rw [writeAll] at hwrite
      obtain ⟨⟨inBuff', out₁, given⟩, hgive, hrest⟩ := bind_eq_ok_iff.mp hwrite
      have hoffered : Offered O out [] out := .start
      rw [giveMessage] at hgive
      by_cases hcan : O.canAssignWrite out ≠ 0
      · rw [if_pos hcan] at hgive
        obtain ⟨out₂, hassign, heq⟩ := map_eq_ok_iff.mp hgive
        cases heq
        -- a buffer that was assigned to an output before it is `NULL` now
        have hout : inBuff = h.out := hbuff.resolve_right fun hnone =>
          hnull out h.len out₁ (hnone ▸ hassign)
        obtain ⟨⟨freeBuff, out₃⟩, hend, hrest⟩ := bind_eq_ok_iff.mp hrest
        obtain ⟨⟨r, s₁⟩, hread, hrest⟩ := bind_eq_ok_iff.mp hrest
        obtain ⟨⟨outs₁, s₂⟩, hwrite', heq⟩ := map_eq_ok_iff.mp hrest
        cases heq
        obtain ⟨hothers, hreads⟩ := ih (Or.inr rfl) hwrite'
        rw [hout] at hassign
        exact ⟨.cons (.assigned hoffered hcan hassign hend) hothers,
          (Reads.endRead .start hread).trans hreads⟩
      · rw [if_neg hcan] at hgive
        rw [not_not] at hcan
        obtain ⟨⟨outBuff, out₂⟩, hstart, hgive⟩ := bind_eq_ok_iff.mp hgive
        cases outBuff with
        | none =>
            cases hgive
            obtain ⟨⟨outs₁, s₁⟩, hwrite', heq⟩ := map_eq_ok_iff.mp hrest
            cases heq
            obtain ⟨hothers, hreads⟩ := ih hbuff hwrite'
            exact ⟨.cons (.refused hoffered hcan hstart) hothers, hreads⟩
        | some outBuff =>
            obtain ⟨out₃, hcopy, heq⟩ := map_eq_ok_iff.mp hgive
            cases heq
            have hout : inBuff = h.out := hbuff.resolve_right fun hnone => by
              rw [hnone] at hcopy
              cases hcopy
            obtain ⟨⟨freeBuff, out₄⟩, hend, hrest⟩ := bind_eq_ok_iff.mp hrest
            obtain ⟨⟨r, s₁⟩, hread, hrest⟩ := bind_eq_ok_iff.mp hrest
            obtain ⟨⟨outs₁, s₂⟩, hwrite', heq⟩ := map_eq_ok_iff.mp hrest
            cases heq
            obtain ⟨hothers, hreads⟩ := ih (Or.inl hout) hwrite'
            rw [hout] at hcopy
            exact ⟨.cons (.copied hoffered hcan hstart hcopy hend) hothers,
              (Reads.endRead .start hread).trans hreads⟩

end Outputs

/-! ## A turn -/

section Turns

variable {σ τ : Type _} {I : IstreamCalls σ} {O : OstreamCalls τ} {w : Wait}
  {c c' : CamioCat σ τ} {which : Nat} {h : Handed}

/-- What a turn does: the selected input is read; it is removed if it has handed out no
    bytes, and what it has handed out is written otherwise. -/
theorem turn_spec (hturn : turn I O w c = .ok ((which, h), c')) :
    ∃ sel istreams s t, select I w c.selector c.istreams = .ok (which, sel, istreams) ∧
      istreams[which]? = some s ∧ I.startRead s = .ok (h, t) ∧
      ((h.len = 0 ∧ c' = { c with
          selector := (sel.remove which).2, istreams := istreams.set which t }) ∨
        (h.len ≠ 0 ∧ ∃ outs u, writeAll I O h.len c.ostreams h.out t = .ok (outs, u) ∧
          c' = { selector := sel, istreams := istreams.set which u, ostreams := outs })) := by
  rw [turn] at hturn
  obtain ⟨⟨which', sel, istreams⟩, hselect, hturn⟩ := bind_eq_ok_iff.mp hturn
  dsimp only at hturn
  cases hplace : istreams[which']? with
  | none =>
      rw [hplace] at hturn
      cases hturn
  | some s =>
      rw [hplace] at hturn
      obtain ⟨⟨h', t⟩, hread, hturn⟩ := bind_eq_ok_iff.mp hturn
      dsimp only at hturn
      by_cases hlen : h'.len = 0
      · rw [if_pos hlen] at hturn
        cases hturn
        exact ⟨sel, istreams, s, t, hselect, hplace, hread, Or.inl ⟨hlen, rfl⟩⟩
      · rw [if_neg hlen] at hturn
        obtain ⟨⟨outs, u⟩, hwrite, heq⟩ := map_eq_ok_iff.mp hturn
        cases heq
        exact ⟨sel, istreams, s, t, hselect, hplace, hread, Or.inr ⟨hlen, outs, u, hwrite, rfl⟩⟩

theorem step_spec {s s' : Session σ τ} (hstep : step I O s w = some s') :
    s.cat.selector.count ≠ 0 ∧
      ∃ r c, turn I O w s.cat = .ok (r, c) ∧ s' = { cat := c, read := s.read ++ [r] } := by
  rw [step] at hstep
  by_cases hcount : s.cat.selector.count = 0
  · rw [if_pos hcount] at hstep
    cases hstep
  · rw [if_neg hcount] at hstep
    refine ⟨hcount, ?_⟩
    cases hturn : turn I O w s.cat with
    | error e =>
        rw [hturn] at hstep
        cases hstep
    | ok r =>
        rw [hturn] at hstep
        exact ⟨r.1, r.2, rfl, (Option.some.inj hstep).symm⟩

end Turns

/-! ## Runs -/

section Runs

variable {σ τ : Type _} {I : IstreamCalls σ} {O : OstreamCalls τ} {fd : Nat → Int}
  {sel : CamioSelector Nat} {istreams : List σ} {ostreams : List τ} {c₀ : CamioCat σ τ}
  {s s' : Session σ τ}

/-- The invariant of every run. -/
structure Merging (I : IstreamCalls σ) (O : OstreamCalls τ) (istreams : List σ)
    (ostreams : List τ) (s : Session σ τ) : Prop where
  holding : Holding (min istreams.length maxStreams) (Closed s.read) s.cat.selector
  reads : AllRead I istreams (handedOut s.read) s.cat.istreams
  offered : AllOffered O ostreams (messages s.read) s.cat.ostreams
  inputs : ∀ i h, (i, h) ∈ s.read → i < min istreams.length maxStreams
  closings : ∀ i, ∀ h ∈ (handedOut s.read i).dropLast, h.len ≠ 0

theorem merging_start (hsel : Fresh sel) (hstart : start fd sel istreams ostreams = .ok c₀) :
    Merging I O istreams ostreams { cat := c₀, read := [] } := by
  obtain ⟨sel', hinsert, hc⟩ := map_eq_ok_iff.mp hstart
  subst hc
  have hfresh : Holding (min 0 maxStreams) (fun _ => False) sel := holding_fresh hsel
  obtain ⟨sel'', hinsert', hholding⟩ :=
    @insertInputs_holding sel fd istreams.length 0 hfresh
  obtain rfl := Except.ok.inj (hinsert.symm.trans hinsert')
  rw [Nat.zero_add] at hholding
  have hopen : Closed [] = fun _ => False := by
    funext i
    simp [Closed]
  exact ⟨hopen ▸ hholding, allRead_start _, allOffered_start _, by simp, by simp [handedOut]⟩

/-- Nothing is read from an input once it is closed. -/
theorem Merging.dropLast (h : Merging I O istreams ostreams s) {which : Nat}
    (hopen : ¬ Closed s.read which) (g : Handed) (i : Nat) :
    ∀ h ∈ (handedOut (s.read ++ [(which, g)]) i).dropLast, h.len ≠ 0 := by
  rw [handedOut_append]
  by_cases hi : i = which
  · subst hi
    rw [Function.update_self, List.dropLast_concat]
    intro h' hmem hlen
    exact hopen ⟨h', mem_handedOut.mp hmem, hlen⟩
  · rw [Function.update_of_ne hi]
    exact h.closings i

theorem Merging.step (hnull : ∀ t len u, O.assignWrite t none len ≠ .ok u)
    (hsize : istreams.length < 2 ^ 64) {w : Wait} (h : Merging I O istreams ostreams s)
    (hstep : Cat.step I O s w = some s') : Merging I O istreams ostreams s' := by
  obtain ⟨-, ⟨which, g⟩, c, hturn, rfl⟩ := step_spec hstep
  obtain ⟨sel', now, t, u, hselect, hplace, hread, hcase⟩ := turn_spec hturn
  obtain ⟨hholding, hwhich⟩ := h.holding.select hselect
  have hreads := h.reads.select hselect
  -- `~0` is no place of an input
  have hwhich : which < min istreams.length maxStreams ∧ ¬ Closed s.read which := by
    refine hwhich.resolve_right fun hno => ?_
    have hlt := (List.getElem?_eq_some_iff.mp hplace).1
    rw [hreads.length_eq, hno, noIndex] at hlt
    omega
  have hinputs : ∀ i h', (i, h') ∈ s.read ++ [(which, g)] →
      i < min istreams.length maxStreams := by
    intro i h' hmem
    rcases List.mem_append.mp hmem with hmem | hmem
    · exact h.inputs i h' hmem
    · obtain ⟨rfl, rfl⟩ := Prod.mk.inj (List.mem_singleton.mp hmem)
      exact hwhich.1
  rcases hcase with ⟨hlen, rfl⟩ | ⟨hlen, outs, v, hwrite, rfl⟩
  · refine ⟨?_, ?_, ?_, hinputs, h.dropLast hwhich.2 g⟩
    · have hclosed : Closed (s.read ++ [(which, g)]) = fun i => Closed s.read i ∨ i = which := by
        funext i
        rw [closed_append, eq_iff_iff]
        exact or_congr_right (and_iff_left hlen)
      rw [hclosed]
      exact hholding.remove hwhich.1 hwhich.2
    · rw [handedOut_append]
      exact hreads.set hplace (.startRead .start hread)
    · rw [messages_append_closing hlen]
      exact h.offered
  · obtain ⟨hoffered, hquiet⟩ := writeAll_offered hnull (Or.inl rfl) hwrite
    refine ⟨?_, ?_, ?_, hinputs, h.dropLast hwhich.2 g⟩
    · have hclosed : Closed (s.read ++ [(which, g)]) = Closed s.read := by
        funext i
        rw [closed_append, eq_iff_iff]
        exact or_iff_left fun hclose => hlen hclose.2
      rw [hclosed]
      exact hholding
    · rw [handedOut_append]
      exact hreads.set hplace ((Reads.startRead .start hread).trans hquiet)
    · rw [messages_append_message hlen]
      exact h.offered.trans hoffered

/-- In every run, whatever the selector: what was read from input `i` is what calls of this
    input alone have handed out, one after the other, with the end of the input as the last at
    most; every output was offered all messages in the order in which they were read; inputs
    from the 33rd on are never read; and the loop ends exactly when the first 32 inputs are
    closed. -/
theorem copies_merged (hnull : ∀ t len u, O.assignWrite t none len ≠ .ok u)
    (hsize : istreams.length < 2 ^ 64) (hsel : Fresh sel)
    (hstart : start fd sel istreams ostreams = .ok c₀) {ws : List Wait}
    (hrun : run (Cat.step I O) { cat := c₀, read := [] } ws = some s) :
    AllRead I istreams (handedOut s.read) s.cat.istreams ∧
    (∀ i, ∀ h ∈ (handedOut s.read i).dropLast, h.len ≠ 0) ∧
    AllOffered O ostreams (messages s.read) s.cat.ostreams ∧
    (∀ i h, (i, h) ∈ s.read → i < istreams.length ∧ i < 32) ∧
    (s.cat.selector.count = 0 ↔ ∀ i, i < istreams.length → i < 32 → Closed s.read i) := by
  have h : Merging I O istreams ostreams s :=
    run_invariant (Merging I O istreams ostreams) (fun _ _ _ h hstep => h.step hnull hsize hstep)
      (merging_start hsel hstart) hrun
  refine ⟨h.reads, h.closings, h.offered, fun i h' hmem => Nat.lt_min.mp (h.inputs i h' hmem), ?_⟩
  rw [h.holding.count_eq_zero_iff]
  exact ⟨fun hall i hi hi' => hall i (Nat.lt_min.mpr ⟨hi, hi'⟩),
    fun hall i hi => hall i (Nat.lt_min.mp hi).1 (Nat.lt_min.mp hi).2⟩

end Runs

/-- Inputs with so many messages of one byte left. -/
def countdown : IstreamCalls Nat where
  ready n := .ok (1, n)
  startRead n := .ok ({ out := some fun _ => 0, len := min n 1 }, n - 1)
  endRead n _ := .ok (0, n)

/-- An output that counts its messages. -/
def tally : OstreamCalls Nat where
  canAssignWrite _ := 1
  assignWrite n buffer _ := if buffer.isSome then .ok n else .error .fault
  startWrite n _ := .ok (none, n)
  store n _ _ := n
  endWrite n _ := .ok (none, n + 1)

/-- Inputs of two messages and of one: the loop ends after five turns. -/
theorem copies_merged_tally :
    ∃ (c₀ : CamioCat Nat Nat) (s : Session Nat Nat),
      start (fun _ => 3) (.spin camioSelectorSpinConstruct) [2, 1] [0] = .ok c₀ ∧
      run (Cat.step countdown tally) { cat := c₀, read := [] }
        (List.replicate 5 { fuel := 4, poll := none }) = some s ∧
      AllRead countdown [2, 1] (handedOut s.read) s.cat.istreams ∧
      (∀ i, ∀ h ∈ (handedOut s.read i).dropLast, h.len ≠ 0) ∧
      AllOffered tally [0] (messages s.read) s.cat.ostreams ∧
      (∀ i h, (i, h) ∈ s.read → i < 2 ∧ i < 32) ∧
      (s.cat.selector.count = 0 ↔ ∀ i, i < 2 → i < 32 → Closed s.read i) ∧
      s.read.map Prod.fst = [1, 0, 1, 0, 0] ∧ s.cat.selector.count = 0 := by
  have hnull : ∀ t len u, tally.assignWrite t none len ≠ .ok u := by
    intro t len u h
    cases h
  refine ⟨_, _, rfl, rfl, ?_⟩
  obtain ⟨hread, hclosings, hoffered, hinputs, hcount⟩ :=
    @copies_merged Nat Nat countdown tally (fun _ => 3) _ [2, 1] [0] _ _ hnull (by decide)
      Fresh.spin rfl (List.replicate 5 { fuel := 4, poll := none }) rfl
  exact ⟨hread, hclosings, hoffered, hinputs, hcount, rfl, rfl⟩

end Camio.Cat
