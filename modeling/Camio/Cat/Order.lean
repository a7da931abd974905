/-
  Camio.Cat.Order

  In which order `camio_cat` copies, where its inputs are always ready (files are) and its one
  output takes all it is given.

  Each input is a queue of messages up to its first empty one: `start_read` returns 0 for it
  as it does at the end.  With the seq selector the queues are copied one after the other.
  With the spin selector they take turns, and input 1 is the first: `last` is 0 before
  anything was selected.
-/

import Mathlib.Data.List.Rotate
import Camio.Cat.Merge
import Camio.Lib.Service

namespace Camio.Cat

open Camio.Lib Camio.Selector

/-! ## Streams that are always ready -/

/-- `holds s q`: calls of the stream will hand out `q`. -/
structure Delivers {σ : Type _} (I : IstreamCalls σ) (holds : σ → List (List UInt8) → Prop) :
    Prop where
  ready : ∀ {s q}, holds s q → ∃ r t, I.ready s = .ok (r, t) ∧ r ≠ 0 ∧ holds t q
  startRead : ∀ {s q}, holds s q → ∃ h t, I.startRead s = .ok (h, t) ∧ h.len < 2 ^ 64 ∧
    h.len = (q.headD []).length ∧ h.message = q.headD [] ∧ holds t q.tail
  endRead : ∀ {s q}, holds s q → ∀ freeBuff, ∃ r t, I.endRead s freeBuff = .ok (r, t) ∧ holds t q

/-- `taken t ms`: the stream has taken `ms`. -/
structure Takes {τ : Type _} (O : OstreamCalls τ) (taken : τ → List (List UInt8) → Prop) :
    Prop where
  take : ∀ {t ms len}, taken t ms → len ≠ 0 → len < 2 ^ 64 → ∀ buffer : Mem,
    ∃ inBuff u freeBuff v, giveMessage O t (some buffer) len = .ok (inBuff, u, true) ∧
      O.endWrite u len = .ok (freeBuff, v) ∧ taken v (ms ++ [buffer.read 0 len])

/-! ## The entries in the order in which they are asked -/

/-- The entries that hold an input, from entry `first` on and round. -/
def entriesFrom (t : Streams Nat) (first : Nat) : List Nat :=
  ((List.range t.streamCount).rotate first).filter fun i => (t.slot i).isSome

section Entries

variable {t : Streams Nat} {first i : Nat} {rest : List Nat}

theorem nodup_entriesFrom (t : Streams Nat) (first : Nat) : (entriesFrom t first).Nodup :=
  (List.nodup_rotate.mpr List.nodup_range).filter _

theorem mem_entriesFrom :
    i ∈ entriesFrom t first ↔ i < t.streamCount ∧ (t.slot i).isSome = true := by
  rw [entriesFrom, List.mem_filter, List.mem_rotate, List.mem_range]

/-- The first of them comes behind entries that are empty; seen from behind it, it is the
    last. -/
theorem entriesFrom_cons (h : entriesFrom t first = i :: rest) :
    ∃ j < t.streamCount, i = (first + j) % t.streamCount ∧
      (∀ m < j, t.slot ((first + m) % t.streamCount) = none) ∧
      entriesFrom t (i + 1) = rest ++ [i] := by
  obtain ⟨pre, post, hsplit, hpre, hi, rfl⟩ := List.filter_eq_cons_iff.mp h
  have hlength : pre.length < t.streamCount := by
    have hlen := congrArg List.length hsplit
    simp only [List.length_rotate, List.length_range, List.length_append, List.length_cons] at hlen
    omega
  have hget : ∀ m < t.streamCount,
      ((List.range t.streamCount).rotate first)[m]? = some ((first + m) % t.streamCount) := by
    intro m hm
    have hlt : (m + first) % t.streamCount < t.streamCount := Nat.mod_lt _ (by omega)
    rw [List.getElem?_rotate (by simpa using hm), List.length_range, List.getElem?_range hlt,
      Nat.add_comm]
  have hi' : i = (first + pre.length) % t.streamCount := by
    have hentry := hget pre.length hlength
    rw [hsplit, List.getElem?_append_right (Nat.le_refl _), Nat.sub_self] at hentry
    exact Option.some.inj hentry
  refine ⟨pre.length, hlength, hi', fun m hm => ?_, ?_⟩
  · have hentry := hget m (Nat.lt_trans hm hlength)
    rw [hsplit, List.getElem?_append_left hm] at hentry
    have hempty := hpre _ (List.mem_of_getElem? hentry)
    simpa using hempty
  · -- rotated behind it, the entries before it come last but one
    have hturn : (List.range t.streamCount).rotate (i + 1)
        = ((List.range t.streamCount).rotate first).rotate (pre ++ [i]).length := by
      rw [List.rotate_rotate, ← List.rotate_mod, ← List.rotate_mod _ (first + _), hi']
      simp only [List.length_range, List.length_append, List.length_cons, List.length_nil,
        Nat.zero_add]
      rw [Nat.mod_add_mod, Nat.add_assoc]
    have hnone : pre.filter (fun i => (t.slot i).isSome) = [] := by
      rw [List.filter_eq_nil_iff]
      exact hpre
    have hself : [i].filter (fun i => (t.slot i).isSome) = [i] := by simp [hi]
    rw [entriesFrom, hturn, hsplit, List.append_cons, List.rotate_append_length_eq,
      List.filter_append, List.filter_append, hnone, hself, List.nil_append]

/-- Clearing an entry takes it out. -/
theorem entriesFrom_clearEntry (i : Fin maxStreams) :
    entriesFrom (clearEntry t i) first = (entriesFrom t first).filter fun j => j ≠ i.val := by
  rw [entriesFrom, entriesFrom, slot_clearEntry, List.filter_filter]
  refine List.filter_congr fun j _ => ?_
  by_cases hj : j = i.val
  · simp [hj]
  · simp [hj]

end Entries

/-! ## The loop of `select` -/

section Loop

variable {σ : Type _} {I : IstreamCalls σ} {t : Streams Nat} {istreams later : List σ}
  {index place r : Nat}

/-- It passes empty entries, one turn for each and one for going round. -/
theorem selectLoop_reach {j p fuel : Nat} (hp : p < t.streamCount)
    (hempty : ∀ m < j, t.slot ((p + m) % t.streamCount) = none)
    (hslot : t.slot ((p + j) % t.streamCount) = some (index, place))
    (hask : askReady I istreams place = .ok (r, later)) (hr : r ≠ 0)
    (hfuel : j + (p + j) / t.streamCount < fuel) :
    selectLoop I t fuel p istreams = .ok (((p + j) % t.streamCount, index), later) := by
  have hpos : 0 < t.streamCount := Nat.lt_of_le_of_lt (Nat.zero_le p) hp
  induction j generalizing p fuel with
  | zero =>
      have hself : (p + 0) % t.streamCount = p := Nat.mod_eq_of_lt hp
      rw [hself] at hslot ⊢
      obtain ⟨fuel, rfl⟩ := Nat.exists_eq_succ_of_ne_zero (Nat.ne_zero_of_lt hfuel)
      rw [selectLoop, if_pos hp, hslot]
      dsimp only
      rw [hask]
      exact if_pos hr
  | succ j ih =>
      have hnone : t.slot p = none := by
        have hfirst := hempty 0 (Nat.succ_pos j)
        rwa [Nat.add_zero, Nat.mod_eq_of_lt hp] at hfirst
      have hnext : ∀ m, p + (m + 1) = p + 1 + m := fun m => by omega
      have hempty' : ∀ m < j, t.slot ((p + 1 + m) % t.streamCount) = none := fun m hm =>
        hnext m ▸ hempty (m + 1) (Nat.succ_lt_succ hm)
      rw [hnext] at hslot hfuel ⊢
      obtain ⟨fuel, rfl⟩ := Nat.exists_eq_succ_of_ne_zero (Nat.ne_zero_of_lt hfuel)
      rw [selectLoop, if_pos hp, hnone]
      dsimp only
      by_cases hend : p + 1 < t.streamCount
      · exact ih hend hempty' hslot (by omega)
      · -- behind the last entry it goes round
        have hround : p + 1 = t.streamCount := by omega
        rw [hround, Nat.add_div_left _ hpos] at hfuel
        rw [hround] at hslot hempty' ⊢
        simp only [Nat.add_mod_left] at hslot hempty' ⊢
        have hfuel : j + 1 + j / t.streamCount < fuel := by omega
        obtain ⟨fuel, rfl⟩ := Nat.exists_eq_succ_of_ne_zero (Nat.ne_zero_of_lt hfuel)
        rw [selectLoop, if_neg (Nat.lt_irrefl _)]
        have hzero := @ih 0 fuel hpos
        simp only [Nat.zero_add] at hzero
        exact hzero hempty' hslot (by omega)

end Loop

/-! ## `select` -/

section Select

variable {σ : Type _} {I : IstreamCalls σ} {k : Nat} {closed : Nat → Prop}
  {sel : CamioSelector Nat} {istreams : List σ} {w : Wait} {i : Nat}

/-- How a selector serves queues: its discipline, and the inputs in the order in which it asks
    them. -/
inductive Asks : CamioSelector Nat → Discipline Nat (List UInt8) → List Nat → Prop where
  | spin (s : SelectorSpin Nat) : Asks (.spin s) roundRobin (entriesFrom s.toStreams (s.last + 1))
  | seq (s : SelectorSeq Nat) : Asks (.seq s) inOrder (entriesFrom s.toStreams 0)

variable {d : Discipline Nat (List UInt8)} {ms : List (List UInt8)}
  {qs : List (Nat × List (List UInt8))}

theorem Asks.nodup {l : List Nat} (h : Asks sel d l) : l.Nodup := by
  cases h with
  | spin s => exact nodup_entriesFrom _ _
  | seq s => exact nodup_entriesFrom _ _

theorem Asks.mem_iff {l : List Nat} (h : Asks sel d l) :
    i ∈ l ↔ i < sel.toStreams.streamCount ∧ (sel.toStreams.slot i).isSome = true := by
  cases h with
  | spin s => exact mem_entriesFrom
  | seq s => exact mem_entriesFrom

/-- Nothing is left to ask exactly if the selector holds nothing. -/
theorem Asks.eq_nil_iff {l : List Nat} (h : Asks sel d l) (hholding : Holding k closed sel) :
    l = [] ↔ sel.count = 0 := by
  rw [hholding.count_eq_zero_iff, List.eq_nil_iff_forall_not_mem]
  constructor
  · intro hnone j hj
    by_contra hopen
    refine hnone j (h.mem_iff.mpr ⟨hholding.count.symm ▸ hj, ?_⟩)
    rw [hholding.live j hj hopen]
    rfl
  · intro hclosed j hj
    obtain ⟨hlt, hslot⟩ := h.mem_iff.mp hj
    rw [hholding.gone j (hclosed j (hholding.count ▸ hlt))] at hslot
    exact Bool.false_ne_true hslot

/-- The first input that is asked, if it is ready, is selected. -/
theorem Asks.select (h : Asks sel d (i :: qs.map Prod.fst)) (ms : List (List UInt8))
    (hholding : Holding k closed sel)
    (hfuel : maxStreams < w.fuel) {s t : σ} {r : Nat} (hplace : istreams[i]? = some s)
    (hready : I.ready s = .ok (r, t)) (hr : r ≠ 0) :
    ∃ sel', select I w sel istreams = .ok (i, sel', istreams.set i t) ∧
      Asks sel' d ((d.putBack (i, ms) qs).map Prod.fst) := by
  have hask : askReady I istreams i = .ok (r, istreams.set i t) := by
    simp only [askReady, hplace, hready]
    rfl
  have hle : sel.toStreams.streamCount ≤ maxStreams := hholding.count ▸ hholding.le
  obtain ⟨⟨index, place⟩, hslot⟩ := Option.isSome_iff_exists.mp (h.mem_iff.mp List.mem_cons_self).2
  obtain ⟨-, -, hindex, hinput⟩ := hholding.of_slot hslot
  rw [hindex, hinput] at hslot
  -- one round is enough to get there
  have hreach : ∀ j p, p < sel.toStreams.streamCount → j < sel.toStreams.streamCount →
      j + (p + j) / sel.toStreams.streamCount < w.fuel := by
    intro j p hp hj
    have hround : (p + j) / sel.toStreams.streamCount < 2 := Nat.div_lt_of_lt_mul (by omega)
    omega
  generalize hl : i :: qs.map Prod.fst = l at h
  cases h with
  | spin s =>
      obtain ⟨j, hj, hi, hempty, hlast⟩ := entriesFrom_cons hl.symm
      have hpos : 0 < s.streamCount := Nat.zero_lt_of_lt hj
      have hp : (s.last + 1) % s.streamCount < s.streamCount := Nat.mod_lt _ hpos
      have hi' : ((s.last + 1) % s.streamCount + j) % s.streamCount = i := by
        rw [Nat.mod_add_mod]
        exact hi.symm
      have hslot' : s.slot (((s.last + 1) % s.streamCount + j) % s.streamCount) = some (i, i) := by
        rw [hi']
        exact hslot
      have hloop := selectLoop_reach (I := I) (t := s.toStreams) hp
        (fun m hm => by rw [Nat.mod_add_mod]; exact hempty m hm) hslot' hask hr (hreach j _ hp hj)
      refine ⟨.spin { s with last := i }, ?_, ?_⟩
      · rw [Cat.select, if_neg (Nat.ne_of_gt hpos), hloop, hi']
        rfl
      · rw [roundRobin, List.map_append, List.map_singleton, ← hlast]
        exact .spin { s with last := i }
  | seq s =>
      obtain ⟨j, hj, hi, hempty, -⟩ := entriesFrom_cons hl.symm
      have hpos : 0 < s.streamCount := Nat.zero_lt_of_lt hj
      have hslot' : s.slot ((0 + j) % s.streamCount) = some (i, i) := by
        rw [← hi]
        exact hslot
      have hloop := selectLoop_reach (I := I) (t := s.toStreams) hpos hempty hslot' hask hr
        (hreach j 0 hpos hj)
      refine ⟨.seq s, ?_, ?_⟩
      · rw [Cat.select, hloop, ← hi]
        rfl
      · rw [inOrder, List.map_cons, hl]
        exact .seq s

/-- An input that is removed is not asked any more. -/
theorem Asks.remove (h : Asks sel d ((d.putBack (i, ms) qs).map Prod.fst))
    (hholding : Holding k closed sel) (hi : i < k) : Asks (sel.remove i).2 d (qs.map Prod.fst) := by
  have hfind := hholding.findIndex hi
  have hfilter : ((d.putBack (i, ms) qs).map Prod.fst).filter (fun j => j ≠ i)
      = qs.map Prod.fst := by
    obtain ⟨pre, post, hqs, hput⟩ := d.among (i, ms) qs
    have hnodup := h.nodup
    rw [hput, List.map_append, List.map_cons] at hnodup ⊢
    have hpre : i ∉ pre.map Prod.fst := fun hmem =>
      (List.disjoint_of_nodup_append hnodup) hmem List.mem_cons_self
    have hpost : i ∉ post.map Prod.fst :=
      (List.nodup_cons.mp (List.Nodup.of_append_right hnodup)).1
    -- the others stay in their order
    have hkeep : ∀ l : List Nat, i ∉ l → l.filter (fun j => j ≠ i) = l := fun l hl =>
      List.filter_eq_self.mpr fun j hj => decide_eq_true fun heq : j = i => hl (heq ▸ hj)
    rw [hqs, List.map_append, List.filter_append, List.filter_cons_of_neg (by simp),
      hkeep _ hpre, hkeep _ hpost]
  generalize hl : (d.putBack (i, ms) qs).map Prod.fst = l at h hfilter
  rw [← hfilter]
  cases h with
  | spin s =>
      rw [← entriesFrom_clearEntry ⟨i, Nat.lt_of_lt_of_le hi hholding.le⟩, CamioSelector.remove,
        camioSelectorSpinRemove, show findIndex s.toStreams i = _ from hfind]
      exact .spin _
  | seq s =>
      rw [← entriesFrom_clearEntry ⟨i, Nat.lt_of_lt_of_le hi hholding.le⟩, CamioSelector.remove,
        camioSelectorSeqRemove, show findIndex s.toStreams i = _ from hfind]
      exact .seq _

end Select

/-! ## A turn -/

section Turns

variable {σ τ : Type _} {I : IstreamCalls σ} {O : OstreamCalls τ}
  {holds : σ → List (List UInt8) → Prop} {taken : τ → List (List UInt8) → Prop}
  {d : Discipline Nat (List UInt8)} {k : Nat} {qs : List (Nat × List (List UInt8))}
  {done : List (Nat × List UInt8)} {s : Session σ τ} {w : Wait}

/-- What was copied, each message with its input. -/
def copied (read : List (Nat × Handed)) : List (Nat × List UInt8) :=
  (read.filter fun r => r.2.len ≠ 0).map fun r => (r.1, r.2.message)

/-- The messages in front of the first empty one. -/
def upToEmpty (ms : List (List UInt8)) : List (List UInt8) := ms.takeWhile fun m => m ≠ []

theorem upToEmpty_eq_nil {ms : List (List UInt8)} (h : upToEmpty ms = []) : ms.headD [] = [] := by
  cases ms with
  | nil => rfl
  | cons m ms =>
      by_contra hm
      rw [upToEmpty, List.takeWhile_cons_of_pos (by simpa using hm)] at h
      cases h

theorem upToEmpty_eq_cons {ms ms' : List (List UInt8)} {m : List UInt8}
    (h : upToEmpty ms = m :: ms') : m ≠ [] ∧ ms.headD [] = m ∧ upToEmpty ms.tail = ms' := by
  cases ms with
  | nil => cases h
  | cons m' ms =>
      by_cases hm : m' = []
      · rw [upToEmpty, List.takeWhile_cons_of_neg (by simpa using hm)] at h
        cases h
      · rw [upToEmpty, List.takeWhile_cons_of_pos (by simpa using hm)] at h
        cases h
        exact ⟨hm, rfl, rfl⟩

/-- Each queue is what its input still has, up to the first empty message. -/
def Queued (holds : σ → List (List UInt8) → Prop) (istreams : List σ)
    (qs : List (Nat × List (List UInt8))) : Prop :=
  ∀ q ∈ qs, ∃ input ms, istreams[q.1]? = some input ∧ holds input ms ∧ q.2 = upToEmpty ms

/-- The invariant: `done` was copied, and `qs` is still to be. -/
structure InTurn (holds : σ → List (List UInt8) → Prop) (taken : τ → List (List UInt8) → Prop)
    (d : Discipline Nat (List UInt8)) (k : Nat) (qs : List (Nat × List (List UInt8)))
    (done : List (Nat × List UInt8)) (s : Session σ τ) : Prop where
  holding : ∃ closed, Holding k closed s.cat.selector
  asks : Asks s.cat.selector d (qs.map Prod.fst)
  queued : Queued holds s.cat.istreams qs
  written : ∃ out, s.cat.ostreams = [out] ∧ taken out (done.map Prod.snd)
  copied : copied s.read = done

/-- The other inputs are left alone. -/
theorem Queued.set {istreams : List σ} (h : Queued holds istreams qs) {i : Nat}
    (hi : i ∉ qs.map Prod.fst) (t : σ) : Queued holds (istreams.set i t) qs := by
  intro q hq
  obtain ⟨input, ms, hplace, hrest⟩ := h q hq
  have hne : i ≠ q.1 := fun heq => hi (heq ▸ List.mem_map_of_mem hq)
  refine ⟨input, ms, ?_, hrest⟩
  rw [List.getElem?_set_ne hne]
  exact hplace

theorem InTurn.count_ne_zero {q : Nat × List (List UInt8)}
    (h : InTurn holds taken d k (q :: qs) done s) : s.cat.selector.count ≠ 0 := by
  obtain ⟨closed, hholding⟩ := h.holding
  intro hzero
  cases (h.asks.eq_nil_iff hholding).mpr hzero

/-- The input in front is selected and read. -/
theorem InTurn.read (hI : Delivers I holds) {i : Nat} {ms : List (List UInt8)}
    (h : InTurn holds taken d k ((i, ms) :: qs) done s) (hfuel : maxStreams < w.fuel) :
    ∃ sel' input q g t, select I w s.cat.selector s.cat.istreams
        = .ok (i, sel', s.cat.istreams.set i input) ∧
      (s.cat.istreams.set i input)[i]? = some input ∧ I.startRead input = .ok (g, t) ∧
      ms = upToEmpty q ∧ g.len < 2 ^ 64 ∧ g.len = (q.headD []).length ∧
      g.message = q.headD [] ∧ holds t q.tail ∧
      (∃ closed, Holding k closed sel' ∧ i < k ∧ ¬ closed i) ∧
      ∀ ms', Asks sel' d ((d.putBack (i, ms') qs).map Prod.fst) := by
  obtain ⟨closed, hholding⟩ := h.holding
  obtain ⟨s₀, q, hplace, hholds, hms⟩ := h.queued (i, ms) List.mem_cons_self
  obtain ⟨r, input, hready, hr, hholds⟩ := hI.ready hholds
  obtain ⟨g, t, hread, hlt, hlen, hmessage, htail⟩ := hI.startRead hholds
  obtain ⟨-, hslot⟩ := h.asks.mem_iff.mp List.mem_cons_self
  obtain ⟨⟨index, place⟩, hslot⟩ := Option.isSome_iff_exists.mp hslot
  obtain ⟨hk, hopen, -⟩ := hholding.of_slot hslot
  have hselect := fun ms' => h.asks.select ms' hholding hfuel hplace hready hr
  obtain ⟨sel', hselected, hasks⟩ := hselect []
  have hin : i < s.cat.istreams.length := (List.getElem?_eq_some_iff.mp hplace).1
  refine ⟨sel', input, q, g, t, hselected, List.getElem?_set_self hin, hread, hms, hlt, hlen,
    hmessage, htail, ⟨closed, (hholding.select hselected).1, hk, hopen⟩, fun ms' => ?_⟩
  obtain ⟨sel'', hselected', hasks'⟩ := hselect ms'
  rw [hselected] at hselected'
  cases hselected'
  exact hasks'

/-- An input with nothing left is removed. -/
theorem InTurn.drop (hI : Delivers I holds) {i : Nat}
    (h : InTurn holds taken d k ((i, []) :: qs) done s) (hfuel : maxStreams < w.fuel) :
    ∃ s', Cat.step I O s w = some s' ∧ InTurn holds taken d k qs done s' := by
  have hcount : s.cat.selector.count ≠ 0 := h.count_ne_zero
  obtain ⟨sel', input, q, g, t, hselect, hplace, hread, hms, -, hlen, -, -, hholding, hasks⟩ :=
    h.read hI hfuel
  obtain ⟨closed, hholding, hk, hopen⟩ := hholding
  have hzero : g.len = 0 := by rw [hlen, upToEmpty_eq_nil hms.symm, List.length_nil]
  have hturn : turn I O w s.cat = .ok ((i, g), { s.cat with
      selector := (sel'.remove i).2, istreams := (s.cat.istreams.set i input).set i t }) := by
    simp only [turn, hselect, Except.bind, hplace, hread, if_pos hzero]
  have hnot : i ∉ qs.map Prod.fst := (List.nodup_cons.mp h.asks.nodup).1
  refine ⟨_, by rw [Cat.step, if_neg hcount, hturn],
    ⟨⟨_, hholding.remove hk hopen⟩, ?_, ?_, ?_, ?_⟩⟩
  · exact (hasks []).remove hholding hk
  · have hrest : Queued holds s.cat.istreams qs := fun q hq =>
      h.queued q (List.mem_cons_of_mem _ hq)
    exact (hrest.set hnot input).set hnot t
  · exact h.written
  · rw [Cat.copied, List.filter_append, List.map_append,
      List.filter_cons_of_neg (by simpa using hzero)]
    simpa [Cat.copied] using h.copied

/-- A message is copied. -/
theorem InTurn.serve (hI : Delivers I holds) (hO : Takes O taken) {i : Nat} {m : List UInt8}
    {ms : List (List UInt8)} (h : InTurn holds taken d k ((i, m :: ms) :: qs) done s)
    (hfuel : maxStreams < w.fuel) :
    ∃ s', Cat.step I O s w = some s' ∧
      InTurn holds taken d k (d.putBack (i, ms) qs) (done ++ [(i, m)]) s' := by
  have hcount : s.cat.selector.count ≠ 0 := h.count_ne_zero
  obtain ⟨sel', input, q, g, t, hselect, hplace, hread, hms, hlt, hlen, hmessage, htail,
    hholding, hasks⟩ := h.read hI hfuel
  obtain ⟨closed, hholding, -, -⟩ := hholding
  obtain ⟨hm, hhead, hrest⟩ := upToEmpty_eq_cons hms.symm
  rw [hhead] at hlen hmessage
  have hlen' : g.len ≠ 0 := by
    rw [hlen]
    exact fun hzero => hm (List.length_eq_zero_iff.mp hzero)
  -- there are bytes, so there is a buffer
  obtain ⟨buffer, hout, hbytes⟩ : ∃ buffer, g.out = some buffer ∧ buffer.read 0 g.len = m := by
    rw [Handed.message] at hmessage
    cases hout : g.out with
    | none =>
        rw [hout] at hmessage
        exact absurd hmessage.symm hm
    | some buffer =>
        rw [hout] at hmessage
        exact ⟨buffer, rfl, hmessage⟩
  obtain ⟨out, houts, htaken⟩ := h.written
  obtain ⟨inBuff, u, freeBuff, v, hgive, hend, htaken⟩ := hO.take htaken hlen' hlt buffer
  obtain ⟨r, t', hendRead, hholds⟩ := hI.endRead htail freeBuff
  have hwrite : writeAll I O g.len s.cat.ostreams g.out t = .ok ([v], t') := by
    rw [houts, hout]
    simp only [writeAll, hgive, Except.bind, hend, hendRead]
    rfl
  have hturn : turn I O w s.cat = .ok ((i, g), {
      selector := sel', istreams := (s.cat.istreams.set i input).set i t', ostreams := [v] }) := by
    simp only [turn, hselect, Except.bind, hplace, hread, if_neg hlen', hwrite]
    rfl
  have hnot : i ∉ qs.map Prod.fst := (List.nodup_cons.mp h.asks.nodup).1
  refine ⟨_, by rw [Cat.step, if_neg hcount, hturn], ⟨⟨_, hholding⟩, hasks ms, ?_, ?_, ?_⟩⟩
  · obtain ⟨pre, post, hqs, hput⟩ := d.among (i, ms) qs
    have hothers : Queued holds ((s.cat.istreams.set i input).set i t') qs :=
      (Queued.set (fun q hq => h.queued q (List.mem_cons_of_mem _ hq)) hnot input).set hnot t'
    have hin := (List.getElem?_eq_some_iff.mp hplace).1
    intro q' hq'
    rw [hput, List.perm_middle.mem_iff, List.mem_cons, ← hqs] at hq'
    rcases hq' with rfl | hq'
    · exact ⟨t', q.tail, List.getElem?_set_self hin, hholds, hrest.symm⟩
    · exact hothers q' hq'
  · refine ⟨v, rfl, ?_⟩
    rw [List.map_append, ← hbytes]
    exact htaken
  · rw [Cat.copied, List.filter_append, List.map_append,
      List.filter_cons_of_pos (by simpa using hlen')]
    simpa [Cat.copied, hmessage] using h.copied

end Turns

/-! ## Runs -/

section Runs

variable {σ τ : Type _} {I : IstreamCalls σ} {O : OstreamCalls τ}
  {holds : σ → List (List UInt8) → Prop} {taken : τ → List (List UInt8) → Prop}
  {fd : Nat → Int} {istreams : List σ} {out : τ} {queues : Nat → List (List UInt8)}
  {c₀ : CamioCat σ τ} {d : Discipline Nat (List UInt8)}

theorem insertInputs_spin {left i : Nat} {s : SelectorSpin Nat} {sel : CamioSelector Nat}
    (h : insertInputs fd left i (.spin s) = .ok sel) :
    ∃ s', sel = .spin s' ∧ s'.last = s.last := by
  induction left generalizing i s with
  | zero =>
      cases h
      exact ⟨s, rfl, rfl⟩
  | succ left ih =>
      obtain ⟨⟨r, sel'⟩, hinsert, hrest⟩ := bind_eq_ok_iff.mp h
      obtain ⟨⟨r', s'⟩, hinsert, heq⟩ := map_eq_ok_iff.mp hinsert
      obtain ⟨⟨r'', t⟩, -, hs'⟩ := map_eq_ok_iff.mp hinsert
      cases heq
      cases hs'
      exact @ih (i + 1) { toStreams := t, last := s.last } hrest

theorem insertInputs_seq {left i : Nat} {s : SelectorSeq Nat} {sel : CamioSelector Nat}
    (h : insertInputs fd left i (.seq s) = .ok sel) : ∃ s', sel = .seq s' := by
  induction left generalizing i s with
  | zero =>
      cases h
      exact ⟨s, rfl⟩
  | succ left ih =>
      obtain ⟨⟨r, sel'⟩, hinsert, hrest⟩ := bind_eq_ok_iff.mp h
      obtain ⟨⟨r', s'⟩, hinsert, heq⟩ := map_eq_ok_iff.mp hinsert
      cases heq
      exact ih hrest

/-- The queues of the inputs that the selector holds. -/
def inputQueues (n : Nat) (queues : Nat → List (List UInt8)) : List (Nat × List (List UInt8)) :=
  (List.range (min n maxStreams)).map fun i => (i, upToEmpty (queues i))

/-- After the inputs were inserted all entries hold one, in the order of the inputs. -/
theorem entriesFrom_of_holding {k : Nat} {sel : CamioSelector Nat}
    (h : Holding k (fun _ => False) sel) (first : Nat) :
    entriesFrom sel.toStreams first = (List.range k).rotate first := by
  rw [entriesFrom, h.count, List.filter_eq_self]
  intro i hi
  rw [h.live i (List.mem_range.mp (List.mem_rotate.mp hi)) id]
  rfl

/-- A run of so many turns copies all queues. -/
theorem run_copies (hI : Delivers I holds) (hO : Takes O taken)
    (hqueues : ∀ i s, istreams[i]? = some s → holds s (queues i)) (hout : taken out [])
    {sel : CamioSelector Nat} {k : Nat} (hholding : Holding k (fun _ => False) sel)
    {qs : List (Nat × List (List UInt8))} (hasks : Asks sel d (qs.map Prod.fst))
    (hqs : qs.Perm (inputQueues istreams.length queues)) {ws : List Wait}
    (hfuel : ∀ w ∈ ws, maxStreams < w.fuel)
    (hlen : ws.length = rounds (inputQueues istreams.length queues)) :
    ∃ s out', run (Cat.step I O)
        { cat := { selector := sel, istreams := istreams, ostreams := [out] }, read := [] } ws
        = some s ∧ s.cat.selector.count = 0 ∧ copied s.read = served d qs ∧
      s.cat.ostreams = [out'] ∧ taken out' ((served d qs).map Prod.snd) := by
  have hstart : InTurn holds taken d k qs []
      { cat := { selector := sel, istreams := istreams, ostreams := [out] }, read := [] } := by
    refine ⟨⟨_, hholding⟩, hasks, fun q hq => ?_, ⟨out, rfl, hout⟩, rfl⟩
    obtain ⟨i, hi, rfl⟩ := List.mem_map.mp (hqs.mem_iff.mp hq)
    have hlt : i < istreams.length := (Nat.lt_min.mp (List.mem_range.mp hi)).1
    have hplace := List.getElem?_eq_getElem hlt
    exact ⟨_, _, hplace, hqueues i _ hplace, rfl⟩
  have hrounds : ws.length = rounds qs := hlen.trans (rounds_perm hqs.symm)
  obtain ⟨s, hrun, h⟩ := run_served d (R := InTurn holds taken d k)
    (P := fun w : Wait => maxStreams < w.fuel) (fun h hw => h.drop hI hw)
    (fun h hw => h.serve hI hO hw) hstart hfuel hrounds
  obtain ⟨closed, hholding⟩ := h.holding
  obtain ⟨out', houts, htaken⟩ := h.written
  rw [List.nil_append] at htaken
  exact ⟨s, out', hrun, (h.asks.eq_nil_iff hholding).mp rfl, h.copied, houts, htaken⟩

/-- With the spin selector inputs that are always ready take turns at an output that takes
    everything, input 1 first: the program gets to its end in as many turns as there are
    messages and inputs. -/
theorem spin_takes_turns (hI : Delivers I holds) (hO : Takes O taken)
    (hqueues : ∀ i s, istreams[i]? = some s → holds s (queues i)) (hout : taken out [])
    (hstart : start fd (.spin camioSelectorSpinConstruct) istreams [out] = .ok c₀)
    {ws : List Wait} (hfuel : ∀ w ∈ ws, 32 < w.fuel)
    (hlen : ws.length = rounds (inputQueues istreams.length queues)) :
    ∃ s out', run (Cat.step I O) { cat := c₀, read := [] } ws = some s ∧
      s.cat.selector.count = 0 ∧
      copied s.read = served roundRobin ((inputQueues istreams.length queues).rotate 1) ∧
      s.cat.ostreams = [out'] ∧
      taken out' ((served roundRobin ((inputQueues istreams.length queues).rotate 1)).map
        Prod.snd) := by
  obtain ⟨sel, hinsert, rfl⟩ := map_eq_ok_iff.mp hstart
  obtain ⟨sel', hinsert', hholding⟩ :=
    @insertInputs_holding _ fd istreams.length 0 (holding_fresh Fresh.spin)
  obtain rfl := Except.ok.inj (hinsert.symm.trans hinsert')
  rw [Nat.zero_add] at hholding
  obtain ⟨s', rfl, hlast⟩ := insertInputs_spin hinsert
  have hfirst : ((inputQueues istreams.length queues).rotate 1).map Prod.fst
      = entriesFrom s'.toStreams (s'.last + 1) := by
    rw [hlast, List.map_rotate, inputQueues, List.map_map]
    refine Eq.trans ?_ (entriesFrom_of_holding hholding 1).symm
    simp [Function.comp_def]
  exact run_copies hI hO hqueues hout hholding (hfirst ▸ Asks.spin s') (List.rotate_perm _ 1)
    hfuel hlen

/-- An input of so many messages of one zero byte. -/
theorem delivers_countdown : Delivers countdown fun n q => q = List.replicate n [0] where
  ready := fun hq => ⟨1, _, rfl, Nat.one_ne_zero, hq⟩
  startRead := by
    rintro n q rfl
    cases n with
    | zero => exact ⟨_, _, rfl, by decide, rfl, rfl, rfl⟩
    | succ n => exact ⟨_, _, rfl, by dsimp only; omega, by simp [List.replicate_succ],
        by simp [Handed.message, List.replicate_succ, Mem.read], rfl⟩
  endRead := fun hq _ => ⟨0, _, rfl, hq⟩

theorem takes_tally : Takes tally fun n ms => n = ms.length where
  take := by
    rintro n ms len rfl - - buffer
    exact ⟨none, _, none, _, rfl, rfl, by simp⟩

/-- Inputs of two messages and of one. -/
theorem spin_takes_turns_tally :
    ∃ (c₀ : CamioCat Nat Nat) (s : Session Nat Nat),
      start (fun _ => 3) (.spin camioSelectorSpinConstruct) [2, 1] [0] = .ok c₀ ∧
      run (Cat.step countdown tally) { cat := c₀, read := [] }
        (List.replicate 5 { fuel := 33, poll := none }) = some s ∧
      s.cat.selector.count = 0 ∧ copied s.read = [(1, [0]), (0, [0]), (0, [0])] ∧
      s.cat.ostreams = [3] := by
  have hqueues : ∀ i n, [2, 1][i]? = some n →
      List.replicate ([2, 1].getD i 0) [(0 : UInt8)] = List.replicate n [0] := by
    intro i n hi
    rw [List.getD_eq_getElem?_getD, hi]
    rfl
  have hserved : served roundRobin ((inputQueues [2, 1].length fun i =>
      List.replicate ([2, 1].getD i 0) [0]).rotate 1) = [(1, [0]), (0, [0]), (0, [0])] := by
    show served roundRobin [(1, [[0]]), (0, [[0], [0]])] = _
    simp [served, roundRobin]
  have hstart : start (fun _ => 3) (.spin camioSelectorSpinConstruct) [2, 1] [0] = .ok _ := rfl
  obtain ⟨s, out', hrun, hcount, hcopied, houts, rfl⟩ :=
    @spin_takes_turns Nat Nat countdown tally _ _ (fun _ => 3) [2, 1] 0 _ _ delivers_countdown
      takes_tally hqueues rfl hstart (List.replicate 5 { fuel := 33, poll := none })
      (by simp) rfl
  rw [hserved] at hcopied houts
  exact ⟨_, s, hstart, hrun, hcount, hcopied, houts⟩

/-- With the seq selector inputs that are always ready are copied to such an output one after
    the other. -/
theorem seq_takes_in_order (hI : Delivers I holds) (hO : Takes O taken)
    (hqueues : ∀ i s, istreams[i]? = some s → holds s (queues i)) (hout : taken out [])
    (hstart : start fd (.seq camioSelectorSeqConstruct) istreams [out] = .ok c₀)
    {ws : List Wait} (hfuel : ∀ w ∈ ws, 32 < w.fuel)
    (hlen : ws.length = rounds (inputQueues istreams.length queues)) :
    ∃ s out', run (Cat.step I O) { cat := c₀, read := [] } ws = some s ∧
      s.cat.selector.count = 0 ∧ s.cat.ostreams = [out'] ∧
      taken out' ((List.range (min istreams.length 32)).flatMap fun i => upToEmpty (queues i)) := by
  obtain ⟨sel, hinsert, rfl⟩ := map_eq_ok_iff.mp hstart
  obtain ⟨sel', hinsert', hholding⟩ :=
    @insertInputs_holding _ fd istreams.length 0 (holding_fresh Fresh.seq)
  obtain rfl := Except.ok.inj (hinsert.symm.trans hinsert')
  rw [Nat.zero_add] at hholding
  obtain ⟨s', rfl⟩ := insertInputs_seq hinsert
  have hfirst : (inputQueues istreams.length queues).map Prod.fst
      = entriesFrom s'.toStreams 0 := by
    rw [inputQueues, List.map_map]
    refine Eq.trans ?_ (entriesFrom_of_holding hholding 0).symm
    simp [Function.comp_def]
  obtain ⟨s, out', hrun, hcount, -, houts, htaken⟩ :=
    run_copies hI hO hqueues hout hholding (hfirst ▸ Asks.seq s') .rfl hfuel hlen
  refine ⟨s, out', hrun, hcount, houts, ?_⟩
  rw [served_inOrder, inputQueues] at htaken
  simpa [List.map_flatMap, List.flatMap_map, Function.comp_def] using htaken

theorem seq_takes_in_order_tally :
    ∃ (c₀ : CamioCat Nat Nat) (s : Session Nat Nat),
      start (fun _ => 3) (.seq camioSelectorSeqConstruct) [2, 1] [0] = .ok c₀ ∧
      run (Cat.step countdown tally) { cat := c₀, read := [] }
        (List.replicate 5 { fuel := 33, poll := none }) = some s ∧
      s.cat.selector.count = 0 ∧ s.cat.ostreams = [3] := by
  have hqueues : ∀ i n, [2, 1][i]? = some n →
      List.replicate ([2, 1].getD i 0) [(0 : UInt8)] = List.replicate n [0] := by
    intro i n hi
    rw [List.getD_eq_getElem?_getD, hi]
    rfl
  have hstart : start (fun _ => 3) (.seq camioSelectorSeqConstruct) [2, 1] [0] = .ok _ := rfl
  obtain ⟨s, out', hrun, hcount, houts, rfl⟩ :=
    @seq_takes_in_order Nat Nat countdown tally _ _ (fun _ => 3) [2, 1] 0 _ _ delivers_countdown
      takes_tally hqueues rfl hstart (List.replicate 5 { fuel := 33, poll := none })
      (by simp) rfl
  exact ⟨_, s, hstart, hrun, hcount, houts⟩

end Runs

end Camio.Cat
