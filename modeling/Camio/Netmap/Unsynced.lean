/-
  Camio.Netmap.Unsynced

  How much the netmap streams leave unsynchronised.

  The burst size of the parameters never gets into the stream, so no burst is ever
  complete; and `count` goes up only in the branch that is taken when it is above zero
  already.  What is left of the batching is the calls that do not count: an ostream makes one
  when a packet fills the ring, or when the program asks for it, an istream when it has run
  out of packets.

  So it is the program that has to count: it leaves no more unsynchronised than the
  parameters say exactly if between two of these calls it makes no more than so many others.
-/

import Camio.Lib.Pace
import Camio.Netmap.Batching

namespace Camio.Netmap

open Camio.Lib Camio.Descr

/-- An ostream opened with a burst size has no more packets unsynchronised than that, and an
    istream no more than 512 buffers. -/
structure NetmapHost.Bounded (σ : NetmapHost) : Prop where
  tx : ∀ i t, σ.ostreams i = some t → 0 < t.params.burstSize → t.unsynced ≤ t.params.burstSize
  rx : ∀ i t, σ.istreams i = some t → t.swapped ≤ 512

/-! ## The calls that a program makes -/

/-- `end_write`. -/
def TxCall.isWrite : TxCall → Bool
  | .endWrite _ => true
  | _ => false

/-- The calls that synchronise an ostream: `flush`, `close`, and an `end_write` that fills its
    ring. -/
def TxCall.Syncs (s : OstreamNetmap) (nif : NetmapIf) : TxCall → Prop
  | .flush | .close => True
  | .endWrite _ => FillsRing s nif
  | .startWrite _ | .assignWrite _ _ => False

/-- `end_read` with a buffer in place of the stream's own. -/
def RxCall.isReturn : RxCall → Bool
  | .endRead (some _) => true
  | _ => false

/-- The calls that synchronise an istream: `ready` and `start_read` where they find no
    packet. -/
def RxCall.Syncs (s : IstreamNetmap) (nif : NetmapIf) : RxCall → Prop
  | .ready | .startRead => runsOut s nif = true
  | .endRead _ | .close => False

/-- A write to ostream `i`. -/
def writesTo (i : Nat) : HostEvent → Bool
  | .tx j c => j = i && c.isWrite
  | _ => false

/-- Ostream `i` is opened, or synchronised. -/
def SyncsTx (i : Nat) (σ : NetmapHost) : HostEvent → Prop
  | .newOstream j _ _ _ _ _ => j = i
  | .tx j c => j = i ∧ ∃ t, σ.ostreams i = some t ∧ c.Syncs t.stream (σ.nifs t.dev)
  | _ => False

/-- A buffer is given back to istream `i`. -/
def returnsTo (i : Nat) : HostEvent → Bool
  | .rx j c => j = i && c.isReturn
  | _ => false

/-- Istream `i` is opened, or synchronised. -/
def SyncsRx (i : Nat) (σ : NetmapHost) : HostEvent → Prop
  | .newIstream j _ _ _ _ => j = i
  | .rx j c => j = i ∧ ∃ t, σ.istreams i = some t ∧ c.Syncs t.stream (σ.nifs t.dev)
  | _ => False

/-- The burst size that ostream `i` was opened with, if it was. -/
def NetmapHost.burst (i : Nat) (σ : NetmapHost) : Option Nat :=
  (σ.ostreams i).bind fun t => if 0 < t.params.burstSize then some t.params.burstSize else none

/-- The buffers that istream `i` is to have given back, if it is open. -/
def NetmapHost.buffers (i : Nat) (σ : NetmapHost) : Option Nat :=
  (σ.istreams i).map fun _ => 512

/-- The program does the batching itself: in no stretch of its calls in which an ostream is
    not synchronised does it write more packets to it than a burst, and in none in which an
    istream always has packets does it give more than 512 buffers back to it. -/
structure BatchesItself (σ : NetmapHost) (es : List HostEvent) : Prop where
  tx : ∀ i, Paced hostStep (NetmapHost.burst i) (writesTo i) (SyncsTx i) σ es
  rx : ∀ i, Paced hostStep (NetmapHost.buffers i) (returnsTo i) (SyncsRx i) σ es

/-- No counter makes a call due. -/
structure NetmapHost.NeverDue (σ : NetmapHost) : Prop where
  burstSize : ∀ i t, σ.ostreams i = some t → t.burstSize = 0
  count : σ.count = 0

/-! ## Calls on one stream -/

section Calls

variable {nif nif' : NetmapIf}

theorem burstDue_zero (pcount : Nat) : burstDue 0 pcount = false := rfl

theorem countDue_zero : countDue 0 = false := rfl

/-- Without a burst size, an ostream counts what is written to it between two calls that
    synchronise it. -/
theorem callTx_spec {t t' : TxStream} {c : TxCall} {pcount pcount' : Nat}
    (hburst : t.burstSize = 0) (h : callTx t nif pcount c = some (t', nif', pcount')) :
    (t'.params = t.params ∧ t'.burstSize = 0) ∧ (c.Syncs t.stream nif → t'.unsynced = 0) ∧
      (¬ c.Syncs t.stream nif → t'.unsynced = t.unsynced + if c.isWrite then 1 else 0) := by
  cases c with
  | startWrite _ | assignWrite _ _ =>
      rw [callTx] at h
      split at h
      next =>
        obtain ⟨rfl, -, -⟩ := h
        exact ⟨⟨rfl, hburst⟩, fun hsyncs => hsyncs.elim, fun _ => rfl⟩
      next => cases h
  | endWrite len =>
      rw [callTx] at h
      split at h
      next result s nif' hcall =>
        -- no burst is complete, so it is a matter of the ring
        have hfills := (endWrite_spec hcall).2.reportDue_iff
        dsimp only at h hfills
        rw [hburst, burstDue_zero, Bool.or_false] at h
        obtain ⟨rfl, rfl, -⟩ := h
        refine ⟨⟨rfl, rfl⟩, fun hsyncs => ?_, fun hsyncs => ?_⟩
        · exact if_pos (hfills.mpr hsyncs)
        · exact if_neg fun hdue => hsyncs (hfills.mp hdue)
      next => cases h
  | flush | close =>
      obtain ⟨rfl, -, -⟩ := h
      exact ⟨⟨rfl, hburst⟩, fun _ => rfl, fun hsyncs => absurd trivial hsyncs⟩

/-- While `count` is zero it stays zero, and an istream counts the buffers that it is given
    back between two calls that find no packet. -/
theorem callRx_spec {t t' : RxStream} {c : RxCall} {count' : Nat}
    (h : callRx t nif 0 c = some (t', nif', count')) :
    count' = 0 ∧ (c.Syncs t.stream nif → t'.swapped = 0) ∧
      (¬ c.Syncs t.stream nif → t'.swapped = t.swapped + if c.isReturn then 1 else 0) := by
  cases c with
  | ready | startRead =>
      obtain ⟨rfl, -, rfl⟩ := h
      refine ⟨rfl, fun hsyncs => ?_, fun hsyncs => ?_⟩
      · exact if_pos hsyncs
      · exact if_neg hsyncs
  | endRead freeBuff =>
      rw [callRx] at h
      split at h
      next =>
        cases freeBuff with
        | none | some buff =>
            obtain ⟨rfl, -, rfl⟩ := h
            exact ⟨rfl, fun hsyncs => hsyncs.elim, fun _ => rfl⟩
      next => cases h
  | close =>
      obtain ⟨rfl, -, rfl⟩ := h
      exact ⟨rfl, fun hsyncs => hsyncs.elim, fun _ => rfl⟩

end Calls

/-! ## Steps of a host -/

section Steps

variable {σ σ' : NetmapHost} {i : Nat}

/-- What holds of all streams of a table, one of which was put there last. -/
theorem forall_update_some {α : Type} {f : Nat → Option α} {t : α} {P : α → Prop}
    (ht : P t) (h : ∀ j u, f j = some u → P u) (j : Nat) (u : α)
    (hu : Function.update f i (some t) j = some u) : P u := by
  by_cases hj : j = i
  · rw [hj, Function.update_self] at hu
    exact Option.some.inj hu ▸ ht
  · rw [Function.update_of_ne hj] at hu
    exact h j u hu

theorem hostStep_tx {c : TxCall} (h : hostStep σ (.tx i c) = some σ') :
    ∃ t t' nif pcount, σ.ostreams i = some t ∧
      callTx t (σ.nifs t.dev) σ.pcount c = some (t', nif, pcount) ∧
      σ' = { σ with
        ostreams := Function.update σ.ostreams i (some t')
        nifs := Function.update σ.nifs t.dev nif, pcount := pcount } := by
  -- the stream is there, and the call returns
  obtain ⟨t, ht, hmap⟩ := Option.bind_eq_some_iff.mp h
  obtain ⟨⟨t', nif, pcount⟩, hcall, rfl⟩ := Option.map_eq_some_iff.mp hmap
  exact ⟨t, t', nif, pcount, ht, hcall, rfl⟩

theorem hostStep_rx {c : RxCall} (h : hostStep σ (.rx i c) = some σ') :
    ∃ t t' nif count, σ.istreams i = some t ∧
      callRx t (σ.nifs t.dev) σ.count c = some (t', nif, count) ∧
      σ' = { σ with
        istreams := Function.update σ.istreams i (some t')
        nifs := Function.update σ.nifs t.dev nif, count := count } := by
  obtain ⟨t, ht, hmap⟩ := Option.bind_eq_some_iff.mp h
  obtain ⟨⟨t', nif, count⟩, hcall, rfl⟩ := Option.map_eq_some_iff.mp hmap
  exact ⟨t, t', nif, count, ht, hcall, rfl⟩

/-- A new stream has no burst size, whatever its parameters say, and nothing
    unsynchronised. -/
theorem hostStep_newOstream {dev txSlots : Nat} {descr : CamioDescr}
    {params : OstreamNetmapParams} {mapping : Exit Mapping}
    (h : hostStep σ (.newOstream i dev descr params mapping txSlots) = some σ') :
    ∃ t, t.burstSize = 0 ∧ t.unsynced = 0 ∧
      σ' = { σ with ostreams := Function.update σ.ostreams i (some t) } := by
  rw [hostStep] at h
  split at h
  next t hnew =>
    -- `open` does not read the burst size of the parameters
    obtain ⟨s, -, rfl⟩ := map_eq_ok_iff.mp hnew
    exact ⟨_, rfl, rfl, (Option.some.inj h).symm⟩
  next => cases h

theorem hostStep_newIstream {dev : Nat} {descr : CamioDescr} {useLocal : Bool}
    {mapping : Exit Mapping}
    (h : hostStep σ (.newIstream i dev descr useLocal mapping) = some σ') :
    ∃ t, t.swapped = 0 ∧
      σ' = { σ with istreams := Function.update σ.istreams i (some t) } := by
  rw [hostStep] at h
  split at h
  next t hnew =>
    obtain ⟨s, -, rfl⟩ := map_eq_ok_iff.mp hnew
    exact ⟨_, rfl, (Option.some.inj h).symm⟩
  next => cases h

/-- No step sets a burst size, or counts a buffer. -/
theorem NetmapHost.NeverDue.step {e : HostEvent} (h : σ.NeverDue) (hstep : hostStep σ e = some σ') :
    σ'.NeverDue := by
  cases e with
  | newOstream j dev descr params mapping txSlots =>
      obtain ⟨t, hburst, -, rfl⟩ := hostStep_newOstream hstep
      exact ⟨forall_update_some hburst h.burstSize, h.count⟩
  | newIstream j dev descr useLocal mapping =>
      obtain ⟨t, -, rfl⟩ := hostStep_newIstream hstep
      exact ⟨h.burstSize, h.count⟩
  | tx j c =>
      obtain ⟨t, t', nif, pcount, ht, hcall, rfl⟩ := hostStep_tx hstep
      have hspec := callTx_spec (h.burstSize j t ht) hcall
      exact ⟨forall_update_some hspec.1.2 h.burstSize, h.count⟩
  | rx j c =>
      obtain ⟨t, t', nif, count, ht, hcall, rfl⟩ := hostStep_rx hstep
      -- `count++` stands behind a test that it is above zero
      rw [h.count] at hcall
      exact ⟨h.burstSize, (callRx_spec hcall).1⟩
  | device dev nif =>
      obtain rfl := Option.some.inj hstep
      exact ⟨h.burstSize, h.count⟩

/-- The packets that an ostream has unsynchronised are those written since its last
    synchronisation. -/
theorem countsTx (i : Nat) :
    Counts hostStep NetmapHost.NeverDue (fun σ => (σ.ostreams i).elim 0 TxStream.unsynced)
      (NetmapHost.burst i) (writesTo i) (SyncsTx i) where
  keeps := NetmapHost.NeverDue.step
  reset := by
    intro σ e σ' hdue hstep hsyncs
    cases e with
    | newOstream j dev descr params mapping txSlots =>
        obtain rfl : j = i := hsyncs
        obtain ⟨t, -, hzero, rfl⟩ := hostStep_newOstream hstep
        simp [hzero]
    | tx j c =>
        obtain ⟨rfl, t, ht, hcalls⟩ := hsyncs
        obtain ⟨t₀, t', nif, pcount, ht₀, hcall, rfl⟩ := hostStep_tx hstep
        obtain rfl := Option.some.inj (ht.symm.trans ht₀)
        have hspec := callTx_spec (hdue.burstSize j t ht) hcall
        simp [hspec.2.1 hcalls]
    | newIstream | rx | device => exact hsyncs.elim
  other := by
    intro σ e σ' hdue hstep hsyncs
    cases e with
    | newOstream j dev descr params mapping txSlots =>
        obtain ⟨t, -, -, rfl⟩ := hostStep_newOstream hstep
        have hne : i ≠ j := fun heq => hsyncs heq.symm
        simp [NetmapHost.burst, writesTo, Function.update_of_ne hne]
    | tx j c =>
        obtain ⟨t, t', nif, pcount, ht, hcall, rfl⟩ := hostStep_tx hstep
        -- calls on another stream leave this one as it is
        by_cases hj : i = j
        · subst hj
          obtain ⟨⟨hparams, -⟩, -, hspec⟩ := callTx_spec (hdue.burstSize i t ht) hcall
          have hcounts := hspec fun hcalls => hsyncs ⟨rfl, t, ht, hcalls⟩
          simp [NetmapHost.burst, writesTo, ht, hparams, hcounts]
        · have hne : ¬ j = i := fun heq => hj heq.symm
          simp [NetmapHost.burst, writesTo, Function.update_of_ne hj, hne]
    | newIstream j dev descr useLocal mapping =>
        obtain ⟨t, -, rfl⟩ := hostStep_newIstream hstep
        simp [NetmapHost.burst, writesTo]
    | rx j c =>
        obtain ⟨t, t', nif, count, -, -, rfl⟩ := hostStep_rx hstep
        simp [NetmapHost.burst, writesTo]
    | device dev nif =>
        obtain rfl := Option.some.inj hstep
        simp [NetmapHost.burst, writesTo]

/-- The buffers of an istream that are not synchronised are those given back since it last ran
    out of packets. -/
theorem countsRx (i : Nat) :
    Counts hostStep NetmapHost.NeverDue (fun σ => (σ.istreams i).elim 0 RxStream.swapped)
      (NetmapHost.buffers i) (returnsTo i) (SyncsRx i) where
  keeps := NetmapHost.NeverDue.step
  reset := by
    intro σ e σ' hdue hstep hsyncs
    cases e with
    | newIstream j dev descr useLocal mapping =>
        obtain rfl : j = i := hsyncs
        obtain ⟨t, hzero, rfl⟩ := hostStep_newIstream hstep
        simp [hzero]
    | rx j c =>
        obtain ⟨rfl, t, ht, hcalls⟩ := hsyncs
        obtain ⟨t₀, t', nif, count, ht₀, hcall, rfl⟩ := hostStep_rx hstep
        obtain rfl := Option.some.inj (ht.symm.trans ht₀)
        rw [hdue.count] at hcall
        simp [(callRx_spec hcall).2.1 hcalls]
    | newOstream | tx | device => exact hsyncs.elim
  other := by
    intro σ e σ' hdue hstep hsyncs
    cases e with
    | newIstream j dev descr useLocal mapping =>
        obtain ⟨t, -, rfl⟩ := hostStep_newIstream hstep
        have hne : i ≠ j := fun heq => hsyncs heq.symm
        simp [NetmapHost.buffers, returnsTo, Function.update_of_ne hne]
    | rx j c =>
        obtain ⟨t, t', nif, count, ht, hcall, rfl⟩ := hostStep_rx hstep
        by_cases hj : i = j
        · subst hj
          rw [hdue.count] at hcall
          have hcounts := (callRx_spec hcall).2.2 fun hcalls => hsyncs ⟨rfl, t, ht, hcalls⟩
          simp [NetmapHost.buffers, returnsTo, ht, hcounts]
        · have hne : ¬ j = i := fun heq => hj heq.symm
          simp [NetmapHost.buffers, returnsTo, Function.update_of_ne hj, hne]
    | newOstream j dev descr params mapping txSlots =>
        obtain ⟨t, -, -, rfl⟩ := hostStep_newOstream hstep
        simp [NetmapHost.buffers, returnsTo]
    | tx j c =>
        obtain ⟨t, t', nif, pcount, -, -, rfl⟩ := hostStep_tx hstep
        simp [NetmapHost.buffers, returnsTo]
    | device dev nif =>
        obtain rfl := Option.some.inj hstep
        simp [NetmapHost.buffers, returnsTo]

/-- The bounds, stream by stream. -/
theorem NetmapHost.bounded_iff (σ : NetmapHost) :
    σ.Bounded ↔ (∀ i n, NetmapHost.burst i σ = some n →
        (σ.ostreams i).elim 0 TxStream.unsynced ≤ n) ∧
      ∀ i n, NetmapHost.buffers i σ = some n →
        (σ.istreams i).elim 0 RxStream.swapped ≤ n := by
  constructor
  · refine fun h => ⟨fun i n hn => ?_, fun i n hn => ?_⟩
    · obtain ⟨t, ht, hsize⟩ := Option.bind_eq_some_iff.mp hn
      split at hsize
      next hpos =>
        rw [ht, ← Option.some.inj hsize]
        exact h.tx i t ht hpos
      next => cases hsize
    · obtain ⟨t, ht, rfl⟩ := Option.map_eq_some_iff.mp hn
      rw [ht]
      exact h.rx i t ht
  · rintro ⟨htx, hrx⟩
    constructor
    · intro i t ht hpos
      have hle := htx i t.params.burstSize (by simp [NetmapHost.burst, ht, hpos])
      rwa [ht] at hle
    · intro i t ht
      have hle := hrx i 512 (by simp [NetmapHost.buffers, ht])
      rwa [ht] at hle

end Steps

/-! ## Runs -/

section Runs

variable {nifs : Nat → NetmapIf} {es : List HostEvent} {σ : NetmapHost}

theorem neverDue_init (nifs : Nat → NetmapIf) : (netmapHostInit nifs).NeverDue :=
  ⟨fun _ _ h => absurd h (Option.some_ne_none _).symm, rfl⟩

/-- In no run is a call ever due to a counter. -/
theorem neverDue_of_run (hrun : run hostStep (netmapHostInit nifs) es = some σ) :
    (∀ i t, σ.ostreams i = some t → burstDue t.burstSize σ.pcount = false) ∧
      countDue σ.count = false := by
  have hdue : σ.NeverDue :=
    run_invariant NetmapHost.NeverDue (fun _ _ _ h hstep => h.step hstep) (neverDue_init nifs) hrun
  constructor
  · intro i t ht
    rw [hdue.burstSize i t ht]
    exact burstDue_zero _
  · rw [hdue.count]
    exact countDue_zero

/-- In every run of any streams, all stay within their bounds exactly if the program does the
    batching itself. -/
theorem unsynced_bounded_iff (hrun : run hostStep (netmapHostInit nifs) es = some σ) :
    (∀ k σ', run hostStep (netmapHostInit nifs) (es.take k) = some σ' → σ'.Bounded) ↔
      BatchesItself (netmapHostInit nifs) es := by
  -- each stream has a counter and a limit of its own
  have hdue := neverDue_init nifs
  have htx := fun i => (countsTx i).le_limit_iff_paced hdue rfl hrun
  have hrx := fun i => (countsRx i).le_limit_iff_paced hdue rfl hrun
  constructor
  · intro h
    constructor
    · exact fun i => (htx i).mp fun k m n hm => ((m.bounded_iff).mp (h k m hm)).1 i n
    · exact fun i => (hrx i).mp fun k m n hm => ((m.bounded_iff).mp (h k m hm)).2 i n
  · intro h k σ' hσ'
    apply σ'.bounded_iff.mpr
    constructor
    · exact fun i n hn => (htx i).mpr (h.tx i) k σ' n hσ' hn
    · exact fun i n hn => (hrx i).mpr (h.rx i) k σ' n hσ' hn

end Runs

/-- An ostream with bursts of one packet, and an istream on the same device. -/
def demoStreams : List HostEvent :=
  [.newOstream 0 0 { camioDescrConstruct with query := some [] } ⟨1, false⟩
      (.ok ⟨0, 65536, 1, 1⟩) 4,
    .newIstream 0 0 { camioDescrConstruct with query := some [] } false (.ok ⟨0, 65536, 1, 1⟩)]

/-- Each packet is flushed. -/
def demoFlushed : List HostEvent :=
  demoStreams ++ [.tx 0 (.startWrite 60), .rx 0 .startRead, .tx 0 (.endWrite 60), .tx 0 .flush,
    .rx 0 (.endRead none), .tx 0 (.startWrite 8), .tx 0 (.endWrite 8)]

theorem unsynced_bounded_flushed :
    ∃ σ, run hostStep (netmapHostInit fun _ => demoNif) demoFlushed = some σ ∧
      (σ.ostreams 0).map TxStream.unsynced = some 1 ∧
      ((∀ k σ', run hostStep (netmapHostInit fun _ => demoNif) (demoFlushed.take k) = some σ' →
          σ'.Bounded) ↔
        BatchesItself (netmapHostInit fun _ => demoNif) demoFlushed) := by
  have hrun : ((run hostStep (netmapHostInit fun _ => demoNif) demoFlushed).bind fun σ =>
      (σ.ostreams 0).map TxStream.unsynced) = some 1 := rfl
  obtain ⟨σ, hσ, hunsynced⟩ := Option.bind_eq_some_iff.mp hrun
  exact ⟨σ, hσ, hunsynced, unsynced_bounded_iff hσ⟩

/-- Two packets, and no flush, with two of the three slots taken. -/
theorem unsynced_bounded_fails_second :
    ¬ ∀ (nifs : Nat → NetmapIf) (es : List HostEvent) (σ : NetmapHost),
      run hostStep (netmapHostInit nifs) es = some σ → σ.Bounded := by
  intro hall
  have hbounded := hall (fun _ => demoNif)
    (demoStreams ++ [.tx 0 (.startWrite 60), .tx 0 (.endWrite 60), .tx 0 (.startWrite 60),
      .tx 0 (.endWrite 60)]) _ rfl
  have hone : 2 ≤ 1 := hbounded.tx 0 _ rfl Nat.one_pos
  omega

end Camio.Netmap
