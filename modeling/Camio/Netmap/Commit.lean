/-
  Camio.Netmap.Commit

  The calls of a netmap ostream, with what the program and the kernel do in between, as
  one step function.

  A call of `end_write` commits one slot.  The kernel sends the slots before `head`, and
  moves `tail` over them when it has.  Where `end_write` commits the slot with its own
  buffer, it moves `head` along with `cur`; where it swaps the buffer in the slot for the
  assigned one, it leaves `head` behind, and the kernel does not see the packet.
-/

import Camio.Lib.Run
import Camio.Netmap.Ostream

namespace Camio.Netmap

open Camio.Lib Camio.Descr

/-- A stream, and the committed slots that the kernel has not moved `tail` over since: their
    rings and indices. -/
structure TxSession where
  stream : OstreamNetmap
  nif : NetmapIf
  committed : List (Nat × Nat)

/-- The calls; what the program stores in memory; and the kernel moving the tail of a
    ring. -/
inductive TxEvent where
  | startWrite (len : Nat)
  | assignWrite (buffer len : Nat)
  | endWrite (len : Nat)
  | store (mem : Mem)
  | sync (ring tail : Nat)

/-- The kernel moves `tail` forward, over slots that are its own. -/
def syncRing (σ : TxSession) (i tail : Nat) : Option TxSession :=
  let ring := σ.nif.tx i
  if tail < ring.numSlots ∧
      steps ring.numSlots ring.head ring.tail ≤ steps ring.numSlots ring.head tail then
    some { σ with
      nif := σ.nif.setTx i { ring with tail := tail }
      committed := σ.committed.filter fun p =>
        ¬ (p.1 = i ∧ InWindow ring.numSlots ring.tail tail p.2) }
  else none

/-- A call that ends the program is refused, and so is one that still polls for a slot, and
    an `end_write` with nothing to write. -/
def txStep (σ : TxSession) : TxEvent → Option TxSession
  | .startWrite len =>
      match camioOstreamNetmapStartWrite σ.stream σ.nif len true with
      | .ok (some (_, s)) => some { σ with stream := s }
      | _ => none
  | .assignWrite buffer len =>
      match camioOstreamNetmapAssignWrite σ.stream (some buffer) len with
      | .ok (_, s) => some { σ with stream := s }
      | _ => none
  | .endWrite len =>
      if σ.stream.packet = none ∧ σ.stream.assignedBuffer = none then none
      else
        match camioOstreamNetmapEndWrite σ.stream σ.nif len true with
        | .ok (some (_, s, nif)) => some {
            stream := s, nif := nif
            committed := σ.committed ++ [(s.ringNum, (σ.nif.tx s.ringNum).cur)] }
        | _ => none
  | .store mem => some { σ with nif := { σ.nif with mem := mem } }
  | .sync i tail => syncRing σ i tail

/-- No committed slot belongs to the program: the kernel sees the packets in them. -/
def Visible (σ : TxSession) : Prop := ∀ p ∈ σ.committed, ¬ (σ.nif.tx p.1).Owned p.2

/-- The message that `end_write` is to send: what the assigned buffer holds, or else the
    buffer that was handed out. -/
def message (σ : TxSession) (len : Nat) : List UInt8 :=
  match σ.stream.assignedBuffer, σ.stream.packet with
  | some assigned, _ => σ.nif.mem.read assigned len
  | none, some packet => σ.nif.mem.read packet len
  | none, none => []

/-- One slot was committed, the current one of ring `i`, with this message in its buffer;
    and `head` and `cur` are at the next slot. -/
structure Commits (nif nif' : NetmapIf) (i : Nat) (message : List UInt8) : Prop where
  space : (nif.tx i).cur ≠ (nif.tx i).tail
  cur : (nif'.tx i).cur = nmRingNext (nif.tx i) (nif.tx i).cur
  head : (nif'.tx i).head = nmRingNext (nif.tx i) (nif.tx i).cur
  len : ((nif'.tx i).slot (nif.tx i).cur).len = message.length
  bytes : nif'.mem.read (netmapBuf (nif'.tx i) ((nif'.tx i).slot (nif.tx i).cur).bufIdx)
    message.length = message
  tail : (nif'.tx i).tail = (nif.tx i).tail
  numSlots : (nif'.tx i).numSlots = (nif.tx i).numSlots
  slots : ∀ c ≠ (nif.tx i).cur, ((nif'.tx i).slot c).bufIdx = ((nif.tx i).slot c).bufIdx ∧
    ((nif'.tx i).slot c).len = ((nif.tx i).slot c).len
  rings : ∀ j ≠ i, nif'.tx j = nif.tx j

/-- An `end_write` commits its message. -/
def CommitsMessage (σ : TxSession) (e : TxEvent) : Prop :=
  ∀ len σ', e = .endWrite len → txStep σ e = some σ' →
    ∃ i, Commits σ.nif σ'.nif i (message σ len)

/-- An `end_write` has no assigned buffer, or one that it copies. -/
def NotSwapped (σ : TxSession) (e : TxEvent) : Prop :=
  ∀ len assigned, e = .endWrite len → σ.stream.assignedBuffer = some assigned →
    ¬ InBufferRange σ.stream assigned

/-- The invariant: the rings are valid, the packets visible, and a buffer that was handed out
    is that of the current slot of a ring with space. -/
structure TxReady (σ : TxSession) : Prop where
  valid : ∀ i, (σ.nif.tx i).Valid
  visible : Visible σ
  committed_lt : ∀ p ∈ σ.committed, p.2 < (σ.nif.tx p.1).numSlots
  packet : ∀ {p}, σ.stream.packet = some p →
    σ.stream.slotNum = (σ.nif.tx σ.stream.ringNum).cur ∧
      (σ.nif.tx σ.stream.ringNum).cur ≠ (σ.nif.tx σ.stream.ringNum).tail ∧
      p = curBuffer σ.nif σ.stream.ringNum

/-! ## What `end_write` does to the rings -/

section Calls

variable {s : OstreamNetmap} {nif : NetmapIf} {len i : Nat}

/-- The message that is in the buffer of the slot is committed; the memory may have been
    another one when the call began. -/
theorem commitSlot_commits {mem : Mem} {msg : List UInt8}
    (hslot : s.slotNum = (nif.tx s.ringNum).cur)
    (hspace : (nif.tx s.ringNum).cur ≠ (nif.tx s.ringNum).tail)
    (hmsg : mem.read (curBuffer nif s.ringNum) len = msg) :
    Commits nif (commitSlot s { nif with mem := mem } len).2 s.ringNum msg := by
  have hlength : msg.length = len := by rw [← hmsg, Mem.read_length]
  obtain ⟨slot, heq, hlen, hbufIdx, hothers⟩ :=
    @commitSlot_spec s { nif with mem := mem } len hslot
  rw [heq]
  refine ⟨hspace, ?_, ?_, ?_, ?_, ?_, ?_, fun c hc => ?_, fun j hj => NetmapIf.setTx_tx_of_ne hj ..⟩
  · rw [NetmapIf.setTx_tx_self]
  · rw [NetmapIf.setTx_tx_self]
  · rw [NetmapIf.setTx_tx_self, hlength]
    exact hlen
  · rw [NetmapIf.setTx_tx_self, hlength]
    dsimp only
    rw [hbufIdx]
    exact hmsg
  · rw [NetmapIf.setTx_tx_self]
  · rw [NetmapIf.setTx_tx_self]
  · rw [NetmapIf.setTx_tx_self]
    exact ⟨hbufIdx c, hothers c hc⟩

end Calls

/-! ## Steps -/

section Steps

variable {σ σ' : TxSession} {len : Nat}

/-- What an `end_write` that returns has gone through. -/
theorem step_endWrite (h : txStep σ (.endWrite len) = some σ') :
    ¬ (σ.stream.packet = none ∧ σ.stream.assignedBuffer = none) ∧
      ∃ r, EndWrite σ.stream σ.nif len r (σ'.stream, σ'.nif) ∧
        σ'.committed = σ.committed ++
          [(σ'.stream.ringNum, (σ.nif.tx σ'.stream.ringNum).cur)] := by
  rw [txStep] at h
  by_cases hidle : σ.stream.packet = none ∧ σ.stream.assignedBuffer = none
  · rw [if_pos hidle] at h
    cases h
  · rw [if_neg hidle] at h
    refine ⟨hidle, ?_⟩
    split at h
    next r s nif hcall =>
      obtain rfl := Option.some.inj h
      exact ⟨r, (endWrite_spec hcall).2, rfl⟩
    next => cases h

theorem TxReady.space_of_freeRing (h : TxReady σ) {i : Nat}
    (hring : freeRing σ.stream σ.nif = some i) : (σ.nif.tx i).cur ≠ (σ.nif.tx i).tail :=
  (h.valid i).space_pos_iff.mp (freeRing_some hring)

/-- An `end_write` without a swap commits its message. -/
theorem TxReady.commits (h : TxReady σ) (hP : NotSwapped σ (.endWrite len))
    (hstep : txStep σ (.endWrite len) = some σ') :
    Commits σ.nif σ'.nif σ'.stream.ringNum (message σ len) := by
  obtain ⟨hidle, r, hend, -⟩ := step_endWrite hstep
  obtain ⟨s, nif, committed⟩ := σ'
  dsimp only at hend ⊢
  generalize hresult : (s, nif) = t at hend
  cases hend with
  | started hassigned =>
      have hpacket : σ.stream.packet ≠ none := fun hnone => hidle ⟨hnone, hassigned⟩
      obtain ⟨p, hp⟩ := Option.ne_none_iff_exists'.mp hpacket
      obtain ⟨hslot, hspace, rfl⟩ := h.packet hp
      cases hresult
      have hmsg : σ.nif.mem.read (curBuffer σ.nif σ.stream.ringNum) len = message σ len := by
        rw [message, hassigned, hp]
      exact commitSlot_commits hslot hspace hmsg
  | copied assigned i hassigned hrange hring =>
      cases hresult
      -- the message was copied to the buffer of the slot
      have hcopy : (σ.nif.mem.write (curBuffer σ.nif i) (σ.nif.mem.read assigned len)).read
          (curBuffer σ.nif i) len = σ.nif.mem.read assigned len := by
        have hsame := Mem.read_write_same σ.nif.mem (curBuffer σ.nif i)
          (σ.nif.mem.read assigned len)
        rwa [Mem.read_length] at hsame
      have hmessage : message σ len = σ.nif.mem.read assigned len := by rw [message, hassigned]
      rw [hmessage]
      exact @commitSlot_commits
        { atSlot σ.stream σ.nif i with assignedBuffer := none, assignedBufferSz := 0 } σ.nif len
        _ _ rfl (h.space_of_freeRing hring) hcopy
  | swapped assigned i hassigned hrange hring => exact absurd hrange (hP len assigned rfl hassigned)

/-- After a commit of slot `cur`, the committed slots are the kernel's. -/
theorem TxReady.visible_of_commits {i : Nat} {s : OstreamNetmap} {nif : NetmapIf} {msg : List UInt8}
    (h : TxReady σ) (hcommits : Commits σ.nif nif i msg) :
    Visible ⟨s, nif, σ.committed ++ [(i, (σ.nif.tx i).cur)]⟩ ∧
      ∀ p ∈ σ.committed ++ [(i, (σ.nif.tx i).cur)], p.2 < (nif.tx p.1).numSlots := by
  have hvalid := h.valid i
  have hlt : ∀ p ∈ σ.committed ++ [(i, (σ.nif.tx i).cur)], p.2 < (σ.nif.tx p.1).numSlots := by
    intro p hp
    rcases List.mem_append.mp hp with hp | hp
    · exact h.committed_lt p hp
    · obtain rfl := List.mem_singleton.mp hp
      exact hvalid.cur
  constructor
  · intro p hp howned
    by_cases hpi : p.1 = i
    · -- the window begins behind slot `cur` now
      have hp' := hlt p hp
      rw [hpi] at hp'
      rw [NetmapRing.Owned, show (nif.tx p.1) = nif.tx i by rw [hpi], hcommits.numSlots,
        hcommits.tail, hcommits.head] at howned
      obtain ⟨hne, hin⟩ := inWindow_nextSlot hvalid.cur hvalid.tail hp' hcommits.space howned
      have hin' := inWindow_of_later hvalid.head hvalid.cur hvalid.tail hvalid.cur_le hp' hin
      rcases List.mem_append.mp hp with hp | hp
      · refine h.visible p hp ?_
        rw [hpi]
        exact hin'
      · obtain rfl := List.mem_singleton.mp hp
        exact hne rfl
    · rw [hcommits.rings p.1 hpi] at howned
      rcases List.mem_append.mp hp with hp | hp
      · exact h.visible p hp howned
      · obtain rfl := List.mem_singleton.mp hp
        exact hpi rfl
  · intro p hp
    by_cases hpi : p.1 = i
    · have hp' := hlt p hp
      rw [hpi] at hp' ⊢
      rw [hcommits.numSlots]
      exact hp'
    · rw [hcommits.rings p.1 hpi]
      exact hlt p hp

theorem Commits.valid {i : Nat} {nif nif' : NetmapIf} {msg : List UInt8}
    (h : Commits nif nif' i msg) (hvalid : ∀ j, (nif.tx j).Valid) : ∀ j, (nif'.tx j).Valid := by
  intro j
  by_cases hj : j = i
  · subst hj
    have hnext : nmRingNext (nif.tx j) (nif.tx j).cur < (nif.tx j).numSlots :=
      nextSlot_lt (hvalid j).cur
    refine ⟨?_, ?_, ?_, ?_⟩
    · rw [h.head, h.numSlots]
      exact hnext
    · rw [h.cur, h.numSlots]
      exact hnext
    · rw [h.tail, h.numSlots]
      exact (hvalid j).tail
    · rw [h.head, h.cur, steps_self]
      exact Nat.zero_le _
  · rw [h.rings j hj]
    exact hvalid j

/-- Taking the current slot of a ring with space keeps the invariant. -/
theorem TxReady.take (h : TxReady σ) {i : Nat} (hring : freeRing σ.stream σ.nif = some i) :
    TxReady { σ with stream := atSlot σ.stream σ.nif i } where
  valid := h.valid
  visible := h.visible
  committed_lt := h.committed_lt
  packet := by
    intro p hp
    obtain rfl := Option.some.inj hp
    exact ⟨rfl, h.space_of_freeRing hring, rfl⟩

/-- So does the kernel's moving a tail. -/
theorem TxReady.sync (h : TxReady σ) {i tail : Nat} (hsync : syncRing σ i tail = some σ') :
    TxReady σ' := by
  rw [syncRing] at hsync
  split at hsync
  next hmove =>
    obtain ⟨hlt, hle⟩ := hmove
    obtain rfl := Option.some.inj hsync
    have hvalid := h.valid i
    refine ⟨fun j => ?_, fun p hp howned => ?_, fun p hp => ?_, fun hp => ?_⟩
    · by_cases hj : j = i
      · rw [hj, NetmapIf.setTx_tx_self]
        exact ⟨hvalid.head, hvalid.cur, hlt, Nat.le_trans hvalid.cur_le hle⟩
      · rw [NetmapIf.setTx_tx_of_ne hj]
        exact h.valid j
    · -- what the window has gained is no longer among the committed slots
      obtain ⟨hmem, hkept⟩ := List.mem_filter.mp hp
      by_cases hpi : p.1 = i
      · have hp' := h.committed_lt p hmem
        rw [hpi] at hp' howned
        rw [NetmapIf.setTx_tx_self] at howned
        rcases inWindow_of_grown hvalid.head hvalid.tail hp' howned with hin | hin
        · refine h.visible p hmem ?_
          rw [hpi]
          exact hin
        · simp only [decide_eq_true_eq] at hkept
          exact hkept ⟨hpi, hin⟩
      · rw [NetmapIf.setTx_tx_of_ne hpi] at howned
        exact h.visible p hmem howned
    · have hp' := h.committed_lt p (List.mem_of_mem_filter hp)
      by_cases hpi : p.1 = i
      · rw [hpi] at hp' ⊢
        rw [NetmapIf.setTx_tx_self]
        exact hp'
      · rw [NetmapIf.setTx_tx_of_ne hpi]
        exact hp'
    · obtain ⟨hslot, hspace, hpacket⟩ := h.packet hp
      rw [curBuffer] at hpacket ⊢
      by_cases hri : σ.stream.ringNum = i
      · rw [hri] at hslot hspace hpacket ⊢
        rw [NetmapIf.setTx_tx_self]
        refine ⟨hslot, fun hcur => ?_, hpacket⟩
        -- `cur` lies before the old tail, and so before the new one
        have howned : steps _ _ _ < steps _ _ _ := hvalid.owned_cur hspace
        have hcur' : (σ.nif.tx i).cur = tail := hcur
        rw [hcur'] at howned
        omega
      · rw [NetmapIf.setTx_tx_of_ne hri]
        exact ⟨hslot, hspace, hpacket⟩
  next => cases hsync

/-- A step without a swap keeps the invariant. -/
theorem TxReady.step {e : TxEvent} (h : TxReady σ) (hP : NotSwapped σ e)
    (hstep : txStep σ e = some σ') : TxReady σ' := by
  cases e with
  | startWrite len =>
      rw [txStep] at hstep
      split at hstep
      next r s hcall =>
        obtain rfl := Option.some.inj hstep
        obtain rfl | ⟨-, i, hring, rfl⟩ := startWrite_spec hcall
        · exact h
        · exact h.take hring
      next => cases hstep
  | assignWrite buffer len =>
      obtain rfl := Option.some.inj hstep
      exact { h with }
  | endWrite len =>
      have hcommits := h.commits hP hstep
      obtain ⟨-, r, hend, hcommitted⟩ := step_endWrite hstep
      obtain ⟨s, nif, committed⟩ := σ'
      have hgrown : committed = σ.committed ++ [(s.ringNum, (σ.nif.tx s.ringNum).cur)] := hcommitted
      subst hgrown
      obtain ⟨hvisible, hlt⟩ := @TxReady.visible_of_commits σ _ s nif _ h hcommits
      refine ⟨hcommits.valid h.valid, hvisible, hlt, fun hp => ?_⟩
      -- there is no buffer handed out any more
      have hnone : s.packet = none := by
        dsimp only at hend
        generalize hresult : (s, nif) = t at hend
        cases hend with
        | started => cases hresult; rfl
        | copied => cases hresult; rfl
        | swapped => cases hresult; rfl
      exact absurd (hnone.symm.trans hp) nofun
  | store mem =>
      obtain rfl := Option.some.inj hstep
      exact { h with }
  | sync i tail => exact h.sync hstep

/-- A swap leaves `head` behind: the slot that was committed is still the program's. -/
theorem TxReady.swap_hides {e : TxEvent} (h : TxReady σ) (hP : ¬ NotSwapped σ e)
    (hstep : txStep σ e = some σ') : ¬ Visible σ' := by
  simp only [NotSwapped, not_forall, not_not] at hP
  obtain ⟨len, assigned, rfl, hassigned, hrange⟩ := hP
  obtain ⟨-, r, hend, hcommitted⟩ := step_endWrite hstep
  obtain ⟨s, nif, committed⟩ := σ'
  have hgrown : committed = σ.committed ++ [(s.ringNum, (σ.nif.tx s.ringNum).cur)] := hcommitted
  subst hgrown
  dsimp only at hend
  generalize hresult : (s, nif) = t at hend
  cases hend with
  | started hnone => exact absurd (hnone.symm.trans hassigned) (Option.some_ne_none _).symm
  | copied other i hother hcopied =>
      obtain rfl := Option.some.inj (hother.symm.trans hassigned)
      exact absurd hrange hcopied
  | swapped other i hother hswapped hring =>
      cases hresult
      intro hvisible
      refine hvisible (i, (σ.nif.tx i).cur) (List.mem_append_right _ List.mem_cons_self) ?_
      have howned := (h.valid i).owned_cur (h.space_of_freeRing hring)
      dsimp only [swapSlot, atSlot, getBuffer]
      rw [NetmapIf.setTx_tx_self]
      exact howned

end Steps

/-! ## Runs -/

/-- A stream that has just been opened, on rings with valid indices. -/
theorem txReady_opened {descr : CamioDescr} {mapping : Exit Mapping} {useLocal : Bool}
    {txSlots : Nat} {s : OstreamNetmap} {nif : NetmapIf}
    (hopen : camioOstreamNetmapOpen camioOstreamNetmapConstruct descr mapping useLocal txSlots nif
      = .ok s)
    (hvalid : ∀ i, (nif.tx i).Valid) : TxReady ⟨s, nif, []⟩ := by
  have hpacket : s.packet = none := by
    rw [camioOstreamNetmapOpen] at hopen
    split at hopen
    next => cases hopen
    next =>
      split at hopen
      next => cases hopen
      next =>
        cases mapping with
        | error e => cases hopen
        | ok m =>
            cases hopen
            rfl
  exact {
    valid := hvalid
    visible := fun p hp => absurd hp List.not_mem_nil
    committed_lt := fun p hp => absurd hp List.not_mem_nil
    packet := fun hp => absurd (hpacket.symm.trans hp) (Option.some_ne_none _).symm }

/-- In every run, each `end_write` commits its message and all committed packets are visible
    to the kernel, exactly if no `end_write` has swapped buffers. -/
theorem commits_visible_iff {descr : CamioDescr} {mapping : Exit Mapping} {useLocal : Bool}
    {txSlots : Nat} {s : OstreamNetmap} {nif : NetmapIf} {σ : TxSession} {es : List TxEvent}
    (hopen : camioOstreamNetmapOpen camioOstreamNetmapConstruct descr mapping useLocal txSlots nif
      = .ok s)
    (hvalid : ∀ i, (nif.tx i).Valid) (hrun : run txStep ⟨s, nif, []⟩ es = some σ) :
    ((∀ k σ', run txStep ⟨s, nif, []⟩ (es.take k) = some σ' → Visible σ') ∧
        Along txStep CommitsMessage ⟨s, nif, []⟩ es) ↔
      Along txStep NotSwapped ⟨s, nif, []⟩ es := by
  have hready := txReady_opened hopen hvalid
  have hiff := forall_prefix_iff_along TxReady (fun _ h => h.visible)
    (fun _ _ _ h hP => h.step hP) (fun _ _ _ h hP => h.swap_hides hP) hready hrun
  constructor
  · rintro ⟨hvisible, -⟩
    exact hiff.mp hvisible
  · intro hP
    refine ⟨hiff.mpr hP, hP.of_invariant TxReady (fun _ _ _ h hP => h.step hP) ?_ hready⟩
    rintro σ e h hP len σ' rfl hstep
    exact ⟨_, h.commits hP hstep⟩

/-- Two messages, one of them copied; the kernel sends the first. -/
def demoTxRun : List TxEvent :=
  [.startWrite 60, .endWrite 60, .sync 0 0, .assignWrite 100000 8, .endWrite 8]

theorem demoTxRun_runs : ∃ σ, run txStep ⟨demoOstream, demoNif, []⟩ demoTxRun = some σ :=
  Option.isSome_iff_exists.mp rfl

theorem commits_visible_copied :
    ∃ σ, run txStep ⟨demoOstream, demoNif, []⟩ demoTxRun = some σ ∧
      (((∀ k σ', run txStep ⟨demoOstream, demoNif, []⟩ (demoTxRun.take k) = some σ' →
          Visible σ') ∧
        Along txStep CommitsMessage ⟨demoOstream, demoNif, []⟩ demoTxRun) ↔
      Along txStep NotSwapped ⟨demoOstream, demoNif, []⟩ demoTxRun) := by
  obtain ⟨σ, hrun⟩ := demoTxRun_runs
  exact ⟨σ, hrun, commits_visible_iff demoOstream_opened demoNif_valid hrun⟩

/-- An `end_write` that has put a buffer of the device into slot 0 leaves it behind `head`. -/
theorem commits_visible_fails_swap :
    ¬ ∀ (descr : CamioDescr) (mapping : Exit Mapping) (useLocal : Bool) (txSlots : Nat)
      (s : OstreamNetmap) (nif : NetmapIf) (es : List TxEvent) (σ : TxSession),
      camioOstreamNetmapOpen camioOstreamNetmapConstruct descr mapping useLocal txSlots nif
        = .ok s →
      (∀ i, (nif.tx i).Valid) → (∃ base, nif.SharedBase base) →
      run txStep ⟨s, nif, []⟩ es = some σ →
      Visible σ ∧ Along txStep CommitsMessage ⟨s, nif, []⟩ es := by
  intro hall
  have hbase : demoNif.SharedBase 4096 := ⟨fun _ => ⟨rfl, rfl⟩, fun _ => ⟨rfl, rfl⟩⟩
  have hvisible := (hall _ _ _ _ demoOstream demoNif [.assignWrite 20480 60, .endWrite 60] _
    demoOstream_opened demoNif_valid ⟨4096, hbase⟩ rfl).1
  have howned : InWindow 4 0 3 0 := by decide
  exact hvisible (0, 0) List.mem_cons_self howned

end Camio.Netmap
