/-
  Camio.Dag.Fifo

  What `dag_rx_stream_next_record` returns over whole runs, whenever the card writes: the
  records that the card has written, each once and in their order, up to the first one that
  has no type or is too long for the hole, where the stream stays for good.
-/

import Camio.Dag.NextRecord
import Camio.Lib.Run

namespace Camio.Dag

open Camio.Lib Camio.Erf

/-- What can be received: a type that exists, and a length that the hole has room for. -/
def Receivable (size : Nat) (r : List UInt8) : Prop :=
  TypeOk (Mem.ofBytes r) 0 ∧ r.length + safetyWindow ≤ size

/-- The record that the last call has returned is still in one piece in the mapping, and has not
    been given back. -/
def Holds (records : List (List UInt8)) (size R n : Nat) (held : Option (Nat × Nat)) : Prop :=
  ∀ p k, held = some (p, k) → ∃ m r, n = m + 1 ∧ records[m]? = some r ∧ k = r.length ∧
    R ≤ behind records m ∧ p % size = behind records m % size ∧ p + k ≤ 2 * size

/-- A state that the reader and the card may reach. -/
structure Session.Inv (records : List (List UInt8)) (size : Nat) (σ : Session) : Prop where
  reads : ∃ R A, Reads records size R A σ.taken.length σ.stream.firstTime.offset
      σ.stream.firstTime σ.card ∧ Holds records size R σ.taken.length σ.held
  size_eq : σ.stream.size = size
  taken : σ.taken = records.take σ.taken.length
  receivable : ∀ r ∈ σ.taken, Receivable size r

section Sessions

variable {records : List (List UInt8)} {size : Nat} {σ σ' : Session}

theorem inv_init (records : List (List UInt8)) (hsize : HoleSize size) (hole : Mem) :
    (init size hole records).Inv records size := by
  have hge := hsize.ge
  rw [dagRecordSize] at hge
  have hreads : Reads records size 0 0 0 0 (init size hole records).stream.firstTime
      (init size hole records).card := {
    counts := by constructor <;> simp [init, StreamT.firstTime, behind]
    writes := by
      constructor <;> simp [init]
      · rw [Nat.mod_eq_of_lt (by rw [safetyWindow]; omega)]
      · intro q _ hq
        exact absurd hq (Nat.not_lt_zero q)
    card := rfl
    known := Nat.zero_le _
    aligned := Nat.dvd_zero 4
    next_mod := by simp [behind]
    next_le := by omega
    next_eq := Or.inl (by simp [behind]) }
  exact {
    reads := ⟨0, 0, hreads, by simp [Holds, init]⟩
    size_eq := rfl
    taken := rfl
    receivable := by simp [init] }

theorem Reads.firstTime_eq {R A n next : Nat} {s : StreamT} {c : Card}
    (h : Reads records size R A n next s c) : s.firstTime = s := by
  rw [StreamT.firstTime, if_neg (by simp [h.counts.isFirstTime])]

/-- The header that is read from a record that was returned. -/
theorem Returns.header {n p : Nat} {r : List UInt8} {s : StreamT} {c : Card} (hrecord : IsRecord r)
    (h : Returns records size n p r s c) :
    recordRlen (twice size c.hole) p = r.length ∧ TypeOk (twice size c.hole) p := by
  have hge := hrecord.size
  rw [dagRecordSize] at hge
  have hbytes : (twice size c.hole).read p 12 = (Mem.ofBytes r).read 0 12 := by
    rw [← Mem.read_take _ _ (show 12 ≤ r.length by omega), h.bytes, Mem.ofBytes_read (by omega)]
  obtain ⟨hrlen, htype⟩ := header_congr hbytes
  exact ⟨hrlen.trans hrecord.rlen, htype.mpr h.type⟩

/-- A call that fails leaves the reader as it is, with nothing to hold on to. -/
theorem Fails.reads {n : Nat} {s : StreamT} {c : Card} {e : Errno}
    (h : Fails records size n s c e) : ∃ R A, Reads records size R A n s.offset s c := by
  cases h with
  | eagain hreads _ => exact ⟨_, _, hreads⟩
  | eio hreads _ _ => exact ⟨_, _, hreads⟩

theorem Session.Inv.returned (h : σ.Inv records size)
    {p : Nat} {r : List UInt8} {s : StreamT} {c : Card}
    (hret : Returns records size σ.taken.length p r s c) :
    Session.Inv records size
      { stream := s, card := c, taken := σ.taken ++ [r], held := some (p, r.length) } := by
  obtain ⟨R, A, hreleased, hreads⟩ := hret.reads
  have htaken : σ.taken ++ [r] = records.take (σ.taken.length + 1) := by
    rw [List.take_add_one, hret.record, ← h.taken, Option.toList_some]
  have hlength : (σ.taken ++ [r]).length = σ.taken.length + 1 := by simp
  have hholds : Holds records size R (σ.taken.length + 1) (some (p, r.length)) := by
    intro p' k heq
    obtain ⟨rfl, rfl⟩ := Prod.mk.inj (Option.some.inj heq)
    exact ⟨_, r, rfl, hret.record, rfl, hreleased, hret.position, hret.mapped⟩
  -- a stream that has been read from is not in its first time any more
  refine ⟨⟨R, A, ?_⟩, hreads.counts.size_eq, ?_, ?_⟩
  · dsimp only
    rw [hlength, hreads.firstTime_eq]
    exact ⟨hreads, hholds⟩
  · dsimp only
    rw [hlength]
    exact htaken
  · intro r' hr'
    rcases List.mem_append.mp hr' with hold | hnew
    · exact h.receivable r' hold
    · rw [List.mem_singleton.mp hnew]
      exact ⟨hret.type, hret.fits⟩

theorem Session.Inv.failed (h : σ.Inv records size) {s : StreamT} {c : Card} {e : Errno}
    (hfail : Fails records size σ.taken.length s c e) :
    Session.Inv records size { σ with stream := s, card := c, held := none } := by
  obtain ⟨R, A, hreads⟩ := hfail.reads
  refine ⟨⟨R, A, ?_, ?_⟩, hreads.counts.size_eq, h.taken, h.receivable⟩
  · dsimp only
    rwa [hreads.firstTime_eq]
  · simp [Holds]

/-- What a step does: the card writes, the next record is returned, or there is none yet. -/
theorem Session.Inv.step_cases (hsize : HoleSize size) (hrecords : ∀ r ∈ records, IsRecord r)
    (h : σ.Inv records size) (count : Nat) (atEnd : Bool) :
    ∃ s c, σ.card.written <+: c.written ∧
      ((∃ p r, Returns records size σ.taken.length p r s c ∧ step σ (.next count atEnd) = some
          { stream := s, card := c, taken := σ.taken ++ [r], held := some (p, r.length) }) ∨
        ∃ e, Fails records size σ.taken.length s c e ∧
          step σ (.next count atEnd) = some { σ with stream := s, card := c, held := none }) := by
  obtain ⟨R, A, hreads, -⟩ := h.reads
  obtain ⟨s, c, hmore, ⟨p, r, heq, hret⟩ | ⟨e, heq, hfail⟩⟩ :=
    dagRxStreamNextRecord_spec hsize hrecords hreads count atEnd
  · refine ⟨s, c, hmore, Or.inl ⟨p, r, hret, ?_⟩⟩
    obtain ⟨R', A', -, hreads'⟩ := hret.reads
    have hrlen := (hret.header (hrecords r (List.mem_of_getElem? hret.record))).1
    rw [step, h.size_eq, heq]
    dsimp only
    rw [hreads'.counts.size_eq, hrlen, hret.bytes]
  · refine ⟨s, c, hmore, Or.inr ⟨e, hfail, ?_⟩⟩
    rw [step, h.size_eq, heq]

/-- No step is refused, and every step keeps the invariant and what was taken. -/
theorem Session.Inv.step (hsize : HoleSize size) (hrecords : ∀ r ∈ records, IsRecord r)
    (h : σ.Inv records size) (e : Event) :
    ∃ σ', Dag.step σ e = some σ' ∧ σ'.Inv records size ∧ σ.taken <+: σ'.taken := by
  cases e with
  | arrive count atEnd =>
      obtain ⟨R, A, hreads, hholds⟩ := h.reads
      refine ⟨_, rfl, ?_, List.prefix_rfl⟩
      rw [h.size_eq]
      exact { h with reads := ⟨R, A, hreads.arrive hsize count atEnd, hholds⟩ }
  | next count atEnd =>
      obtain ⟨s, c, -, ⟨p, r, hret, heq⟩ | ⟨e, hfail, heq⟩⟩ :=
        h.step_cases hsize hrecords count atEnd
      · exact ⟨_, heq, h.returned hret, List.prefix_append _ _⟩
      · exact ⟨_, heq, h.failed hfail, List.prefix_rfl⟩

theorem Session.Inv.run (hsize : HoleSize size) (hrecords : ∀ r ∈ records, IsRecord r)
    (h : σ.Inv records size) (events : List Event) :
    ∃ σ', Lib.run Dag.step σ events = some σ' ∧ σ'.Inv records size ∧ σ.taken <+: σ'.taken := by
  induction events generalizing σ with
  | nil => exact ⟨σ, rfl, h, List.prefix_rfl⟩
  | cons e events ih =>
      obtain ⟨σ₁, hstep, h₁, hmore₁⟩ := h.step hsize hrecords e
      obtain ⟨σ₂, hrun, h₂, hmore₂⟩ := ih h₁
      exact ⟨σ₂, run_cons_eq_some.mpr ⟨σ₁, hstep, hrun⟩, h₂, hmore₁.trans hmore₂⟩

/-- The record that is held is the last one that was taken, as it was. -/
theorem Session.Inv.held (h : σ.Inv records size) {p k : Nat} (hheld : σ.held = some (p, k)) :
    p + k ≤ 2 * size ∧ ∃ r, σ.taken.getLast? = some r ∧ σ.view.read p k = r := by
  obtain ⟨R, A, hreads, hholds⟩ := h.reads
  obtain ⟨m, r, hn, hr, rfl, hreleased, hposition, hmapped⟩ := hholds p k hheld
  refine ⟨hmapped, r, ?_, ?_⟩
  · rw [h.taken, hn, List.take_add_one, hr, Option.toList_some, List.getLast?_concat]
  · have hin := hreads.counts.known_ge
    have hknown := hreads.known
    rw [hn, behind_succ hr] at hin
    rw [Session.view, h.size_eq, hreads.writes.carries.read hposition hreleased (by omega),
      written_record hreads.card hr (Nat.le_refl _) (by omega), List.take_length]

end Sessions

/-- Whatever the card and the reader do and when, no access leaves the mapping, and the records
    are returned in the order in which they were written, none left out and none twice; the last
    one stays as it was until the next call. -/
theorem dag_records_in_order {size : Nat} {hole : Mem} {records : List (List UInt8)}
    (hsize : HoleSize size) (hrecords : ∀ r ∈ records, IsRecord r) (events : List Event) :
    ∃ σ, run step (init size hole records) events = some σ ∧ σ.taken <+: records ∧
      ∀ p k, σ.held = some (p, k) →
        p + k ≤ 2 * size ∧ ∃ r, σ.taken.getLast? = some r ∧ σ.view.read p k = r := by
  obtain ⟨σ, hrun, hinv, -⟩ := (inv_init records hsize hole).run hsize hrecords events
  refine ⟨σ, hrun, ?_, fun p k hheld => hinv.held hheld⟩
  rw [hinv.taken]
  exact List.take_prefix _ _

/-- A record of eight bytes of data. -/
def demoRecord (type : UInt8) : List UInt8 :=
  [0, 0, 0, 0, 0, 0, 0, 0, type, 0, 0, 24, 0, 0, 0, 0, 1, 2, 3, 4, 5, 6, 7, 8]

theorem demoRecord_isRecord (type : UInt8) : IsRecord (demoRecord type) where
  size := by simp [demoRecord, dagRecordSize]
  aligned := by simp [demoRecord]
  rlen := by
    have hbytes : (Mem.ofBytes (demoRecord type)).read rlenOffset 2 = [0, 24] := by
      simp [Mem.read, Mem.ofBytes, demoRecord, rlenOffset]
    rw [recordRlen, Nat.zero_add, Mem.read16, hbytes]
    show ntohs (leNat [0, 24]) = 24
    decide

theorem demoRecords_isRecord : ∀ r ∈ List.replicate 3 (demoRecord 2), IsRecord r := by
  intro r hr
  rw [List.eq_of_mem_replicate hr]
  exact demoRecord_isRecord 2

theorem demoHole : HoleSize 32 := ⟨by decide, by decide, by decide⟩

/-- Three records in a hole that has room for one: the second and the third go round its
    end. -/
def demoEvents : List Event :=
  [.arrive 20 false, .next 4 false, .next 0 false, .arrive 20 true, .next 4 false, .next 0 true,
    .arrive 32 true, .next 0 false]

theorem dag_records_in_order_demo :
    ∃ σ, run step (init 32 (fun _ => 0) (List.replicate 3 (demoRecord 2))) demoEvents = some σ ∧
      σ.taken.length = 3 ∧ σ.held = some (16, 24) ∧
      σ.taken <+: List.replicate 3 (demoRecord 2) ∧
      ∀ p k, σ.held = some (p, k) →
        p + k ≤ 2 * 32 ∧ ∃ r, σ.taken.getLast? = some r ∧ σ.view.read p k = r := by
  obtain ⟨σ, hrun, hresult⟩ := dag_records_in_order demoHole demoRecords_isRecord demoEvents
  have hends : (run step (init 32 (fun _ => 0) (List.replicate 3 (demoRecord 2))) demoEvents).map
      (fun σ => (σ.taken.length, σ.held)) = some (3, some (16, 24)) := by decide
  rw [hrun, Option.map_some, Option.some.injEq, Prod.mk.injEq] at hends
  exact ⟨σ, hrun, hends.1, hends.2, hresult⟩

/-! ## All of the records -/

section Progress

variable {records : List (List UInt8)} {size : Nat} {σ : Session}

/-- A call, all that the card may write, and another call. -/
def poll (size : Nat) : List Event := [.next 0 false, .arrive size false, .next 0 false]

/-- A card that has been given all the memory back has room for what can be received. -/
theorem arrive_complete (hsize : HoleSize size) {R A n next : Nat} {s : StreamT} {c : Card}
    (h : Reads records size R A n next s c) (hR : R = behind records n) {r : List UInt8}
    (hr : records[n]? = some r) (hfits : r.length + safetyWindow ≤ size) :
    behind records n + r.length ≤ (c.arrive size size false).written.length := by
  have hroom := h.writes.room hsize
  have hle := h.writes.written_le
  have hreleased := h.writes.released_le
  have htotal := congrArg List.length h.card
  have hall : behind records n + r.length ≤ records.flatten.length := by
    have hdrop := congrArg List.length (drop_behind hr)
    have hprefix : behind records n ≤ records.flatten.length := by
      have hsplit := congrArg (List.length ∘ List.flatten) (List.take_append_drop n records)
      simp only [Function.comp_apply, List.flatten_append, List.length_append] at hsplit
      rw [behind]
      omega
    rw [List.length_drop, List.length_append] at hdrop
    omega
  rw [List.length_append] at htotal
  simp only [Card.arrive, List.length_append, List.length_take, hroom]
  omega

/-- A poll takes the next record if it can be received: what is not complete at the first call
    is complete at the second. -/
theorem Session.Inv.polled (hsize : HoleSize size) (hrecords : ∀ r ∈ records, IsRecord r)
    (h : σ.Inv records size) {r : List UInt8} (hr : records[σ.taken.length]? = some r)
    (hreceivable : Receivable size r) :
    ∃ σ', Lib.run Dag.step σ (poll size) = some σ' ∧ σ'.Inv records size ∧
      σ.taken.length < σ'.taken.length := by
  -- if the first call returns the record, the rest of the poll does no harm
  obtain ⟨s₁, c₁, -, ⟨p₁, r₁, hret₁, heq₁⟩ | ⟨e₁, hfail₁, heq₁⟩⟩ :=
    h.step_cases hsize hrecords 0 false
  · obtain ⟨σ₃, hrun, h₃, hmore⟩ :=
      (h.returned hret₁).run hsize hrecords [.arrive size false, .next 0 false]
    refine ⟨σ₃, run_cons_eq_some.mpr ⟨_, heq₁, hrun⟩, h₃, ?_⟩
    have hlength := hmore.length_le
    rw [List.length_append, List.length_singleton] at hlength
    omega
  -- if it does not, all memory is given back, and the card has room for the whole record
  · have h₁ := h.failed hfail₁
    obtain ⟨σ₂, heq₂, h₂, -⟩ := h₁.step hsize hrecords (.arrive size false)
    have hσ₂ : σ₂.card = c₁.arrive size size false ∧ σ₂.taken = σ.taken := by
      rw [Dag.step, Option.some.injEq] at heq₂
      rw [← heq₂, ← h₁.size_eq]
      exact ⟨rfl, rfl⟩
    obtain ⟨s₃, c₃, hmore₃, ⟨p₃, r₃, hret₃, heq₃⟩ | ⟨e₃, hfail₃, heq₃⟩⟩ :=
      h₂.step_cases hsize hrecords 0 false
    · refine ⟨_, run_cons_eq_some.mpr ⟨_, heq₁, run_cons_eq_some.mpr ⟨_, heq₂,
        run_cons_eq_some.mpr ⟨_, heq₃, rfl⟩⟩⟩, h₂.returned hret₃, ?_⟩
      dsimp only
      rw [List.length_append, List.length_singleton, hσ₂.2]
      omega
    · -- the second call has no reason to fail
      rw [hσ₂.2] at hfail₃
      cases hfail₃ with
      | eagain hreads₃ hshort₃ =>
          have hcomplete : behind records σ.taken.length + r.length ≤ σ₂.card.written.length := by
            cases hfail₁ with
            | eagain hreads₁ hshort₁ =>
                rw [hσ₂.1]
                exact arrive_complete hsize hreads₁ rfl hr hreceivable.2
            | eio hreads₁ hr₁ htype₁ =>
                obtain rfl := Option.some.inj (hr.symm.trans hr₁)
                exact absurd hreceivable.1 htype₁
          have hlength := hmore₃.length_le
          have hshort := hshort₃ r hr
          omega
      | eio hreads₃ hr₃ htype₃ =>
          obtain rfl := Option.some.inj (hr.symm.trans hr₃)
          exact absurd hreceivable.1 htype₃

/-- No state is beyond a record that cannot be received. -/
theorem Session.Inv.length_le (h : σ.Inv records size) {k : Nat} {r : List UInt8}
    (hr : records[k]? = some r) (hnot : ¬ Receivable size r) : σ.taken.length ≤ k := by
  by_contra hlt
  apply hnot
  apply h.receivable
  rw [h.taken]
  exact List.mem_of_getElem? ((List.getElem?_take_of_lt (by omega)).trans hr)

/-- Polling takes the records up to number `n`, if they can be received and nothing gets beyond
    it. -/
theorem Session.Inv.drain (hsize : HoleSize size) (hrecords : ∀ r ∈ records, IsRecord r)
    {n : Nat} (hn : n ≤ records.length) (hreceivable : ∀ r ∈ records.take n, Receivable size r)
    (hbound : ∀ σ : Session, σ.Inv records size → σ.taken.length ≤ n) (k : Nat)
    (h : σ.Inv records size) (hk : n ≤ σ.taken.length + k) :
    ∃ events σ', Lib.run Dag.step σ events = some σ' ∧ σ'.taken = records.take n := by
  -- on how many records there are still to come; a poll takes one at least
  induction k generalizing σ with
  | zero =>
      have hlength : σ.taken.length = n := Nat.le_antisymm (hbound σ h) hk
      exact ⟨[], σ, rfl, hlength ▸ h.taken⟩
  | succ k ih =>
      by_cases hdone : n ≤ σ.taken.length
      · have hlength : σ.taken.length = n := Nat.le_antisymm (hbound σ h) hdone
        exact ⟨[], σ, rfl, hlength ▸ h.taken⟩
      · have hlt : σ.taken.length < n := by omega
        have hr : records[σ.taken.length]? = some (records[σ.taken.length]) :=
          List.getElem?_eq_getElem (by omega)
        have hmem : records[σ.taken.length] ∈ records.take n :=
          List.mem_of_getElem? ((List.getElem?_take_of_lt hlt).trans hr)
        obtain ⟨σ₁, hrun₁, h₁, hmore⟩ := h.polled hsize hrecords hr (hreceivable _ hmem)
        obtain ⟨events, σ₂, hrun₂, htaken⟩ := ih h₁ (by omega)
        exact ⟨poll size ++ events, σ₂, run_trans hrun₁ hrun₂, htaken⟩

end Progress

/-- However far the card and the reader have got, they can get to the end of the records exactly
    if every one of them has a type and fits into the hole.  The first one that does not
    blocks the stream for good, and they can get as far as to this one. -/
theorem dag_takes_all_iff {size : Nat} {hole : Mem} {records : List (List UInt8)} {σ : Session}
    {events : List Event} (hsize : HoleSize size) (hrecords : ∀ r ∈ records, IsRecord r)
    (hrun : run step (init size hole records) events = some σ) :
    ((∃ more τ, run step σ more = some τ ∧ τ.taken = records) ↔
      ∀ r ∈ records, Receivable size r) ∧
    ∀ k r, records[k]? = some r → ¬ Receivable size r →
      (∀ r' ∈ records.take k, Receivable size r') →
        (∀ more τ, run step σ more = some τ → τ.taken.length ≤ k) ∧
        ∃ more τ, run step σ more = some τ ∧ τ.taken = records.take k := by
  obtain ⟨σ', hrun', hinv, -⟩ := (inv_init records hsize hole).run hsize hrecords events
  obtain rfl := Option.some.inj (hrun'.symm.trans hrun)
  -- every continuation keeps the invariant
  have hmore : ∀ more τ, run step σ' more = some τ → τ.Inv records size := by
    intro more τ hτ
    obtain ⟨τ', hτ', hinv', -⟩ := hinv.run hsize hrecords more
    exact Option.some.inj (hτ'.symm.trans hτ) ▸ hinv'
  constructor
  · constructor
    · rintro ⟨more, τ, hτ, htaken⟩ r hr
      exact (hmore more τ hτ).receivable r (htaken ▸ hr)
    · intro hreceivable
      have hall : records.take records.length = records := List.take_length
      have hbound : ∀ σ : Session, σ.Inv records size → σ.taken.length ≤ records.length := by
        intro σ h
        rw [h.taken]
        exact List.length_take_le' _ _
      obtain ⟨more, τ, hτ, htaken⟩ := hinv.drain hsize hrecords (Nat.le_refl _)
        (fun r hr => hreceivable r (hall ▸ hr)) hbound records.length (Nat.le_add_left _ _)
      exact ⟨more, τ, hτ, htaken.trans hall⟩
  · intro k r hr hnot hbefore
    have hlt : k < records.length := (List.getElem?_eq_some_iff.mp hr).1
    refine ⟨fun more τ hτ => (hmore more τ hτ).length_le hr hnot, ?_⟩
    exact hinv.drain hsize hrecords (Nat.le_of_lt hlt) hbefore (fun τ h => h.length_le hr hnot) k
      (Nat.le_add_left _ _)

/-- From the middle of a run: three records that can be received, and three of which the second
    has no type. -/
theorem dag_takes_all_demo :
    (∃ σ, run step (init 32 (fun _ => 0) (List.replicate 3 (demoRecord 2)))
        (demoEvents.take 4) = some σ ∧ σ.taken.length = 1 ∧
      ∃ more τ, run step σ more = some τ ∧ τ.taken = List.replicate 3 (demoRecord 2)) ∧
    ∃ σ, run step (init 32 (fun _ => 0) [demoRecord 2, demoRecord 0, demoRecord 2])
        (demoEvents.take 4) = some σ ∧ σ.taken.length = 1 ∧
      ∀ more τ, run step σ more = some τ → τ.taken.length ≤ 1 := by
  constructor
  · have hends : ((run step (init 32 (fun _ => 0) (List.replicate 3 (demoRecord 2)))
        (demoEvents.take 4)).map fun σ => σ.taken.length) = some 1 := by decide
    obtain ⟨σ, hrun, hlength⟩ := Option.map_eq_some_iff.mp hends
    refine ⟨σ, hrun, hlength, ?_⟩
    apply (dag_takes_all_iff demoHole demoRecords_isRecord hrun).1.mpr
    intro r hr
    rw [List.eq_of_mem_replicate hr]
    exact ⟨by decide, by decide⟩
  · have hends : ((run step (init 32 (fun _ => 0) [demoRecord 2, demoRecord 0, demoRecord 2])
        (demoEvents.take 4)).map fun σ => σ.taken.length) = some 1 := by decide
    obtain ⟨σ, hrun, hlength⟩ := Option.map_eq_some_iff.mp hends
    have hrecords : ∀ r ∈ [demoRecord 2, demoRecord 0, demoRecord 2], IsRecord r := by
      simp [demoRecord_isRecord]
    refine ⟨σ, hrun, hlength, ?_⟩
    apply ((dag_takes_all_iff demoHole hrecords hrun).2 1 (demoRecord 0) (by simp) ?_ ?_).1
    · intro h
      exact absurd h.1 (by decide)
    · simp only [List.take_succ_cons, List.take_zero, List.mem_singleton]
      rintro r rfl
      exact ⟨by decide, by decide⟩

end Camio.Dag
