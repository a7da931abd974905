/-
  Camio.Datagram.Link

  A datagram ostream, a network and a datagram istream.  The network keeps the datagrams in
  order and may lose any of them; what is left of the messages arrives as they were sent.
-/

import Camio.Datagram.Delivery
import Camio.Datagram.Ostream

namespace Camio.Datagram

open Camio.Lib

/-! ## The system -/

/-- The calls of the ostream, and the stores of its caller. -/
inductive WriteCall where
  | startWrite (len : Nat)
  /-- the caller stores bytes into the space it was handed -/
  | fill (off : Nat) (bytes : List UInt8)
  | assignWrite (buffer : Option Mem) (len : Nat)
  | endWrite (len : Nat)

/-- The ostream, the pointer its caller was handed, the exit that has ended its program, the
    datagrams that are on their way, and the other end. -/
structure Link where
  writer : DatagramOstream
  granted : Option Nat
  writerExit : Option ErrorExit
  flight : List (List UInt8)
  reader : Session

inductive LinkEvent where
  | write (c : WriteCall)
  /-- the network delivers the first datagram -/
  | arrive
  | lose
  | read (e : Event)

/-- A call of the ostream; a store or a message beyond its buffer is refused. -/
def writeCall (A : Allocator) (kind : Kind) (σ : Link) : WriteCall → Option Link
  | .startWrite len =>
      match datagramStartWrite A σ.writer len with
      | .error e => some { σ with writerExit := some e }
      | .ok (p, s) => some { σ with writer := s, granted := some p }
  | .fill off bytes =>
      match σ.granted with
      | none => none
      | some p =>
          if off + bytes.length ≤ σ.writer.bufferSize then
            some { σ with writer := { σ.writer with mem := σ.writer.mem.write (p + off) bytes } }
          else none
  | .assignWrite buffer len =>
      match datagramAssignWrite σ.writer buffer len with
      | .error e => some { σ with writerExit := some e }
      | .ok s => some { σ with writer := s }
  | .endWrite len =>
      if σ.writer.assignedBuffer.isSome ∨ len ≤ σ.writer.bufferSize then
        let flight := fun (fd : SendSocket) => σ.flight ++ fd.sent.drop σ.writer.fd.sent.length
        match datagramEndWrite kind σ.writer len with
        | (.error e, fd) => some { σ with
            writer := { σ.writer with fd := fd }, writerExit := some e, flight := flight fd }
        | (.ok s, fd) => some { σ with writer := s, granted := none, flight := flight fd }
      else none

/-- The socket of the istream gets a datagram. -/
def Session.receive (ρ : Session) (bytes : List UInt8) : Session :=
  { ρ with stream := { ρ.stream with
      fd := { ρ.stream.fd with turns := ρ.stream.fd.turns ++ [.datagram bytes] } } }

def linkStep (A : Allocator) (kind : Kind) (σ : Link) : LinkEvent → Option Link
  | .write c => if σ.writerExit.isSome then none else writeCall A kind σ c
  | .arrive =>
      match σ.flight with
      | [] => none
      | bytes :: flight => some { σ with flight := flight, reader := σ.reader.receive bytes }
  | .lose =>
      match σ.flight with
      | [] => none
      | _ :: flight => some { σ with flight := flight }
  | .read e => (step kind σ.reader e).map fun reader => { σ with reader := reader }

/-- Both ends have just been opened; the buffer of the ostream is a page, that of the istream
    1024. -/
def linkInit (p q : Nat) (mem mem' : Mem) (pageSize : ℕ+) (maxSize : Nat)
    (turns : List SendTurn) : Link :=
  { writer := { datagramOstreamConstruct mem ⟨[], maxSize, false, turns⟩ with
      isClosed := false, buffer := p, bufferSize := pageSize }
    granted := none
    writerExit := none
    flight := []
    reader := init q mem' pageSize ⟨false, []⟩ }

/-! ## What becomes of the messages -/

/-- What a buffer of this size makes of the messages: they are cut, and an empty datagram is
    none. -/
def messages (size : Nat) (sent : List (List UInt8)) : List (List UInt8) :=
  (sent.map (List.take size)).filter fun m => m ≠ []

/-- What the reader has handed out, what is waiting in its buffer, and what has arrived. -/
def Session.all (ρ : Session) : List (List UInt8) :=
  ρ.delivered ++ (pending ρ.stream ++ coming ρ.stream).filter fun m => m ≠ []

/-- What has not been lost. -/
def Link.flow (σ : Link) : List (List UInt8) :=
  σ.reader.all ++ messages σ.reader.stream.bufferSize σ.flight

section Steps

variable {A : Allocator} {kind : Kind} {size : Nat} {σ σ' : Link} {ρ ρ' : Session}

/-- `prepare_next` moves the next datagram into the buffer. -/
theorem prepareNext_waiting {s s' : DatagramIstream} {blocking : Bool} {n : Nat}
    (hnone : s.bytesRead = 0) (h : prepareNext kind s blocking = .ok (some (n, s'))) :
    (pending s' ++ coming s').filter (fun m => m ≠ [])
        = (pending s ++ coming s).filter (fun m => m ≠ []) ∧
      s'.bufferSize = s.bufferSize ∧ s'.isClosed = s.isClosed ∧ s'.fd.turns <:+ s.fd.turns ∧
      n = s'.bytesRead := by
  have hempty : pending s = [] := if_pos hnone
  obtain ⟨fd, hsuffix, ⟨bytes, -, hreceived, heq⟩ | ⟨-, hreceived, heq⟩ | ⟨-, heq⟩ | ⟨-, e, heq⟩⟩ :=
    @prepareNext_cases kind s blocking hnone
  · rw [heq] at h
    cases h
    refine ⟨?_, rfl, rfl, hsuffix, rfl⟩
    rw [hempty, List.nil_append]
    by_cases hnil : bytes.take s.bufferSize = []
    · rw [pending, if_pos (by rw [hnil, List.length_nil]), List.nil_append]
      show (received s.bufferSize fd.turns).filter _ = (received s.bufferSize s.fd.turns).filter _
      rw [hreceived, hnil, List.filter_cons_of_neg (by simp)]
    · rw [pending_of_data hnil]
      show ([bytes.take s.bufferSize] ++ received s.bufferSize fd.turns).filter _
        = (received s.bufferSize s.fd.turns).filter _
      rw [hreceived, List.singleton_append]
  · rw [heq] at h
    cases kind with
    | udp => cases h
    | raw =>
        cases h
        refine ⟨?_, rfl, rfl, hsuffix, hnone.symm⟩
        show (pending s ++ received s.bufferSize fd.turns).filter _ = _
        rw [hreceived]
        rfl
  · rw [heq] at h
    cases h
  · rw [heq] at h
    cases h

/-- Handing out what is waiting takes it from there. -/
theorem handOut_waiting {s : DatagramIstream} (hwaiting : s.bytesRead ≠ 0) :
    (pending s ++ coming s).filter (fun m => m ≠ [])
      = (handOut s).2.mem.read (handOut s).1.1 (handOut s).1.2 ::
        (pending (handOut s).2 ++ coming (handOut s).2).filter fun m => m ≠ [] := by
  have hread : s.mem.read s.buffer s.bytesRead ≠ [] := by
    intro hnil
    have hlength := congrArg List.length hnil
    rw [Mem.read_length] at hlength
    exact hwaiting hlength
  rw [pending, if_neg hwaiting, List.singleton_append, List.filter_cons_of_pos (by simp [hread])]
  rfl

/-- A call of the istream loses nothing and makes nothing up. -/
theorem read_all {e : Event} (hopen : ρ.stream.isClosed = false)
    (hstep : step kind ρ e = some ρ') :
    ρ'.all = ρ.all ∧ ρ'.stream.isClosed = false ∧
      ρ'.stream.bufferSize = ρ.stream.bufferSize ∧
      ρ'.stream.fd.turns <:+ ρ.stream.fd.turns := by
  rw [step] at hstep
  split at hstep
  · cases hstep
  -- what is waiting in the buffer counts as not read, so only `start_read` moves anything
  rw [call.eq_def] at hstep
  cases e with
  | ready =>
      dsimp only at hstep
      by_cases hnone : ρ.stream.bytesRead = 0
      · rw [ready_eq hopen hnone] at hstep
        cases hnext : prepareNext kind ρ.stream false with
        | error err =>
            rw [hnext] at hstep
            obtain rfl := Option.some.inj hstep
            exact ⟨rfl, hopen, rfl, List.suffix_rfl⟩
        | ok r =>
            rw [hnext] at hstep
            cases r with
            | none => cases hstep
            | some r =>
                obtain rfl := Option.some.inj hstep
                obtain ⟨hwaiting, hsize, hclosed, hsuffix, -⟩ := prepareNext_waiting hnone hnext
                exact ⟨congrArg (ρ.delivered ++ ·) hwaiting, hclosed.trans hopen, hsize, hsuffix⟩
      · rw [datagramReady, if_pos (Or.inl hnone)] at hstep
        obtain rfl := Option.some.inj hstep
        exact ⟨rfl, hopen, rfl, List.suffix_rfl⟩
  | startRead =>
      have hnot : ¬ ρ.stream.isClosed = true := by simp [hopen]
      simp only [datagramStartRead, if_neg hnot] at hstep
      by_cases hnone : ρ.stream.bytesRead = 0
      · rw [if_pos hnone] at hstep
        cases hnext : prepareNext kind ρ.stream true with
        | error err =>
            rw [hnext] at hstep
            obtain rfl := Option.some.inj hstep
            exact ⟨rfl, hopen, rfl, List.suffix_rfl⟩
        | ok r =>
            rw [hnext] at hstep
            cases r with
            | none => cases hstep
            | some r =>
                obtain ⟨n, s⟩ := r
                obtain ⟨hwaiting, hsize, hclosed, hsuffix, hn⟩ := prepareNext_waiting hnone hnext
                dsimp only [Except.map, Option.map] at hstep
                by_cases hzero : n = 0
                · rw [if_pos hzero] at hstep
                  obtain rfl := Option.some.inj hstep
                  exact ⟨congrArg (ρ.delivered ++ ·) hwaiting, hclosed.trans hopen, hsize, hsuffix⟩
                · rw [if_neg hzero] at hstep
                  obtain rfl := Option.some.inj hstep
                  rw [handOut_waiting (hn ▸ hzero)] at hwaiting
                  refine ⟨?_, hclosed.trans hopen, hsize, hsuffix⟩
                  rw [Session.all, List.append_assoc, List.singleton_append, hwaiting,
                    Session.all]
      · rw [if_neg hnone] at hstep
        obtain rfl := Option.some.inj hstep
        refine ⟨?_, hopen, rfl, List.suffix_rfl⟩
        rw [Session.all, Session.all, handOut_waiting hnone, List.append_assoc,
          List.singleton_append]
  | endRead =>
      obtain rfl := Option.some.inj hstep
      exact ⟨rfl, hopen, rfl, List.suffix_rfl⟩

theorem messages_append (sent more : List (List UInt8)) :
    messages size (sent ++ more) = messages size sent ++ messages size more := by
  simp [messages]

theorem receive_all (ρ : Session) (bytes : List UInt8) :
    (ρ.receive bytes).all = ρ.all ++ messages ρ.stream.bufferSize [bytes] := by
  have hcoming : coming (ρ.receive bytes).stream
      = coming ρ.stream ++ [bytes.take ρ.stream.bufferSize] := by
    simp [coming, received, Session.receive]
  rw [Session.all, hcoming, ← List.append_assoc, List.filter_append, ← List.append_assoc]
  rfl

/-- What a call of the ostream sends is on its way. -/
theorem writeCall_flow {c : WriteCall} (h : writeCall A kind σ c = some σ') :
    σ'.reader = σ.reader ∧ ∃ more, σ'.writer.fd.sent = σ.writer.fd.sent ++ more ∧
      σ'.flight = σ.flight ++ more := by
  cases c with
  | startWrite len =>
      rw [writeCall] at h
      cases hstart : datagramStartWrite A σ.writer len with
      | error e =>
          rw [hstart] at h
          obtain rfl := Option.some.inj h
          exact ⟨rfl, [], (List.append_nil _).symm, (List.append_nil _).symm⟩
      | ok r =>
          rw [hstart] at h
          obtain rfl := Option.some.inj h
          refine ⟨rfl, [], ?_, (List.append_nil _).symm⟩
          rw [datagramStartWrite] at hstart
          split at hstart
          · split at hstart
            · cases hstart
            · cases hstart
              exact (List.append_nil _).symm
          · cases hstart
            exact (List.append_nil _).symm
  | fill off bytes =>
      rw [writeCall] at h
      split at h
      · cases h
      · split at h
        · obtain rfl := Option.some.inj h
          exact ⟨rfl, [], (List.append_nil _).symm, (List.append_nil _).symm⟩
        · cases h
  | assignWrite buffer len =>
      cases buffer with
      | none =>
          obtain rfl := Option.some.inj h
          exact ⟨rfl, [], (List.append_nil _).symm, (List.append_nil _).symm⟩
      | some buffer =>
          obtain rfl := Option.some.inj h
          exact ⟨rfl, [], (List.append_nil _).symm, (List.append_nil _).symm⟩
  | endWrite len =>
      rw [writeCall] at h
      split at h
      · obtain ⟨fd', ⟨hend, -, hsent⟩ | ⟨e, hend, hsent⟩⟩ :=
          datagramEndWrite_cases kind σ.writer len
        · rw [hend] at h
          obtain rfl := Option.some.inj h
          exact ⟨rfl, _, hsent, by simp [hsent]⟩
        · rw [hend] at h
          obtain rfl := Option.some.inj h
          rcases hsent with hsent | ⟨-, hsent⟩
          · exact ⟨rfl, [], by simp [hsent], by simp [hsent]⟩
          -- `send` of no bytes has succeeded before the error, and an empty datagram is no message
          · exact ⟨rfl, [[]], hsent, by simp [hsent]⟩
      · cases h

/-- What a socket finds is datagrams only. -/
def OnlyDatagrams (fd : Socket) : Prop := ∀ turn ∈ fd.turns, ∃ bytes, turn = .datagram bytes

/-- A step keeps what has not been lost, but for a datagram that it sends or loses. -/
theorem linkStep_flow {e : LinkEvent} (hopen : σ.reader.stream.isClosed = false)
    (h : linkStep A kind σ e = some σ') :
    σ'.reader.stream.isClosed = false ∧
      σ'.reader.stream.bufferSize = σ.reader.stream.bufferSize ∧
      (OnlyDatagrams σ.reader.stream.fd → OnlyDatagrams σ'.reader.stream.fd) ∧
      ∃ more, σ'.writer.fd.sent = σ.writer.fd.sent ++ more ∧
        σ'.flow.Sublist (σ.flow ++ messages σ.reader.stream.bufferSize more) ∧
        (e ≠ .lose → σ'.flow = σ.flow ++ messages σ.reader.stream.bufferSize more) := by
  cases e with
  | write c =>
      rw [linkStep] at h
      split at h
      · cases h
      obtain ⟨hreader, more, hsent, hflight⟩ := writeCall_flow h
      have hflow : σ'.flow = σ.flow ++ messages σ.reader.stream.bufferSize more := by
        rw [Link.flow, hreader, hflight, messages_append, ← List.append_assoc]
        rfl
      exact ⟨hreader ▸ hopen, by rw [hreader], hreader ▸ id, more, hsent,
        hflow ▸ List.Sublist.refl _, fun _ => hflow⟩
  | arrive =>
      rw [linkStep] at h
      cases hflight : σ.flight with
      | nil =>
          rw [hflight] at h
          cases h
      | cons bytes flight =>
          rw [hflight] at h
          obtain rfl := Option.some.inj h
          have hflow : (σ.reader.receive bytes).all ++ messages σ.reader.stream.bufferSize flight
              = σ.flow := by
            rw [receive_all, List.append_assoc, ← messages_append, List.singleton_append,
              ← hflight]
            rfl
          refine ⟨hopen, rfl, fun honly turn hturn => ?_, [], (List.append_nil _).symm, ?_,
            fun _ => ?_⟩
          · rcases List.mem_append.mp hturn with hold | hnew
            · exact honly turn hold
            · exact ⟨bytes, List.mem_singleton.mp hnew⟩
          · exact (hflow.trans (List.append_nil _).symm) ▸ List.Sublist.refl _
          · exact hflow.trans (List.append_nil _).symm
  | lose =>
      rw [linkStep] at h
      cases hflight : σ.flight with
      | nil =>
          rw [hflight] at h
          cases h
      | cons bytes flight =>
          rw [hflight] at h
          obtain rfl := Option.some.inj h
          have hlost : (messages σ.reader.stream.bufferSize flight).Sublist
              (messages σ.reader.stream.bufferSize (bytes :: flight)) :=
            ((List.sublist_cons_self _ _).map _).filter _
          refine ⟨hopen, rfl, id, [], (List.append_nil _).symm, ?_, fun hne => absurd rfl hne⟩
          rw [messages, List.map_nil, List.filter_nil, List.append_nil]
          show List.Sublist (σ.reader.all ++ messages σ.reader.stream.bufferSize flight)
            (σ.reader.all ++ messages σ.reader.stream.bufferSize σ.flight)
          rw [hflight]
          exact (List.Sublist.refl _).append hlost
  | read e =>
      obtain ⟨reader, hstep, rfl⟩ := Option.map_eq_some_iff.mp h
      obtain ⟨hall, hclosed, hsize, hsuffix⟩ := read_all hopen hstep
      have hflow : Link.flow { σ with reader := reader } = σ.flow := by
        rw [Link.flow, hall, hsize]
        rfl
      refine ⟨hclosed, hsize, fun honly turn hturn => honly turn (hsuffix.subset hturn), [],
        (List.append_nil _).symm, ?_, fun _ => ?_⟩
      · exact (hflow.trans (List.append_nil _).symm) ▸ List.Sublist.refl _
      · exact hflow.trans (List.append_nil _).symm

end Steps

/-! ## Runs -/

section Runs

variable {A : Allocator} {kind : Kind} {p q : Nat} {mem mem' : Mem} {pageSize : ℕ+}
  {maxSize : Nat} {turns : List SendTurn} {σ : Link}

/-- What every run keeps, and what it keeps if nothing is lost. -/
structure Conveys (size : Nat) (lossless : Prop) (σ : Link) : Prop where
  isOpen : σ.reader.stream.isClosed = false
  size_eq : σ.reader.stream.bufferSize = size
  only : OnlyDatagrams σ.reader.stream.fd
  sublist : σ.flow.Sublist (messages size σ.writer.fd.sent)
  whole : lossless → σ.flow = messages size σ.writer.fd.sent

theorem Conveys.step {size : Nat} {lossless : Prop} {σ' : Link} {e : LinkEvent}
    (h : Conveys size lossless σ) (hlose : lossless → e ≠ .lose)
    (hstep : linkStep A kind σ e = some σ') : Conveys size lossless σ' := by
  obtain ⟨hopen, hsize, honly, more, hsent, hsub, hwhole⟩ := linkStep_flow h.isOpen hstep
  rw [h.size_eq] at hsub hwhole
  refine ⟨hopen, hsize.trans h.size_eq, honly h.only, ?_, fun hl => ?_⟩
  · rw [hsent, messages_append]
    exact hsub.trans (h.sublist.append_right _)
  · rw [hsent, messages_append, hwhole (hlose hl), h.whole hl]

theorem conveys_of_run {events : List LinkEvent}
    (hrun : run (linkStep A kind) (linkInit p q mem mem' pageSize maxSize turns) events = some σ) :
    Conveys (pageSize * 1024) (LinkEvent.lose ∉ events) σ := by
  have hinit : Conveys (pageSize * 1024) (LinkEvent.lose ∉ events)
      (linkInit p q mem mem' pageSize maxSize turns) :=
    ⟨rfl, rfl, nofun, List.Sublist.refl _, fun _ => rfl⟩
  have halong : Along (linkStep A kind) (fun _ e => LinkEvent.lose ∉ events → e ≠ .lose)
      (linkInit p q mem mem' pageSize maxSize turns) events :=
    along_of_forall fun _ e he hnone heq => hnone (heq ▸ he)
  exact run_invariant_along (Conveys (pageSize * 1024) (LinkEvent.lose ∉ events))
    (fun _ _ _ h hlose hstep => h.step hlose hstep) hinit halong hrun

/-- Over every interleaving of the calls at both ends and the network, with the programs ended or
    not: what has been handed out is messages that were sent, cut to the buffer, in their order
    and none twice; and without losses all of them, together with what is on its way. -/
theorem link_conveys {events : List LinkEvent}
    (hrun : run (linkStep A kind) (linkInit p q mem mem' pageSize maxSize turns) events = some σ) :
    σ.reader.delivered.Sublist (messages (pageSize * 1024) σ.writer.fd.sent) ∧
      (LinkEvent.lose ∉ events →
        σ.reader.delivered ++ (pending σ.reader.stream ++ coming σ.reader.stream).filter
            (fun m => m ≠ []) ++ messages (pageSize * 1024) σ.flight
          = messages (pageSize * 1024) σ.writer.fd.sent) := by
  have h := conveys_of_run hrun
  refine ⟨?_, fun hnone => ?_⟩
  · exact ((List.sublist_append_left _ _).trans (List.sublist_append_left _ _)).trans h.sublist
  · rw [← h.whole hnone, Link.flow, h.size_eq]
    rfl

/-- Two messages, of which the first is lost, and one that is read before the second arrives. -/
theorem link_conveys_demo :
    ∃ σ, run (linkStep .inPlace .raw) (linkInit 64 128 (fun _ => 0) (fun _ => 0) 4096 1500 [])
        [.write (.startWrite 2), .write (.fill 0 [1, 2]), .write (.endWrite 2), .lose,
          .write (.assignWrite (some (Mem.ofBytes [3])) 1), .write (.endWrite 1), .read .ready,
          .arrive, .read .ready, .read .startRead] = some σ ∧
      σ.reader.delivered.Sublist (messages (4096 * 1024) σ.writer.fd.sent) ∧
      σ.reader.delivered = [[3]] := by
  have hrun : run (linkStep .inPlace .raw)
      (linkInit 64 128 (fun _ => 0) (fun _ => 0) 4096 1500 [])
      [.write (.startWrite 2), .write (.fill 0 [1, 2]), .write (.endWrite 2), .lose,
        .write (.assignWrite (some (Mem.ofBytes [3])) 1), .write (.endWrite 1), .read .ready,
        .arrive, .read .ready, .read .startRead] = some _ := rfl
  exact ⟨_, hrun, (link_conveys hrun).1, rfl⟩

end Runs

end Camio.Datagram
