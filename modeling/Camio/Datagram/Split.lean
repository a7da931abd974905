/-
  Camio.Datagram.Split

  Which queries the udp streams split without a fault.

  The check behind the loop is the one in front of it once more, so that nothing asks
  whether there was a ':'.  A query without one leaves both arrays unset, and one whose
  ':' stands in the wrong place is copied past the end of one of them.
-/

import Camio.Datagram.Address

namespace Camio.Datagram

open Camio.Lib Camio.Descr

variable {α β : Type}

/-- The query is `ip:port`, with a ':' that is its first one, and both halves fit. -/
structure FitsArrays (query ip port : List UInt8) : Prop where
  eq : query = ip ++ Descr.colon :: port
  first : Descr.colon ∉ ip
  ip_le : ip.length ≤ 16
  port_le : port.length ≤ 5

/-- `open` ends the program while its arrays are as they were declared, whatever the calls
    come to. -/
def Rejects (opening : UdpCalls → UdpOpen α) : Prop :=
  ∃ e, ∀ calls, opening calls .unset = .error (.exit e) .unset

/-- A part returns, or ends the program, and leaves the arrays as they are. -/
def Settles (x : UdpOpen α) (a : UdpAddress) : Prop :=
  (∃ v, x a = .ok v a) ∨ ∃ e, x a = .error (.exit e) a

/-- `open` has copied the halves into its arrays, and returns or ends the program, whatever
    the calls come to. -/
def Copies (opening : UdpCalls → UdpOpen α) (ip port : List UInt8) : Prop :=
  ∀ calls, ∃ a, a.ipAddr.string = some ip ∧ a.udpPort.string = some port ∧
    ((∃ v, opening calls .unset = .ok v a) ∨ ∃ e, opening calls .unset = .error (.exit e) a)

/-- A query is rejected, or split into halves that fit; and it is rejected if there is no
    ':' in it. -/
def SplitsSafely (opening : UdpCalls → UdpOpen α) (query : List UInt8) : Prop :=
  (Rejects opening ∨ ∃ ip port, FitsArrays query ip port ∧ Copies opening ip port) ∧
    (Descr.colon ∉ query → Rejects opening)

/-- Calls that all succeed. -/
def answering : UdpCalls :=
  { pageSize := 4096, malloc := some 4096, socket := some ⟨false, []⟩, bind := true
    setsockopt := true, inetAddr := fun _ => 0, strtol := fun _ => 0 }

/-- What is needed of the rest of `open`: strings in both arrays are enough for it, and if
    all calls succeed, then it does read the arrays. -/
structure Connects (connect : UdpCalls → UdpOpen α) : Prop where
  settles : ∀ calls a ip port, a.ipAddr.string = some ip → a.udpPort.string = some port →
    Settles (connect calls) a
  reads : connect answering .unset = .error .noString .unset

section Connecting

variable {x : UdpOpen α} {f : α → UdpOpen β} {a : UdpAddress} {calls : UdpCalls}

theorem Settles.bind (hx : Settles x a) (hf : ∀ v, Settles (f v) a) : Settles (x >>= f) a := by
  obtain ⟨v, hv⟩ | ⟨e, he⟩ := hx
  · rw [Settles, bind_of_ok hv]
    exact hf v
  · exact Or.inr ⟨e, bind_of_error he⟩

theorem settles_mallocBuffer : Settles (mallocBuffer calls) a := by
  rw [mallocBuffer]
  cases calls.malloc with
  | none => exact Or.inr ⟨_, rfl⟩
  | some buffer => exact Or.inl ⟨_, rfl⟩

theorem settles_openSocket : Settles (openSocket calls) a := by
  rw [openSocket]
  cases calls.socket with
  | none => exact Or.inr ⟨_, rfl⟩
  | some fd => exact Or.inl ⟨_, rfl⟩

theorem settles_bindSocket : Settles (bindSocket calls) a := by
  rw [bindSocket]
  split
  next => exact Or.inl ⟨_, rfl⟩
  next => exact Or.inr ⟨_, rfl⟩

theorem settles_setBuffSize : Settles (setBuffSize calls) a := by
  rw [setBuffSize]
  split
  next => exact Or.inl ⟨_, rfl⟩
  next => exact Or.inr ⟨_, rfl⟩

theorem connects_istream (s : DatagramIstream) : Connects (connectIstream s) where
  settles calls a ip port hip hport := by
    refine settles_mallocBuffer.bind fun _ => settles_openSocket.bind fun _ => ?_
    refine Settles.bind (Or.inl ⟨_, convertAddress_eq hip hport⟩) fun _ => ?_
    exact settles_bindSocket.bind fun _ => settles_setBuffSize.bind fun _ => Or.inl ⟨_, rfl⟩
  reads := by
    have hbuffer : mallocBuffer answering .unset = .ok 4096 .unset := rfl
    have hsocket : openSocket answering .unset = .ok ⟨false, []⟩ .unset := rfl
    rw [connectIstream, bind_of_ok hbuffer, bind_of_ok hsocket, bind_of_error convertAddress_unset]

theorem connects_ostream : Connects connectOstream where
  settles calls a ip port hip hport := by
    refine settles_mallocBuffer.bind fun _ => settles_openSocket.bind fun _ => ?_
    refine settles_setBuffSize.bind fun _ => ?_
    exact Settles.bind (Or.inl ⟨_, convertAddress_eq hip hport⟩) fun _ => Or.inl ⟨_, rfl⟩
  reads := by
    have hbuffer : mallocBuffer answering .unset = .ok 4096 .unset := rfl
    have hsocket : openSocket answering .unset = .ok ⟨false, []⟩ .unset := rfl
    have hsize : setBuffSize answering .unset = .ok () .unset := rfl
    rw [connectOstream, bind_of_ok hbuffer, bind_of_ok hsocket, bind_of_ok hsize,
      bind_of_error convertAddress_unset]

end Connecting

section Splitting

variable {connect : UdpCalls → UdpOpen α} {descr : CamioDescr} {query ip port : List UInt8}

variable (connect descr) in
/-- What the checks reject is rejected. -/
theorem rejects_of_checks (h : descr.optHead.isSome = true ∨
    ∀ query, descr.query = some query → 22 < query.length) :
    Rejects fun calls => splitQuery descr >>= fun _ => connect calls := by
  obtain ⟨e, he⟩ := splitQuery_rejects h
  exact ⟨e, fun calls => bind_of_error (he _)⟩

/-- A query with halves that fit has at most 22 characters. -/
theorem FitsArrays.length_le (h : FitsArrays query ip port) : query.length ≤ 22 := by
  have hip := h.ip_le
  have hport := h.port_le
  rw [h.eq, List.length_append, List.length_cons]
  omega

/-- Its halves are copied. -/
theorem splitQuery_of_fits (hopts : descr.optHead = none) (hquery : descr.query = some query)
    (h0 : 0 ∉ query) (h : FitsArrays query ip port) :
    ∃ a, splitQuery descr .unset = .ok () a ∧
      a.ipAddr.string = some ip ∧ a.udpPort.string = some port := by
  obtain ⟨a, hcopy, hstrings⟩ := copyHalves_of_fits (a := .unset) h.eq h0 h.ip_le h.port_le
  refine ⟨a, ?_, hstrings⟩
  rw [splitQuery_eq hopts hquery h.length_le,
    findIpPort_split h.eq h.first (Nat.zero_le _) (by simp [h.eq]), hcopy]

/-- They are then read. -/
theorem copies_of_fits (hconnect : Connects connect) (hopts : descr.optHead = none)
    (hquery : descr.query = some query) (h0 : 0 ∉ query) (h : FitsArrays query ip port) :
    Copies (fun calls => splitQuery descr >>= fun _ => connect calls) ip port := by
  intro calls
  obtain ⟨a, hsplit, hip, hport⟩ := splitQuery_of_fits hopts hquery h0 h
  refine ⟨a, hip, hport, ?_⟩
  dsimp only
  rw [bind_of_ok hsplit]
  exact hconnect.settles calls a ip port hip hport

/-- Every other query that passes the checks runs into a fault, if the calls succeed. -/
theorem faults_of_not_fits (hconnect : Connects connect) (hopts : descr.optHead = none)
    (hquery : descr.query = some query) (hlen : query.length ≤ 22)
    (h : ∀ ip port, ¬ FitsArrays query ip port) :
    ∃ e a, (splitQuery descr >>= fun _ => connect answering) .unset = .error e a ∧
      (e = .overflow ∨ e = .noString) := by
  by_cases hcolon : Descr.colon ∈ query
  · obtain ⟨ip, port, hsplit, hfirst⟩ := List.eq_append_cons_of_mem hcolon
    have hlong : 16 < ip.length ∨ 5 < port.length := by
      by_contra hshort
      exact h ip port ⟨hsplit, hfirst, by omega, by omega⟩
    have hquery' : query.length = ip.length + (port.length + 1) := by
      rw [hsplit, List.length_append, List.length_cons]
    obtain ⟨a, hcopy⟩ := copyHalves_overflow (a := .unset) hsplit hlong
    refine ⟨.overflow, a, bind_of_error ?_, Or.inl rfl⟩
    rw [splitQuery_eq hopts hquery hlen,
      findIpPort_split hsplit hfirst (Nat.zero_le _) (by omega), hcopy]
  · have hsplit : splitQuery descr .unset = .ok () .unset := by
      rw [splitQuery_eq hopts hquery hlen, findIpPort_of_not_mem hcolon]
    exact ⟨.noString, .unset, by rw [bind_of_ok hsplit, hconnect.reads], Or.inr rfl⟩

/-- Of what `open` does to a query whose length it checks, nothing is safe but a split
    that fits. -/
theorem splitsSafely_iff (hconnect : Connects connect) (h0 : 0 ∉ query)
    (hquery : descr.query = some query) :
    SplitsSafely (fun calls => splitQuery descr >>= fun _ => connect calls) query ↔
      descr.optHead.isSome = true ∨ 22 < query.length ∨ ∃ ip port, FitsArrays query ip port := by
  have hsame : ∀ query', descr.query = some query' → query' = query := fun query' h' =>
    Option.some.inj (h'.symm.trans hquery)
  constructor
  · rintro ⟨hsafe, hnone⟩
    by_contra hcond
    rw [not_or, not_or, Bool.not_eq_true, Option.isSome_eq_false_iff, Option.isNone_iff_eq_none,
      Nat.not_lt] at hcond
    obtain ⟨hopts, hlen, hfits⟩ := hcond
    obtain ⟨e, a, hfault, hkind⟩ := faults_of_not_fits hconnect hopts hquery hlen
      fun ip port hfit => hfits ⟨ip, port, hfit⟩
    -- a fault is no exit
    obtain ⟨e', hreject⟩ | ⟨ip, port, hfit, -⟩ := hsafe
    · have hexit := (hreject answering).symm.trans hfault
      obtain rfl | rfl := hkind
      · cases hexit
      · cases hexit
    · exact hfits ⟨ip, port, hfit⟩
  · rintro (hopts | hlen | ⟨ip, port, hfit⟩)
    · have hreject := rejects_of_checks connect _ (Or.inl hopts)
      exact ⟨Or.inl hreject, fun _ => hreject⟩
    · have hreject := rejects_of_checks connect descr
        (Or.inr fun query' h' => by rwa [hsame query' h'])
      exact ⟨Or.inl hreject, fun _ => hreject⟩
    · cases hopts : descr.optHead with
      | some o =>
          have hreject := rejects_of_checks connect descr
            (Or.inl (by rw [hopts, Option.isSome_some]))
          exact ⟨Or.inl hreject, fun _ => hreject⟩
      | none =>
          refine ⟨Or.inr ⟨ip, port, hfit, copies_of_fits hconnect hopts hquery h0 hfit⟩,
            fun hcolon => absurd ?_ hcolon⟩
          simp [hfit.eq]

end Splitting

/-- Both streams split a query safely exactly if they are given options as well, or if it
    has more than 22 characters, or at most 16 in front of its first ':' and 5 behind. -/
theorem udp_open_splits_safely_iff (s : DatagramIstream) (descr : CamioDescr) (query : CStr) :
    (SplitsSafely (camioIstreamUdpOpenAddr s { descr with query := some query.bytes }) query.bytes ↔
        descr.optHead.isSome = true ∨ 22 < query.length ∨
          ∃ ip port, FitsArrays query.bytes ip port) ∧
      (SplitsSafely (camioOstreamUdpOpen { descr with query := some query.bytes }) query.bytes ↔
        descr.optHead.isSome = true ∨ 22 < query.length ∨
          ∃ ip port, FitsArrays query.bytes ip port) :=
  ⟨splitsSafely_iff (connects_istream s) query.noNul rfl,
    splitsSafely_iff connects_ostream query.noNul rfl⟩

/-- A port alone is not split at all, and `inet_addr` is given an array that nothing has
    been stored to. -/
theorem udp_open_splits_safely_fails_port_alone :
    ¬ ∀ (s : DatagramIstream) (descr : CamioDescr) (query : CStr),
      SplitsSafely (camioIstreamUdpOpenAddr s { descr with query := some query.bytes })
          query.bytes ∧
        SplitsSafely (camioOstreamUdpOpen { descr with query := some query.bytes })
          query.bytes := by
  intro hall
  have hsafe := (hall (datagramConstruct fun _ => 0) camioDescrConstruct
    ⟨[56, 48, 56, 48], by simp⟩).1
  obtain hopts | hlen | ⟨ip, port, hfit⟩ :=
    (splitsSafely_iff (connects_istream _) (by simp) rfl).mp hsafe
  · cases hopts
  · exact absurd hlen (by simp)
  · have hcolon : Descr.colon ∈ ip ++ Descr.colon :: port := by simp
    rw [← hfit.eq] at hcolon
    exact absurd hcolon (by simp [Descr.colon])

/-! ## The stream that is opened -/

/-- What the calls for the socket of the istream come to. -/
def boundSocket (calls : UdpCalls) : Exit Socket :=
  match calls.socket with
  | none => eprintfExit .socket "Could not open udp socket. Error = %s\n"
  | some fd =>
    if calls.bind then
      if calls.setsockopt then .ok fd
      else eprintfExit .sockOpt "Could not set socket option. Error = %s\n"
    else eprintfExit .bind "Could not bind raw socket. Error = %s\n"

/-- How a part ends, unless it ends with a fault. -/
def ended (x : UdpOpen α) (a : UdpAddress) : Option (Exit α) :=
  match x a with
  | .ok v _ => some (.ok v)
  | .error (.exit e) _ => some (.error e)
  | .error _ _ => none

/-- With its halves in the arrays, the rest of `open` does what it does in the model of the
    stream without addresses. -/
theorem ended_connectIstream {s : DatagramIstream} {ip port : List UInt8} {calls : UdpCalls}
    {a : UdpAddress} (hip : a.ipAddr.string = some ip) (hport : a.udpPort.string = some port) :
    (ended (connectIstream s calls) a).map (Except.map Prod.fst)
      = some (datagramOpen (.ok ()) s camioDescrConstruct calls.pageSize calls.malloc
          (boundSocket calls)) := by
  have hconvert : convertAddress calls a = .ok
      { sAddr := calls.inetAddr ip, sinPort := htons (calls.strtol port % 2 ^ 16).toNat } a :=
    convertAddress_eq hip hport
  rw [ended]
  -- one call after the other, as far as they succeed
  cases hmalloc : calls.malloc with
  | none =>
      have hbuffer : mallocBuffer calls a = .error
          (.exit ⟨.nullPtr, "Failed to allocate message buffer\n"⟩) a := by
        rw [mallocBuffer, hmalloc]
        rfl
      rw [connectIstream, bind_of_error hbuffer]
      rfl
  | some buffer =>
      have hbuffer : mallocBuffer calls a = .ok buffer a := by
        rw [mallocBuffer, hmalloc]
        rfl
      rw [connectIstream, bind_of_ok hbuffer, boundSocket]
      cases hfd : calls.socket with
      | none =>
          have hsocket : openSocket calls a = .error
              (.exit ⟨.socket, "Could not open udp socket. Error = %s\n"⟩) a := by
            rw [openSocket, hfd]
            rfl
          rw [bind_of_error hsocket]
          rfl
      | some fd =>
          have hsocket : openSocket calls a = .ok fd a := by
            rw [openSocket, hfd]
            rfl
          -- the addresses are read, and `bind` may still fail
          rw [bind_of_ok hsocket, bind_of_ok hconvert, bindSocket, setBuffSize]
          cases calls.bind with
          | false => rfl
          | true =>
              cases calls.setsockopt with
              | false => rfl
              | true => rfl

/-- Where a query is split safely, `open` does what it does in that model. -/
theorem ended_camioIstreamUdpOpenAddr {s : DatagramIstream} {descr : CamioDescr}
    {query : List UInt8} {calls : UdpCalls} (h0 : 0 ∉ query) (hquery : descr.query = some query)
    (hsafe : descr.optHead.isSome = true ∨ 22 < query.length ∨
      ∃ ip port, FitsArrays query ip port) :
    (ended (camioIstreamUdpOpenAddr s descr calls) .unset).map (Except.map Prod.fst)
      = some (camioIstreamUdpOpen s descr calls.pageSize calls.malloc (boundSocket calls)) := by
  -- an exit of the checks is that of the other model
  have hexit : ∀ e, checkQuery descr .unset = .error (.exit e) .unset →
      camioIstreamUdpOpen s descr calls.pageSize calls.malloc (boundSocket calls) = .error e →
      (ended (camioIstreamUdpOpenAddr s descr calls) .unset).map (Except.map Prod.fst)
        = some (camioIstreamUdpOpen s descr calls.pageSize calls.malloc (boundSocket calls)) := by
    intro e hcheck hmodel
    have hopen : camioIstreamUdpOpenAddr s descr calls .unset = .error (.exit e) .unset :=
      bind_of_error (bind_of_error hcheck)
    rw [ended, hopen, hmodel]
    rfl
  cases hopts : descr.optHead with
  | some o =>
      refine hexit ⟨.unknownOpt, "Option(s) supplied, but none expected\n"⟩ ?_ ?_
      · rw [checkQuery, hopts, Option.isSome_some, if_pos rfl]
        rfl
      · simp only [camioIstreamUdpOpen, datagramOpen, hopts, Option.isSome_some, if_true]
        rfl
  | none =>
      by_cases hlen : 22 < query.length
      · refine hexit ⟨.socket, "IP Address supplied is >22 chars \"%s\"\n"⟩ ?_ ?_
        · rw [checkQuery, hopts, hquery, if_neg (by decide)]
          dsimp only
          rw [if_pos hlen]
          rfl
        · simp only [camioIstreamUdpOpen, datagramOpen, hopts, hquery, if_pos hlen]
          rfl
      · obtain hopts' | hlen' | ⟨ip, port, hfit⟩ := hsafe
        · rw [hopts] at hopts'
          cases hopts'
        · exact absurd hlen' hlen
        · obtain ⟨a, hsplit, hip, hport⟩ := splitQuery_of_fits hopts hquery h0 hfit
          have hopen : ended (camioIstreamUdpOpenAddr s descr calls) .unset
              = ended (connectIstream s calls) a := by
            rw [ended, ended, camioIstreamUdpOpenAddr, bind_of_ok hsplit]
          rw [hopen, ended_connectIstream hip hport]
          simp only [camioIstreamUdpOpen, datagramOpen, hopts, hquery, if_neg hlen]
          rfl

end Camio.Datagram
