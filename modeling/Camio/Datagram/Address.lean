/-
  Camio.Datagram.Address

  The addresses of `camio_istream_udp.c` and `camio_ostream_udp.c`.

  Both `open` functions copy the two halves of the query, `ip:port`, into local arrays of
  17 and 6 characters, from which `inet_addr` and `strtol` then read.  What is checked is
  the length of the whole query, once in front of the loop that looks for the ':', and
  once more behind it.

  A store behind the end of an array, and reading an array that holds no string, are
  faults.  An outcome keeps the arrays as they were then, so that it shows what has been
  copied.
-/

import Mathlib.Algebra.Group.Int.Defs
import Camio.Datagram.Istream
import Camio.Lib.ByteOrder
import Camio.Lib.Local

namespace Camio.Datagram

open Camio.Lib Camio.Descr

/-- The local arrays of `open`. -/
structure UdpAddress where
  ipAddr : Local 17
  udpPort : Local 6
deriving DecidableEq

/-- The arrays as they are declared. -/
def UdpAddress.unset : UdpAddress := ⟨.unset 17, .unset 6⟩

/-- Why `open` does not return. -/
inductive OpenFault where
  | exit (e : ErrorExit)
  | overflow
  | noString
deriving DecidableEq

/-- A part of `open`, with its local arrays. -/
abbrev UdpOpen (α : Type) := EStateM OpenFault UdpAddress α

/-- `struct sockaddr_in`, of the family `AF_INET`. -/
structure SockaddrIn where
  sAddr : Nat
  sinPort : Nat
deriving DecidableEq

/-- What the calls of `open` come to: the block that `malloc` returns, the socket that
    `socket` makes, whether `bind` and `setsockopt` succeed, and the numbers that
    `inet_addr` and `strtol` read from a string. -/
structure UdpCalls where
  pageSize : ℕ+
  malloc : Option Nat
  socket : Option Socket
  bind : Bool
  setsockopt : Bool
  inetAddr : List UInt8 → Nat
  strtol : List UInt8 → Int

/-- The fields that `camio_ostream_udp_open` sets, `fd` being its socket. -/
structure UdpOstream where
  isClosed : Bool
  buffer : Nat
  bufferSize : Nat
  addr : SockaddrIn
  fd : Socket

/-- `eprintf_exit`. -/
def exitOpen {α : Type} (errNo : CamioErr) (format : String) : UdpOpen α :=
  throw (.exit ⟨errNo, format⟩)

/-- The checks in front of the loop. -/
def checkQuery (descr : CamioDescr) : UdpOpen (List UInt8) :=
  if descr.optHead.isSome then
    exitOpen .unknownOpt "Option(s) supplied, but none expected\n"
  else
    match descr.query with
    | none => exitOpen .socket "No address supplied\n"
    | some query =>
      if query.length > 22 then exitOpen .socket "IP Address supplied is >22 chars \"%s\"\n"
      else pure query

/-- The four statements at the ':', whose place is `i`. -/
def copyHalves (query : List UInt8) (i : Nat) : UdpOpen Unit := fun a =>
  match a.ipAddr.copyString (query.take i) with
  | none => .error .overflow a
  | some ipAddr =>
    let a := { a with ipAddr := ipAddr }
    match a.udpPort.copyString ((query.drop (i + 1)).take (query.length - i - 1)) with
    | none => .error .overflow a
    | some udpPort => .ok () { a with udpPort := udpPort }

/-- The loop "Find the IP:port", with `rest` turns to go. -/
def findIpPort (query : List UInt8) : Nat → Nat → UdpOpen Unit
  | 0, _ => pure ()
  | rest + 1, i =>
      if query[i]? = some Descr.colon then copyHalves query i else findIpPort query rest (i + 1)

/-- The check behind the loop. -/
def checkColon (query : List UInt8) : UdpOpen Unit :=
  if query.length > 22 then
    exitOpen .socket
      "IP Address supplied does not have a \":\" for the port number \"%s\"\n"
  else pure ()

/-- Hand an array to a function that reads a string. -/
def readString {n : Nat} (a : Local n) : UdpOpen (List UInt8) :=
  match a.string with
  | none => throw .noString
  | some s => pure s

/-- `inet_addr(ip_addr)` and `htons(strtol(udp_port,NULL,10))`. -/
def convertAddress (calls : UdpCalls) : UdpOpen SockaddrIn := do
  let ip ← readString (← get).ipAddr
  let port ← readString (← get).udpPort
  pure { sAddr := calls.inetAddr ip, sinPort := htons (calls.strtol port % 2 ^ 16).toNat }

/-- The block of the buffer. -/
def mallocBuffer (calls : UdpCalls) : UdpOpen Nat :=
  match calls.malloc with
  | none => exitOpen .nullPtr "Failed to allocate message buffer\n"
  | some buffer => pure buffer

/-- "Open the udp socket MAC/PHY layer output stage" -/
def openSocket (calls : UdpCalls) : UdpOpen Socket :=
  match calls.socket with
  | none => exitOpen .socket "Could not open udp socket. Error = %s\n"
  | some fd => pure fd

/-- `bind`, of the istream. -/
def bindSocket (calls : UdpCalls) : UdpOpen Unit :=
  if calls.bind then pure ()
  else exitOpen .bind "Could not bind raw socket. Error = %s\n"

/-- `setsockopt`, with the size of the socket's buffer. -/
def setBuffSize (calls : UdpCalls) : UdpOpen Unit :=
  if calls.setsockopt then pure ()
  else exitOpen .sockOpt "Could not set socket option. Error = %s\n"

/-- What the two `open` functions do before they differ. -/
def splitQuery (descr : CamioDescr) : UdpOpen Unit := do
  let query ← checkQuery descr
  findIpPort query query.length 0
  checkColon query

/-- The rest of `camio_istream_udp_open`. -/
def connectIstream (s : DatagramIstream) (calls : UdpCalls) :
    UdpOpen (DatagramIstream × SockaddrIn) := do
  let buffer ← mallocBuffer calls
  let fd ← openSocket calls
  let addr ← convertAddress calls
  bindSocket calls
  setBuffSize calls
  pure ({ s with
    isClosed := false, buffer := buffer, bufferSize := calls.pageSize * 1024, fd := fd }, addr)

/-- The rest of `camio_ostream_udp_open`. -/
def connectOstream (calls : UdpCalls) : UdpOpen UdpOstream := do
  let buffer ← mallocBuffer calls
  let fd ← openSocket calls
  setBuffSize calls
  let addr ← convertAddress calls
  pure { isClosed := false, buffer := buffer, bufferSize := calls.pageSize, addr := addr, fd := fd }

/-- `camio_istream_udp_open`, with the address it binds the socket to. -/
def camioIstreamUdpOpenAddr (s : DatagramIstream) (descr : CamioDescr) (calls : UdpCalls) :
    UdpOpen (DatagramIstream × SockaddrIn) := do
  splitQuery descr
  connectIstream s calls

/-- `camio_ostream_udp_open`. -/
def camioOstreamUdpOpen (descr : CamioDescr) (calls : UdpCalls) : UdpOpen UdpOstream := do
  splitQuery descr
  connectOstream calls

/-! ## What the parts do -/

section Parts

variable {α β : Type} {x : UdpOpen α} {f : α → UdpOpen β} {v : α} {e : OpenFault}
  {a b : UdpAddress} {query ip port : List UInt8} {descr : CamioDescr} {calls : UdpCalls}

theorem bind_of_ok (h : x a = .ok v b) : (x >>= f) a = f v b := by
  show EStateM.bind x f a = _
  rw [EStateM.bind, h]

theorem bind_of_error (h : x a = .error e b) : (x >>= f) a = .error e b := by
  show EStateM.bind x f a = _
  rw [EStateM.bind, h]

/-- Without a ':' the loop leaves the arrays as they are. -/
theorem findIpPort_of_not_mem (h : Descr.colon ∉ query) (rest i : Nat) :
    findIpPort query rest i a = .ok () a := by
  induction rest generalizing i with
  | zero => rfl
  | succ rest ih =>
      have hne : query[i]? ≠ some Descr.colon := fun hi => h (List.mem_of_getElem? hi)
      rw [findIpPort, if_neg hne, ih]

/-- Otherwise it stops at the first one. -/
theorem findIpPort_split (hquery : query = ip ++ Descr.colon :: port) (hfirst : Descr.colon ∉ ip)
    {rest i : Nat} (hi : i ≤ ip.length) (hrest : ip.length < i + rest) :
    findIpPort query rest i a = copyHalves query ip.length a := by
  induction rest generalizing i with
  | zero => omega
  | succ rest ih =>
      rw [findIpPort]
      by_cases hend : i = ip.length
      · have hcolon : query[i]? = some Descr.colon := by
          rw [hend, hquery, List.getElem?_append_right (Nat.le_refl _), Nat.sub_self,
            List.getElem?_cons_zero]
        rw [if_pos hcolon, hend]
      · have hne : query[i]? ≠ some Descr.colon := by
          rw [hquery, List.getElem?_append_left (by omega)]
          exact fun hcolon => hfirst (List.mem_of_getElem? hcolon)
        rw [if_neg hne, ih (by omega) (by omega)]

/-- The halves that are copied there. -/
theorem halves_of_split (hquery : query = ip ++ Descr.colon :: port) :
    query.take ip.length = ip ∧
      (query.drop (ip.length + 1)).take (query.length - ip.length - 1) = port := by
  have hlen : query.length - ip.length - 1 = port.length := by
    rw [hquery, List.length_append, List.length_cons]
    omega
  have hdrop : query.drop (ip.length + 1) = port := by
    rw [hquery, ← List.drop_drop, List.drop_left, List.drop_one, List.tail_cons]
  refine ⟨by rw [hquery, List.take_left], ?_⟩
  rw [hdrop, hlen, List.take_length]

/-- Both halves are copied, if their arrays have a cell more than they have characters. -/
theorem copyHalves_of_fits (hquery : query = ip ++ Descr.colon :: port) (h0 : 0 ∉ query)
    (hip : ip.length ≤ 16) (hport : port.length ≤ 5) :
    ∃ b, copyHalves query ip.length a = .ok () b ∧
      b.ipAddr.string = some ip ∧ b.udpPort.string = some port := by
  obtain ⟨ipAddr, hcopyIp, hipAddr⟩ := a.ipAddr.copyString_of_lt (Nat.lt_succ_of_le hip)
    fun h => h0 (by simp [hquery, h])
  obtain ⟨udpPort, hcopyPort, hudpPort⟩ := a.udpPort.copyString_of_lt (Nat.lt_succ_of_le hport)
    fun h => h0 (by simp [hquery, h])
  refine ⟨⟨ipAddr, udpPort⟩, ?_, hipAddr, hudpPort⟩
  rw [copyHalves, (halves_of_split hquery).1, (halves_of_split hquery).2, hcopyIp]
  dsimp only
  rw [hcopyPort]

/-- Otherwise a store goes behind the end of one of them. -/
theorem copyHalves_overflow (hquery : query = ip ++ Descr.colon :: port)
    (h : 16 < ip.length ∨ 5 < port.length) :
    ∃ b, copyHalves query ip.length a = .error .overflow b := by
  rw [copyHalves, (halves_of_split hquery).1, (halves_of_split hquery).2]
  cases hcopy : a.ipAddr.copyString ip with
  | none => exact ⟨_, rfl⟩
  | some ipAddr =>
      dsimp only
      -- the first half has been copied, so it is the second that is too long
      have hport : 5 < port.length := by
        refine h.resolve_left fun hip => ?_
        rw [Local.copyString_eq_none hip] at hcopy
        cases hcopy
      rw [Local.copyString_eq_none hport]
      exact ⟨_, rfl⟩

/-- The checks end the program, and the arrays have not been touched. -/
theorem splitQuery_rejects (h : descr.optHead.isSome = true ∨
    ∀ query, descr.query = some query → 22 < query.length) :
    ∃ e, ∀ a, splitQuery descr a = .error (.exit e) a := by
  have hcheck : ∃ e, ∀ a, checkQuery descr a = .error (.exit e) a := by
    rw [checkQuery]
    split
    next => exact ⟨_, fun _ => rfl⟩
    next hopts =>
      cases hquery : descr.query with
      | none => exact ⟨_, fun _ => rfl⟩
      | some query =>
          dsimp only
          rw [if_pos (h.resolve_left hopts query hquery)]
          exact ⟨_, fun _ => rfl⟩
  obtain ⟨e, he⟩ := hcheck
  exact ⟨e, fun a => bind_of_error (he a)⟩

/-- A query that passes the checks goes through the loop, and passes the last one too. -/
theorem splitQuery_eq (hopts : descr.optHead = none) (hquery : descr.query = some query)
    (hlen : query.length ≤ 22) : splitQuery descr a = findIpPort query query.length 0 a := by
  have hcheck : checkQuery descr a = .ok query a := by
    rw [checkQuery, hopts, if_neg (by decide), hquery]
    dsimp only
    rw [if_neg (Nat.not_lt_of_le hlen)]
    rfl
  have hcolon : ∀ b, checkColon query b = .ok () b := fun b => by
    rw [checkColon, if_neg (Nat.not_lt_of_le hlen)]
    rfl
  rw [splitQuery, bind_of_ok hcheck]
  cases hfind : findIpPort query query.length 0 a with
  | error e b => exact bind_of_error hfind
  | ok u b => rw [bind_of_ok hfind, hcolon]

/-- `inet_addr` and `strtol` read what is in the arrays. -/
theorem convertAddress_eq (hip : a.ipAddr.string = some ip) (hport : a.udpPort.string = some port) :
    convertAddress calls a = .ok
      { sAddr := calls.inetAddr ip, sinPort := htons (calls.strtol port % 2 ^ 16).toNat } a := by
  have hget : (get : UdpOpen UdpAddress) a = .ok a a := rfl
  have hreadIp : (readString a.ipAddr : UdpOpen (List UInt8)) a = .ok ip a := by
    rw [readString, hip]
    rfl
  have hreadPort : (readString a.udpPort : UdpOpen (List UInt8)) a = .ok port a := by
    rw [readString, hport]
    rfl
  rw [convertAddress, bind_of_ok hget, bind_of_ok hreadIp, bind_of_ok hget, bind_of_ok hreadPort]
  rfl

/-- There is nothing to read in an array that has not been stored to. -/
theorem convertAddress_unset : convertAddress calls .unset = .error .noString .unset := by
  have hget : (get : UdpOpen UdpAddress) .unset = .ok .unset .unset := rfl
  have hread : (readString UdpAddress.unset.ipAddr : UdpOpen (List UInt8)) .unset
      = .error .noString .unset := by
    rw [readString, show UdpAddress.unset.ipAddr.string = none from Local.string_unset 17]
    rfl
  rw [convertAddress, bind_of_ok hget, bind_of_error hread]

end Parts

end Camio.Datagram
