/-
  Camio.Dag.Stream

  `dagapi.c`: how records are taken out of the memory hole of a DAG card.

  The card writes records into the hole, round and round, and keeps its position in
  `record_ptr`; it stops short of `limit_ptr`, which `dag_advance_stream` moves on when it
  gives memory back.  The hole is mapped twice in a row, so that a record which goes round the
  end of the hole lies in one piece.

  Pointers into the mapping are relative to `buf`, and addresses of the card to `bus_addr`.
  The streams are as `camio_istream_dag_open` leaves them: a receive stream with a burst
  manager, `mindata` 0 (nothing is waited for) and the whole of the hole mapped twice.
-/

import Camio.Erf.Record
import Camio.Lib.Wrapped

namespace Camio.Dag

open Camio.Lib Camio.Erf

/-- `dag_record_size` -/
def dagRecordSize : Nat := 16

/-- `SAFETY_WINDOW` -/
def safetyWindow : Nat := 8

/-- The values of `errno`. -/
inductive Errno where
  | ebadf
  | einval
  | enomem
  | eio
  | eagain
deriving DecidableEq

/-- A value that is stored in an `int32_t`. -/
def int32 (v : Int) : Int := v.bmod (2 ^ 32)

/-- `stream_t`, as far as receiving goes, with `opened` of its card. -/
structure StreamT where
  opened : Bool
  attached : Bool
  isFirstTime : Bool
  size : Nat
  offset : Nat
  processed : Nat
  extraWindowSize : Nat
  freeSpace : Int

/-- The card: its hole, the registers of the burst manager, all that it has written, and what
    it still has to write. -/
structure Card where
  configured : Bool
  hole : Mem
  recordPtr : Nat
  limitPtr : Nat
  written : List UInt8
  coming : List UInt8

/-! ## The card -/

/-- How far the card may write. -/
def Card.room (c : Card) (size : Nat) : Nat := (c.limitPtr + (size - c.recordPtr % size)) % size

/-- The card writes `count` bytes, or up to its limit.  At the end of the hole `record_ptr` may
    stand at the end or at the start. -/
def Card.arrive (c : Card) (size count : Nat) (atEnd : Bool) : Card :=
  let bytes := c.coming.take (min count (c.room size))
  let ptr := (c.recordPtr + bytes.length) % size
  { c with
    hole := pour size c.hole c.recordPtr bytes
    recordPtr := if ptr = 0 ∧ atEnd then size else ptr
    written := c.written ++ bytes
    coming := c.coming.drop (min count (c.room size)) }

/-! ## Giving memory back -/

/-- `PBMOFFSET` -/
def pbmOffset (size recordPtr : Nat) : Nat := if recordPtr = size then 0 else recordPtr

/-- `WRSAFE` -/
def wrsafe (size x : Nat) : Nat :=
  if x < safetyWindow then x + size - safetyWindow else x - safetyWindow

/-- `dag_advance_stream`: the pointers behind and at the data, or `errno`. -/
def dagAdvanceStream (s : StreamT) (c : Card) (bottom : Nat) :
    Except Errno (Nat × Nat) × Card :=
  if ¬ s.opened then (.error .ebadf, c)
  else if ¬ s.attached then (.error .einval, c)
  else if ¬ c.configured then (.error .enomem, c) -- "hole not configured"
  else
    let bottom := if bottom ≥ s.size then bottom - s.size else bottom
    let offset := pbmOffset s.size c.recordPtr
    let c := { c with limitPtr := wrsafe s.size bottom }
    if offset > s.size then (.error .eio, c) -- "Sanity check"
    else
      -- "use extra memmapping to make it look contiguous"
      let offset := if offset < bottom then offset + s.size else offset
      let offset :=
        if offset > s.size + s.extraWindowSize then s.size + s.extraWindowSize else offset
      (.ok (offset, bottom), c)

/-! ## Taking the next record -/

/-- What both checks of `dag_rx_stream_next_record` do: if fewer than `need` bytes are known,
    or the window would be left, memory is given back and more data looked for. -/
def ensure (s : StreamT) (c : Card) (nextRecord need : Nat) :
    Except Errno Nat × StreamT × Card :=
  if s.freeSpace < (need : Int) ∨ (s.processed + need) % 2 ^ 32 > s.extraWindowSize then
    match dagAdvanceStream s c nextRecord with
    | (.error e, c) => (.error e, s, c)
    | (.ok (top, nextRecord), c) =>
        let freeSpace := int32 ((top : Int) - (nextRecord : Int))
        let s := { s with processed := 0, freeSpace := freeSpace }
        if freeSpace < (need : Int) then (.error .eagain, s, c) else (.ok nextRecord, s, c)
  else (.ok nextRecord, s, c)

/-- A record, `NULL` with `errno`, or an access out of the mapping. -/
inductive Next where
  | record (p : Nat)
  | none (e : Errno)
  | fault
deriving DecidableEq

/-- The initialisation on the first call. -/
def StreamT.firstTime (s : StreamT) : StreamT :=
  if s.isFirstTime then { s with freeSpace := 0, offset := 0, processed := 0, isFirstTime := false }
  else s

/-- The header at `p` declares a type from `TYPE_MIN` to `TYPE_MAX`. -/
def TypeOk (m : Mem) (p : Nat) : Prop :=
  1 ≤ (recordType m p &&& 0x7F).toNat ∧ (recordType m p &&& 0x7F).toNat ≤ 48

instance (m : Mem) (p : Nat) : Decidable (TypeOk m p) := inferInstanceAs (Decidable (_ ∧ _))

/-- `dag_rx_stream_next_record`.  `between` is what the card does between the two checks. -/
def dagRxStreamNextRecord (between : Card → Card) (s : StreamT) (c : Card) :
    Next × StreamT × Card :=
  if ¬ s.opened then (.none .ebadf, s, c)
  else if ¬ s.attached then (.none .einval, s, c)
  else
    let s := s.firstTime
    match ensure s c s.offset dagRecordSize with
    | (.error e, s, c) => (.none e, s, c)
    | (.ok nextRecord, s, c) =>
        let view := twice s.size c.hole
        -- `type` and `rlen` are in the first 12 bytes
        if nextRecord + 12 > s.size + s.extraWindowSize then (.fault, s, c)
        else if ¬ TypeOk view nextRecord then (.none .eio, s, c)
        else
          let rlen := recordRlen view nextRecord
          match ensure s (between c) nextRecord rlen with
          | (.error e, s, c) => (.none e, s, c)
          | (.ok nextRecord, s, c) =>
              (.record nextRecord, { s with
                offset := (rlen + nextRecord) % 2 ^ 32
                freeSpace := int32 (s.freeSpace - (rlen : Int))
                processed := (s.processed + rlen) % 2 ^ 32 }, c)

/-! ## Runs -/

/-- A stream, its card, and what was taken. -/
structure Session where
  stream : StreamT
  card : Card
  /-- the bytes of the records, as they were when they were returned -/
  taken : List (List UInt8)
  /-- the pointer and the length of the record that the last call has returned -/
  held : Option (Nat × Nat)

inductive Event where
  | arrive (count : Nat) (atEnd : Bool)
  /-- a call, during which the card writes -/
  | next (count : Nat) (atEnd : Bool)

/-- The memory as the stream sees it. -/
def Session.view (σ : Session) : Mem := twice σ.stream.size σ.card.hole

/-- An access out of the mapping is refused. -/
def step (σ : Session) : Event → Option Session
  | .arrive count atEnd =>
      some { σ with card := σ.card.arrive σ.stream.size count atEnd }
  | .next count atEnd =>
      match dagRxStreamNextRecord (fun c => c.arrive σ.stream.size count atEnd)
          σ.stream σ.card with
      | (.fault, _, _) => none
      | (.none _, s, c) => some { σ with stream := s, card := c, held := none }
      | (.record p, s, c) =>
          let view := twice s.size c.hole
          some {
            stream := s
            card := c
            taken := σ.taken ++ [view.read p (recordRlen view p)]
            held := some (p, recordRlen view p) }

/-- A stream that `dag_attach_stream` and `dag_start_stream` have prepared, of a card that is
    going to write `records`. -/
def init (size : Nat) (hole : Mem) (records : List (List UInt8)) : Session :=
  { stream := { opened := true, attached := true, isFirstTime := true, size := size, offset := 0
                processed := 0, extraWindowSize := size, freeSpace := 0 }
    card := { configured := true, hole := hole, recordPtr := 0
              limitPtr := size - safetyWindow, written := [], coming := records.flatten }
    taken := []
    held := none }

end Camio.Dag
