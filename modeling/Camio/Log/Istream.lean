/-
  Camio.Log.Istream

  `camio_istream_log.c`: a stream of newline separated lines.  Bytes are read into
  `line_buffer`; the unread ones start at `data_head_ptr`.  `prepare_next` looks for
  the end of a line among them and reads more if there is none, first behind them,
  then after shifting them to the front, then after doubling the buffer.

  Pointers are addresses in `mem`, the memory the stream's buffer lies in.
-/

import Camio.Descr.Parse
import Camio.Errors
import Camio.Lib.Fd
import Camio.Lib.Heap
import Camio.Log.Line

namespace Camio.Log

open Camio.Lib Camio.Descr

/-- `CAMIO_ISTREAM_ISTREAM_LOG_BUFF_INIT` -/
def istreamBuffInit : Nat := 4096

/-- `camio_istream_log_t`, with the memory its pointers point into and the file
    behind its descriptor. -/
structure LogIstream where
  isClosed : Bool
  escape : Bool
  lineBuffer : Nat
  lineBufferSize : Nat
  lineBufferCount : Nat
  readSize : Nat
  dataHeadPtr : Nat
  mem : Mem
  fd : ReadFd

/-- The fields as `camio_istream_log_construct` initialises them. -/
def camioIstreamLogConstruct (mem : Mem) : LogIstream :=
  { isClosed := true, escape := false -- "Off for the moment since this is borked"
    lineBuffer := 0, lineBufferSize := 0, lineBufferCount := 0, readSize := 0
    dataHeadPtr := 0, mem := mem, fd := ⟨[], []⟩ }

/-- `camio_istream_log_open`.  `block` is what `malloc` returned, `params` a
    descriptor from the outside world (if it is one), `file` the opened file. -/
def camioIstreamLogOpen (s : LogIstream) (descr : CamioDescr) (block : Option Nat)
    (params file : Option ReadFd) : Exit LogIstream :=
  if descr.optHead.isSome then
    eprintfExit .unknownOpt "Option(s) supplied, but none expected\n"
  else
    match block with
    | none => eprintfExit .nullPtr "Could not allocate line buffer\n"
    | some p =>
        let s := { s with
          lineBuffer := p, lineBufferSize := istreamBuffInit, dataHeadPtr := p }
        match params with
        | some fd => .ok { s with fd := fd, isClosed := false }
        | none =>
            if descr.query.isNone then eprintfExit .nullPtr "No filename supplied\n"
            else
              match file with
              | none => eprintfExit .fileOpen "Could not open file \"%s\"\n"
              | some fd => .ok { s with fd := fd, isClosed := false }

/-- `camio_istream_log_close`. -/
def camioIstreamLogClose (s : LogIstream) : LogIstream := { s with isClosed := true }

/-- `read_to_buff`: read behind `newDataPtr` what still fits; 0 if reading would
    block, and at the end of the file, where it closes the stream. -/
def readToBuff (s : LogIstream) (newDataPtr : Nat) (blocking : Bool) : Exit (Nat × LogIstream) :=
  let amount := sizeSub (s.lineBuffer + s.lineBufferSize - 1) newDataPtr
  match s.fd.read blocking amount with
  | (.wouldBlock, fd) => .ok (0, { s with fd := fd })
  | (.error, _) => eprintfExit .fileRead "Could not read tlog input error no=%i (%s)\n"
  | (.data bytes, fd) =>
      if bytes.length = 0 then .ok (0, camioIstreamLogClose { s with fd := fd })
      else .ok (bytes.length, { s with
        mem := s.mem.write newDataPtr bytes
        fd := fd
        lineBufferCount := (s.lineBufferCount + bytes.length) % 2 ^ 64 })

/-! ## Unescaping -/

/-- `ascii_hex_to_int`. -/
def asciiHexToInt (a : UInt8) : Int :=
  if 48 ≤ a.toNat ∧ a.toNat ≤ 57 then a.toNat - 48 -- '0' to '9'
  else if 97 ≤ a.toNat ∧ a.toNat ≤ 102 then a.toNat - 97 + 10 -- 'a' to 'f'
  else if 65 ≤ a.toNat ∧ a.toNat ≤ 70 then a.toNat - 65 + 10 -- 'A' to 'F'
  else -1

/-- The loop of `unescape`, for at most `fuel` turns. -/
def unescapeLoop (m : Mem) (buffer size : Nat) : (fuel read write result : Nat) → Mem × Nat
  | 0, _, _, result => (m, result)
  | fuel + 1, read, write, result =>
      if read < sizeSub size 3 then
        let lower := asciiHexToInt (m (buffer + read + 2))
        let upper := asciiHexToInt (m (buffer + read + 3))
        if m (buffer + read) = 92 ∧ (m (buffer + read + 1) = 120 ∨ m (buffer + read + 1) = 88) ∧
            lower > -1 ∧ upper > -1 then
          let byte := UInt8.ofNat (upper.toNat <<< 4 &&& lower.toNat)
          unescapeLoop (m.write (buffer + write) [byte]) buffer size fuel
            (read + 3 + 1) (write + 1) (sizeSub result 3)
        else unescapeLoop m buffer size fuel (read + 1) (write + 1) result
      else (m, result)

/-- `unescape`: the memory and the size it leaves.  A turn moves `read` on by at
    least one, so the turns run out no earlier than the loop. -/
def unescape (m : Mem) (buffer size : Nat) : Mem × Nat :=
  unescapeLoop m buffer size (sizeSub size 3) 0 0 size

/-- "Unescape the whole buffer first". -/
def unescapeBuffer (s : LogIstream) : LogIstream :=
  if s.escape then
    let (m, count) := unescape s.mem s.dataHeadPtr s.lineBufferCount
    { s with mem := m, lineBufferCount := count }
  else s

/-! ## `prepare_next` -/

/-- The search for the end of a line in `n` bytes from index `i` on: the size of the
    line.  The byte behind a terminator is looked at wherever the data ends. -/
def scanLine (m : Mem) (head : Nat) : (n i : Nat) → Option Nat
  | 0, _ => none
  | n + 1, i =>
      if isTerminator (m (head + i)) then
        if m (head + i + 1) = lf then some (i + 2) -- "Handle windows style line feeds"
        else some (i + 1)
      else scanLine m head n (i + 1)

/-- Move the unread bytes to the front of the buffer. -/
def shiftBuffer (s : LogIstream) : LogIstream :=
  { s with
    mem := s.mem.write s.lineBuffer (s.mem.read s.dataHeadPtr s.lineBufferCount)
    dataHeadPtr := s.lineBuffer }

/-- "Grow the buffer by a power of 2". -/
def growBuffer (A : Allocator) (s : LogIstream) : Exit LogIstream :=
  match A.realloc s.mem s.lineBuffer s.lineBufferSize (s.lineBufferSize * 2 % 2 ^ 64) with
  | none => eprintfExit .nullPtr "Could not grow line buffer\n"
  | some (p, m) => .ok { s with
      mem := m
      lineBuffer := p
      dataHeadPtr := p
      lineBufferSize := s.lineBufferSize * 2 % 2 ^ 64 }

/-- How one turn of the loop in `prepare_next` ends. -/
inductive Turn where
  /-- a line was found: return its size -/
  | found (n : Nat) (s : LogIstream)
  /-- there is nothing to read: return 0 -/
  | empty (s : LogIstream)
  /-- more was read: the next turn -/
  | again (s : LogIstream)

/-- Where the loop goes after `read_to_buff`. -/
def afterRead : Nat × LogIstream → Turn
  | (0, s) => .empty s
  | (_ + 1, s) => .again s

/-- One turn of the loop in `prepare_next`. -/
def prepareTurn (A : Allocator) (blocking : Bool) (s : LogIstream) : Exit Turn :=
  let s := unescapeBuffer s
  match scanLine s.mem s.dataHeadPtr s.lineBufferCount 0 with
  | some i => .ok (.found i { s with readSize := i })
  | none =>
      -- is there more space in the buffer?
      if s.dataHeadPtr + s.lineBufferCount < s.lineBuffer + s.lineBufferSize - 1 then
        (readToBuff s (s.dataHeadPtr + s.lineBufferCount) blocking).map afterRead
      -- can things be moved around in it?
      else if s.dataHeadPtr ≠ s.lineBuffer then
        let s := shiftBuffer s
        (readToBuff s (s.dataHeadPtr + s.lineBufferCount) blocking).map afterRead
      else
        (growBuffer A s).bind fun s =>
          (readToBuff s (s.dataHeadPtr + s.lineBufferCount) blocking).map afterRead

/-- The loop of `prepare_next`, for at most `fuel` turns. -/
def prepareLoop (A : Allocator) (blocking : Bool) : (fuel : Nat) → LogIstream →
    Exit (Nat × LogIstream)
  | 0, s => .ok (0, s)
  | fuel + 1, s =>
      (prepareTurn A blocking s).bind fun
        | .found n s => .ok (n, s)
        | .empty s => .ok (0, s)
        | .again s => prepareLoop A blocking fuel s

/-- `prepare_next`.  Every turn but the last takes a byte off the file, so there are
    at most as many as there are bytes, and one. -/
def prepareNext (A : Allocator) (blocking : Bool) (s : LogIstream) : Exit (Nat × LogIstream) :=
  if s.lineBufferCount = 0 then
    (readToBuff { s with dataHeadPtr := s.lineBuffer } s.lineBuffer blocking).bind
      fun (bytes, s) =>
        if bytes = 0 then .ok (0, s)
        else prepareLoop A blocking (s.fd.stream.length + 1) s
  else prepareLoop A blocking (s.fd.stream.length + 1) s

/-! ## The calls -/

/-- `camio_istream_log_ready`. -/
def camioIstreamLogReady (A : Allocator) (s : LogIstream) : Exit (Nat × LogIstream) :=
  if s.readSize ≠ 0 ∨ s.isClosed then .ok (1, s)
  else
    (prepareNext A false s).map fun (_, s) =>
      (if s.readSize ≠ 0 ∨ s.isClosed then 1 else 0, s)

/-- Hand out the line that `read_size` marks: its pointer and its size without the
    newline. -/
def handOut (s : LogIstream) : (Nat × Nat) × LogIstream :=
  ((s.dataHeadPtr, sizeSub s.readSize 1), { s with
    dataHeadPtr := s.dataHeadPtr + s.readSize
    lineBufferCount := sizeSub s.lineBufferCount s.readSize
    readSize := 0 })

/-- `camio_istream_log_start_read`: the pointer and the size it returns; `none` if it
    sets the pointer to `NULL` and returns 0. -/
def camioIstreamLogStartRead (A : Allocator) (s : LogIstream) :
    Exit (Option (Nat × Nat) × LogIstream) :=
  if s.isClosed then .ok (none, s)
  else if s.readSize = 0 then
    (prepareNext A true s).map fun (n, s) =>
      if n = 0 then (none, s)
      else (some (handOut s).1, (handOut s).2)
  else .ok (some (handOut s).1, (handOut s).2)

/-- `camio_istream_log_end_read`: "always true for file I/O". -/
def camioIstreamLogEndRead (s : LogIstream) : Nat × LogIstream := (0, s)

end Camio.Log
