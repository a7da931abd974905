/-
  Camio.Log.Ostream

  `camio_ostream_log.c`: the writing end of a log.  The caller builds a message in
  the stream's buffer, or assigns one of its own, and `end_write` writes it to the
  file with a newline behind it.  With the option `escape` the bytes outside of the
  printable ones are written as `\xHH`.

  What `write` returns is added up in `result`, which nothing reads; `end_write`
  always returns `NULL`.
-/

import Camio.Descr.Parse
import Camio.Errors
import Camio.Lib.Fd
import Camio.Lib.Heap
import Camio.Log.Line

namespace Camio.Log

open Camio.Lib Camio.Descr

/-- `CAMIO_OSTREAM_LOG_BUFF_INIT`, 4MB -/
def ostreamBuffInit : Nat := 4 * 1024 * 1024

/-- `camio_ostream_log_t`, with the memory its buffer lies in and the file behind its
    descriptor.  An assigned buffer is the memory behind its pointer. -/
structure LogOstream where
  isClosed : Bool
  escape : Bool
  buffer : Nat
  bufferSize : Nat
  assignedBuffer : Option Mem
  assignedBufferSz : Nat
  mem : Mem
  fd : WriteFd

/-- The fields as `camio_ostream_log_construct` initialises them. -/
def camioOstreamLogConstruct (mem : Mem) : LogOstream :=
  { isClosed := true, escape := false -- "Off for the moment until the istream works"
    buffer := 0, bufferSize := 0, assignedBuffer := none, assignedBufferSz := 0
    mem := mem, fd := ⟨[], []⟩ }

/-- `"escape"` -/
def escapeName : List UInt8 := [101, 115, 99, 97, 112, 101]

/-- The value that the first option gives `escape`. -/
def escapeOption (escape : Bool) (descr : CamioDescr) : Exit Bool :=
  match descr.options with
  | [] => .ok escape
  | (name, value) :: _ =>
      if name = some escapeName then
        match value.bind List.head? with
        | some 49 => .ok true -- '1'
        | some 48 => .ok false -- '0'
        | _ => eprintfExit .unknownOpt
            "Unknown option value supplied \"s\". Valid values are \"1\" or \"0\"\n"
      else eprintfExit .unknownOpt
        "Unknown option supplied \"s\". Valid options for this stream are: \"escape\"\n"

/-- `camio_ostream_log_open`.  `block` is what `malloc` returned, `params` a
    descriptor from the outside world (if it is one), `file` the opened file. -/
def camioOstreamLogOpen (s : LogOstream) (descr : CamioDescr) (block : Option Nat)
    (params file : Option WriteFd) : Exit LogOstream :=
  (escapeOption s.escape descr).bind fun escape =>
    match block with
    | none => eprintfExit .nullPtr "Could not allocate output buffer\n"
    | some p =>
        let s := { s with escape := escape, buffer := p, bufferSize := ostreamBuffInit }
        match params with
        | some fd => .ok { s with fd := fd, isClosed := false }
        | none =>
            if descr.query.isNone then eprintfExit .nullPtr "No filename supplied\n"
            else
              match file with
              | none => eprintfExit .fileOpen "Could not open file \"%s\"\n"
              | some fd => .ok { s with fd := fd, isClosed := false }

/-- `camio_ostream_log_close`. -/
def camioOstreamLogClose (s : LogOstream) : LogOstream := { s with isClosed := true }

/-- `camio_ostream_log_start_write`: the buffer, grown if the message and its newline
    do not fit. -/
def camioOstreamLogStartWrite (A : Allocator) (s : LogOstream) (len : Nat) :
    Exit (Nat × LogOstream) :=
  let len := (len + 1) % 2 ^ 64 -- "Add space for a newline"
  if len > s.bufferSize then
    match A.realloc s.mem s.buffer s.bufferSize len with
    | none => eprintfExit .nullPtr "Could not grow line buffer\n"
    | some (p, m) => .ok (p, { s with mem := m, buffer := p, bufferSize := len })
  else .ok (s.buffer, s)

/-- `camio_ostream_log_ready`: "Not implemented". -/
def camioOstreamLogReady (_ : LogOstream) : Exit Nat := eprintfExit .notImpl "\n"

/-- `camio_ostream_log_can_assign_write`. -/
def camioOstreamLogCanAssignWrite (_ : LogOstream) : Nat := 1

/-- `camio_ostream_log_assign_write`; `none` is a `NULL` buffer. -/
def camioOstreamLogAssignWrite (s : LogOstream) (buffer : Option Mem) (len : Nat) :
    Exit LogOstream :=
  match buffer with
  | none => eprintfExit .nullPtr "Assigned buffer is null."
  | some buffer => .ok { s with assignedBuffer := some buffer, assignedBufferSz := len }

/-! ## `end_write` -/

/-- A digit of `%X`. -/
def hexDigit (n : Nat) : UInt8 := UInt8.ofNat (if n < 10 then 48 + n else 55 + n)

/-- `"\\x%02X"` -/
def escapedHex (b : UInt8) : List UInt8 :=
  [92, 120, hexDigit (b.toNat / 16), hexDigit (b.toNat % 16)]

/-- The loop that writes `n` more bytes from index `i` on, those from `first` on not
    being written yet.  What is left of them at the end stays so. -/
def escapeLoop (buffer : Mem) : (n i first : Nat) → WriteFd → WriteFd
  | 0, _, _, fd => fd
  | n + 1, i, first, fd =>
      if (buffer i).toNat < 0x20 ∨ (buffer i).toNat > 0x7E then
        let fd := if i > 0 ∧ i - first > 0 then (fd.write (buffer.read first (i - first))).2
          else fd
        escapeLoop buffer n (i + 1) (i + 1) (fd.write (escapedHex (buffer i))).2
      else escapeLoop buffer n (i + 1) first fd

/-- Where `end_write` takes the message from. -/
def LogOstream.source (s : LogOstream) : Mem :=
  match s.assignedBuffer with
  | some buffer => buffer
  | none => fun i => s.mem (s.buffer + i)

/-- `camio_ostream_log_end_write`. -/
def camioOstreamLogEndWrite (s : LogOstream) (len : Nat) : LogOstream :=
  if s.escape = false then -- "The simple (fast) case"
    match s.assignedBuffer with
    | some buffer =>
        let fd := (s.fd.write (buffer.read 0 len)).2
        let fd := (fd.write [lf]).2
        { s with fd := fd, assignedBuffer := none, assignedBufferSz := 0 }
    | none =>
        let mem := s.mem.write (s.buffer + len) [lf]
        { s with mem := mem, fd := (s.fd.write (mem.read s.buffer ((len + 1) % 2 ^ 64))).2 }
  else
    let fd := escapeLoop s.source len 0 0 s.fd
    let fd := (fd.write [lf]).2
    match s.assignedBuffer with
    | some _ => { s with fd := fd, assignedBuffer := none, assignedBufferSz := 0 }
    | none => { s with fd := fd }

end Camio.Log
