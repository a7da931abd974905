/-
  Camio.Blob.Ostream

  `camio_ostream_blob.c`: the writing end of a stream of bytes without any structure.  The
  caller builds what it writes in the stream's buffer, or assigns a buffer of its own, and
  `end_write` hands it to `write` piece by piece.

  `write_size` bounds a piece; it grows eightfold whenever a whole piece is transferred.
-/

import Mathlib.Algebra.Group.Int.Defs
import Camio.Descr.Parse
import Camio.Lib.Fd
import Camio.Lib.Heap

namespace Camio.Blob

open Camio.Lib Camio.Descr

/-- `CAMIO_OSTREAM_BLOB_INIT_BUFF_SIZE`, 4kB -/
def initBuffSize : Nat := 4 * 1024

/-- `CAMIO_OSTREAM_BLOB_INIT_WRITE_SIZE`, 512MB -/
def initWriteSize : Nat := 512 * 1024 * 1024

/-- `camio_ostream_blob_t`, with the memory its buffer lies in and the file behind its
    descriptor.  An assigned buffer is the memory behind its pointer. -/
structure BlobOstream where
  isClosed : Bool
  buffer : Nat
  bufferSize : Nat
  assignedBuffer : Option Mem
  assignedBufferSz : Nat
  writeSize : Nat
  mem : Mem
  fd : WriteFd

/-- The fields as `camio_ostream_blob_construct` initialises them. -/
def camioOstreamBlobConstruct (mem : Mem) : BlobOstream :=
  { isClosed := true, buffer := 0, bufferSize := 0, assignedBuffer := none
    assignedBufferSz := 0, writeSize := initWriteSize, mem := mem, fd := ⟨[], []⟩ }

/-- `camio_ostream_blob_open`.  `block` is what `malloc` returned, `params` a descriptor
    from the outside world (if it is one), `file` the opened file. -/
def camioOstreamBlobOpen (s : BlobOstream) (descr : CamioDescr) (block : Option Nat)
    (params file : Option WriteFd) : Exit BlobOstream :=
  if descr.optHead.isSome then
    eprintfExit .unknownOpt "Option(s) supplied, but none expected\n"
  else if descr.query.isNone then eprintfExit .nullPtr "No interface supplied\n"
  else
    match block with
    | none => eprintfExit .nullPtr "Could not allocate output buffer\n"
    | some p =>
        let s := { s with buffer := p, bufferSize := initBuffSize }
        match params with
        | some fd => .ok { s with fd := fd, isClosed := false }
        | none => -- the query has been checked already
            match file with
            | none => eprintfExit .fileOpen "Could not open file \"%s\"\n"
            | some fd => .ok { s with fd := fd, isClosed := false }

/-- `camio_ostream_blob_close`, which frees the buffer too. -/
def camioOstreamBlobClose (s : BlobOstream) : BlobOstream := { s with isClosed := true }

/-- `camio_ostream_blob_start_write`: the buffer, grown "if it's not big enough". -/
def camioOstreamBlobStartWrite (A : Allocator) (s : BlobOstream) (len : Nat) :
    Exit (Nat × BlobOstream) :=
  if len > s.bufferSize then
    match A.realloc s.mem s.buffer s.bufferSize len with
    | none => eprintfExit .nullPtr "Could not grow line buffer\n"
    | some (p, m) => .ok (p, { s with mem := m, buffer := p, bufferSize := len })
  else .ok (s.buffer, s)

/-- `camio_ostream_blob_ready`: "Not implemented". -/
def camioOstreamBlobReady (_ : BlobOstream) : Exit Nat := eprintfExit .notImpl "\n"

/-- `camio_ostream_blob_can_assign_write`. -/
def camioOstreamBlobCanAssignWrite (_ : BlobOstream) : Nat := 1

/-- `camio_ostream_blob_assign_write`; `none` is a `NULL` buffer. -/
def camioOstreamBlobAssignWrite (s : BlobOstream) (buffer : Option Mem) (len : Nat) :
    Exit BlobOstream :=
  match buffer with
  | none => eprintfExit .nullPtr "Assigned buffer is null."
  | some buffer => .ok { s with assignedBuffer := some buffer, assignedBufferSz := len }

/-! ## `end_write` -/

/-- What `write` returned, as a `size_t`: -1 is the greatest of them. -/
def sizeOfResult (r : Int) : Nat := (r % 2 ^ 64).toNat

/-- "Grow this stupidly fast": eightfold, `~0` where that overflows. -/
def growWriteSize (writeSize : Nat) : Nat :=
  if writeSize * 8 % 2 ^ 64 < writeSize then 2 ^ 64 - 1 else writeSize * 8 % 2 ^ 64

/-- `write_size` after a `write` that returned `written`. -/
def nextWriteSize (writeSize written : Nat) : Nat :=
  if written ≥ writeSize then growWriteSize writeSize else writeSize

/-- The loop of `end_write`, `total` being `total_written`, for less than `fuel` turns: the
    new `write_size`, and the descriptor. -/
def writeLoop (source : Mem) (len : Nat) :
    (fuel total writeSize : Nat) → WriteFd → Option (Nat × WriteFd)
  | 0, _, _, _ => none
  | fuel + 1, total, writeSize, fd =>
      if total < len then
        let leftToWrite := len - total
        let (r, fd) := fd.write (source.read total (min leftToWrite writeSize))
        let written := sizeOfResult r
        writeLoop source len fuel ((total + written) % 2 ^ 64) (nextWriteSize writeSize written) fd
      else some (writeSize, fd)

/-- Where `end_write` takes the bytes from. -/
def BlobOstream.source (s : BlobOstream) : Mem :=
  match s.assignedBuffer with
  | some buffer => buffer
  | none => fun i => s.mem (s.buffer + i)

/-- `camio_ostream_blob_end_write`; `none` as long as it has not returned. -/
def camioOstreamBlobEndWrite (s : BlobOstream) (len fuel : Nat) : Option BlobOstream :=
  (writeLoop s.source len fuel 0 s.writeSize s.fd).map fun (writeSize, fd) =>
    { s with writeSize := writeSize, fd := fd, assignedBuffer := none
             assignedBufferSz := if s.assignedBuffer.isSome then 0 else s.assignedBufferSz }

end Camio.Blob
