/-
  Camio.Blob.Istream

  `camio_istream_blob.c`: the whole of a file is mapped into memory and handed out at once.
-/

import Camio.Descr.Parse
import Camio.Lib.ByteMem

namespace Camio.Blob

open Camio.Lib Camio.Descr

/-- `camio_istream_blob_t`; the blob is the memory behind its pointer. -/
structure BlobIstream where
  isClosed : Bool
  blob : Option Mem
  blobSize : Nat
  readSize : Nat
  offset : Nat

/-- The fields as `camio_istream_blob_construct` initialises them. -/
def camioIstreamBlobConstruct : BlobIstream :=
  { isClosed := true, blob := none, blobSize := 0, readSize := 0, offset := 0 }

/-- `camio_istream_blob_open` of a file that can be mapped.  A file without bytes is not, and
    its stream stays closed. -/
def camioIstreamBlobOpen (s : BlobIstream) (descr : CamioDescr) (file : Option (List UInt8)) :
    Exit BlobIstream :=
  if descr.optHead.isSome then
    eprintfExit .unknownOpt "Option(s) supplied, but none expected\n"
  else if descr.query.isNone then eprintfExit .nullPtr "No filename supplied\n"
  else
    match file with
    | none => eprintfExit .fileOpen "Could not open file \"%s\". Error=%s\n"
    | some bytes =>
        let s := { s with blobSize := bytes.length }
        if s.blobSize ≠ 0 then .ok { s with blob := some (Mem.ofBytes bytes), isClosed := false }
        else .ok s

/-- `camio_istream_blob_close`. -/
def camioIstreamBlobClose (s : BlobIstream) : BlobIstream := { s with isClosed := true }

/-- `prepare_next`. -/
def prepareNext (s : BlobIstream) : Nat × BlobIstream :=
  if s.offset = s.blobSize ∨ s.isClosed then (0, { s with readSize := 0 }) -- "Nothing more to read"
  else (s.blobSize, { s with readSize := s.blobSize })

/-- `camio_istream_blob_ready`: "This cannot fail". -/
def camioIstreamBlobReady (s : BlobIstream) : Nat × BlobIstream := (1, (prepareNext s).2)

/-- `camio_istream_blob_start_read`: the pointer and the length it returns. -/
def camioIstreamBlobStartRead (s : BlobIstream) : (Option Mem × Nat) × BlobIstream :=
  if s.isClosed then ((none, 0), s)
  else
    let s := (prepareNext s).2
    if s.readSize = 0 then ((none, 0), s)
    else ((s.blob, s.blobSize), { s with offset := s.blobSize })

/-- `camio_istream_blob_end_read`: "Always true for memory I/O". -/
def camioIstreamBlobEndRead (s : BlobIstream) : Nat × BlobIstream := (0, s)

/-- A stream that was opened on `file`. -/
def openedBlob (file : List UInt8) : BlobIstream :=
  { camioIstreamBlobConstruct with
    isClosed := file.isEmpty
    blob := if file = [] then none else some (Mem.ofBytes file)
    blobSize := file.length }

theorem openedBlob_eq {descr : CamioDescr} (hquery : descr.query.isSome)
    (hopts : descr.optHead = none) (file : List UInt8) :
    camioIstreamBlobOpen camioIstreamBlobConstruct descr (some file) = .ok (openedBlob file) := by
  have h1 := Option.not_isSome_iff_eq_none.mpr hopts
  have h2 := CamioDescr.not_isNone_query hquery
  rw [camioIstreamBlobOpen, if_neg h1, if_neg h2]
  cases file with
  | nil => rfl
  | cons b bs => rfl

/-! ## What is left to hand out -/

/-- The bytes that the stream has not handed out yet: all of them, or none. -/
structure ReadsBlob (s : BlobIstream) (q : List (List UInt8)) : Prop where
  ended : s.isClosed = true ∨ s.offset = s.blobSize → q = []
  whole : ¬ (s.isClosed = true ∨ s.offset = s.blobSize) →
    s.blobSize ≠ 0 ∧ ∃ blob, s.blob = some blob ∧ q = [blob.read 0 s.blobSize]
  size_lt : s.blobSize < 2 ^ 63

section Reading

variable {s : BlobIstream} {q : List (List UInt8)}

theorem readsBlob_opened {file : List UInt8} (hsize : file.length < 2 ^ 63) :
    ReadsBlob (openedBlob file) (if file = [] then [] else [file]) where
  ended := by
    cases file with
    | nil => simp
    | cons b bs => simp [openedBlob, camioIstreamBlobConstruct]
  whole := by
    cases file with
    | nil => simp [openedBlob]
    | cons b bs =>
        intro _
        exact ⟨by simp [openedBlob], _, rfl,
          by rw [openedBlob, Mem.ofBytes_read (Nat.le_refl _), List.take_length]; rfl⟩
  size_lt := hsize

theorem ReadsBlob.ready (h : ReadsBlob s q) : ReadsBlob (camioIstreamBlobReady s).2 q := by
  rw [camioIstreamBlobReady, prepareNext]
  split <;> exact ⟨h.ended, h.whole, h.size_lt⟩

/-- `start_read` hands out what is left. -/
theorem ReadsBlob.startRead (h : ReadsBlob s q) :
    ∃ out len t, camioIstreamBlobStartRead s = ((out, len), t) ∧ ReadsBlob t q.tail ∧
      len < 2 ^ 63 ∧ len = (q.headD []).length ∧
      (∀ blob, out = some blob → blob.read 0 len = q.headD []) ∧ (out = none → q = []) := by
  rw [camioIstreamBlobStartRead]
  by_cases hend : s.isClosed = true ∨ s.offset = s.blobSize
  · obtain rfl := h.ended hend
    by_cases hclosed : s.isClosed = true
    · rw [if_pos hclosed]
      exact ⟨none, 0, s, rfl, h, by decide, rfl, by simp, fun _ => rfl⟩
    · have hprepare : prepareNext s = (0, { s with readSize := 0 }) := by
        rw [prepareNext, if_pos (Or.inl (hend.resolve_left hclosed))]
      rw [if_neg hclosed, hprepare]
      dsimp only
      rw [if_pos rfl]
      exact ⟨none, 0, _, rfl, ⟨h.ended, h.whole, h.size_lt⟩, by decide, rfl, by simp, fun _ => rfl⟩
  · obtain ⟨hpos, blob, hblob, rfl⟩ := h.whole hend
    have hprepare : prepareNext s = (s.blobSize, { s with readSize := s.blobSize }) := by
      rw [prepareNext, if_neg (fun hor => hend hor.symm)]
    rw [if_neg (fun hclosed => hend (Or.inl hclosed)), hprepare]
    dsimp only
    rw [if_neg hpos]
    refine ⟨s.blob, s.blobSize, _, rfl, ⟨fun _ => rfl, fun hleft => ?_, h.size_lt⟩, h.size_lt, ?_,
      ?_, ?_⟩
    · exact absurd (Or.inr rfl) hleft
    · simp
    · intro blob' hblob'
      obtain rfl := Option.some.inj (hblob.symm.trans hblob')
      rfl
    · simp [hblob]

end Reading

end Camio.Blob
