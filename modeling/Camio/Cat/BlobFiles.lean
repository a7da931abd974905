/-
  Camio.Cat.BlobFiles

  `camio_cat` from blob files to a blob file: what `cat` does.

  A blob istream has one message, the whole file, so with any selector the files follow one
  another; a blob ostream writes all of a message however little `write` transfers at a time.
-/

import Camio.Blob.Assigned
import Camio.Blob.Istream
import Camio.Cat.Order

namespace Camio.Cat

open Camio.Lib Camio.Selector Camio.Blob

/-! ## The streams -/

/-- The functions of a blob istream. -/
def blobIstream : IstreamCalls BlobIstream where
  ready s := .ok (camioIstreamBlobReady s)
  startRead s :=
    let ((out, len), s) := camioIstreamBlobStartRead s
    .ok ({ out := out, len := len }, s)
  endRead s _ := .ok (camioIstreamBlobEndRead s)

/-- The functions of a blob ostream, whose `end_write` returns `NULL`; its loop gets a turn for
    each byte and one more. -/
def blobOstream (A : Allocator) : OstreamCalls BlobOstream where
  canAssignWrite := camioOstreamBlobCanAssignWrite
  assignWrite s buffer len := (camioOstreamBlobAssignWrite s buffer len).mapError .exit
  startWrite s len :=
    ((camioOstreamBlobStartWrite A s len).mapError .exit).map fun (p, s) => (some p, s)
  store s ptr bytes := { s with mem := s.mem.write ptr bytes }
  endWrite s len :=
    match camioOstreamBlobEndWrite s len (len + 1) with
    | none => .error .waiting
    | some s => .ok (none, s)

theorem blobIstream_delivers : Delivers blobIstream ReadsBlob where
  ready := fun hs => ⟨1, _, rfl, Nat.one_ne_zero, hs.ready⟩
  startRead := by
    intro s q hs
    obtain ⟨out, len, t, hread, ht, hlt, hlen, hbytes, hnone⟩ := hs.startRead
    have hcall : blobIstream.startRead s = .ok ({ out := out, len := len }, t) := by
      simp only [blobIstream, hread]
    refine ⟨_, t, hcall, by dsimp only; omega, hlen, ?_, ht⟩
    cases hout : out with
    | none => rw [Handed.message, hnone hout, List.headD_nil]
    | some blob => exact hbytes blob hout
  endRead := fun hs _ => ⟨0, _, rfl, hs⟩

/-- An output whose file holds the messages, and whose `write` does not fail. -/
structure WritesBlobs (s : BlobOstream) (ms : List (List UInt8)) : Prop where
  succeeds : ∀ turn ∈ s.fd.turns, turn ≠ .error
  pos : 0 < s.writeSize
  size_lt : s.writeSize < 2 ^ 64
  received : s.fd.received = ms.flatten

/-- `end_write` returns, and has written all of its message. -/
theorem WritesBlobs.endWrite {s : BlobOstream} {ms : List (List UInt8)} {len : Nat}
    (h : WritesBlobs s ms) (hlen : len < 2 ^ 64) :
    ∃ s', camioOstreamBlobEndWrite s len (len + 1) = some s' ∧
      WritesBlobs s' (ms ++ [s.source.read 0 len]) := by
  -- `write_size` stays positive, so that every turn of the loop writes something
  let P : Nat → Prop := fun x => 0 < x ∧ x < 2 ^ 64
  have hnext : ∀ x written, P x → P (nextWriteSize x written) :=
    fun x written hx => ⟨nextWriteSize_pos hx.1, nextWriteSize_lt hx.2⟩
  have hstart : P s.writeSize := ⟨h.pos, h.size_lt⟩
  obtain ⟨n, w, hn, hend, htotal, hw⟩ :=
    (writing_start hstart s.source len).ends hlen h.succeeds (fun x hx => hx.1) hnext
  refine ⟨_, camioOstreamBlobEndWrite_of_endsAfter hend (Nat.lt_succ_of_le hn), ?_⟩
  exact {
    succeeds := fun turn hturn => h.succeeds turn (hw.turns.subset hturn)
    pos := hw.size.1
    size_lt := hw.size.2
    received := by
      show w.fd.received = _
      rw [hw.received, htotal, h.received, List.flatten_append, List.flatten_singleton] }

theorem blobOstream_takes (A : Allocator) : Takes (blobOstream A) WritesBlobs where
  take := by
    intro s ms len hs _ hlen buffer
    have hassigned :
        WritesBlobs { s with assignedBuffer := some buffer, assignedBufferSz := len } ms :=
      ⟨hs.succeeds, hs.pos, hs.size_lt, hs.received⟩
    obtain ⟨s', hend, hs'⟩ := hassigned.endWrite hlen
    refine ⟨none, _, none, s', rfl, ?_, hs'⟩
    simp only [blobOstream, hend]

theorem writesBlobs_opened (p : Nat) (mem : Mem) {turns : List WriteTurn}
    (hok : ∀ turn ∈ turns, turn ≠ .error) : WritesBlobs (blobInit p mem ⟨[], turns⟩).stream [] where
  succeeds := hok
  pos := by
    show 0 < initWriteSize
    decide
  size_lt := by
    show initWriteSize < 2 ^ 64
    decide
  received := rfl

/-! ## The program -/

section Files

variable {files : List (List UInt8)}

/-- The message of the `i`-th file. -/
def blobOf (files : List (List UInt8)) (i : Nat) : List (List UInt8) :=
  if files.getD i [] = [] then [] else [files.getD i []]

theorem upToEmpty_blobOf (i : Nat) : upToEmpty (blobOf files i) = blobOf files i := by
  rw [upToEmpty, blobOf]
  split <;> simp_all

theorem blobOf_flatten (i : Nat) : (blobOf files i).flatten = files.getD i [] := by
  rw [blobOf]
  split
  · rename_i hempty
    rw [hempty, List.flatten_nil]
  · rw [List.flatten_singleton]

/-- The files whose inputs the selector holds. -/
theorem map_getD_range :
    (List.range (min files.length 32)).map (fun i => files.getD i []) = files.take 32 := by
  apply List.ext_getElem?
  intro i
  rw [List.getElem?_map, List.getElem?_take]
  by_cases hi : i < min files.length 32
  · have hin : i < files.length := by omega
    rw [List.getElem?_range hi, if_pos (by omega), List.getElem?_eq_getElem hin, Option.map_some,
      List.getD_eq_getElem?_getD, List.getElem?_eq_getElem hin, Option.getD_some]
  · rw [List.getElem?_eq_none (by rw [List.length_range]; omega), Option.map_none]
    by_cases hlt : i < 32
    · rw [if_pos hlt, List.getElem?_eq_none (by omega)]
    · rw [if_neg hlt]

theorem flatten_blobsOf (first : Nat) :
    (((List.range (min files.length 32)).rotate first).flatMap (blobOf files)).flatten
      = ((files.take 32).rotate first).flatten := by
  have hflat : ∀ l : List Nat,
      (l.flatMap (blobOf files)).flatten = (l.map fun i => files.getD i []).flatten := by
    intro l
    induction l with
    | nil => rfl
    | cons i l ih =>
        rw [List.flatMap_cons, List.flatten_append, ih, blobOf_flatten, List.map_cons,
          List.flatten_cons]
  rw [hflat, List.map_rotate, map_getD_range]

theorem length_blobOf (i : Nat) : (blobOf files i).length ≤ 1 := by
  rw [blobOf]
  split <;> simp

theorem readsBlob_input (hfiles : ∀ f ∈ files, f.length < 2 ^ 63) {i : Nat} {s : BlobIstream}
    (hi : (files.map openedBlob)[i]? = some s) : ReadsBlob s (blobOf files i) := by
  rw [List.getElem?_map, Option.map_eq_some_iff] at hi
  obtain ⟨file, hfile, rfl⟩ := hi
  have hget : files.getD i [] = file := by
    rw [List.getD_eq_getElem?_getD, hfile, Option.getD_some]
  rw [blobOf, hget]
  exact readsBlob_opened (hfiles file (List.mem_of_getElem? hfile))

end Files

variable {A : Allocator} {files : List (List UInt8)} {fd : Nat → Int} {first : Nat}

/-- `camio_cat` from blob files to a blob file comes to its end, and the output is the first 32
    files one after the other: in their order with the seq selector, with the spin selector from
    the second one on and round. -/
theorem blob_files_concatenated (hfiles : ∀ f ∈ files, f.length < 2 ^ 63) {p : Nat} {mem : Mem}
    {turns : List WriteTurn} (hok : ∀ turn ∈ turns, turn ≠ .error) {sel₀ : CamioSelector Nat}
    (hsel : sel₀ = .seq camioSelectorSeqConstruct ∧ first = 0 ∨
      sel₀ = .spin camioSelectorSpinConstruct ∧ first = 1)
    {c₀ : CamioCat BlobIstream BlobOstream}
    (hstart : start fd sel₀ (files.map openedBlob) [(blobInit p mem ⟨[], turns⟩).stream] = .ok c₀)
    {ws : List Wait} (hfuel : ∀ w ∈ ws, 32 < w.fuel)
    (hlen : ws.length = rounds (inputQueues files.length (blobOf files))) :
    ∃ s out, run (Cat.step blobIstream (blobOstream A)) { cat := c₀, read := [] } ws = some s ∧
      s.cat.selector.count = 0 ∧ s.cat.ostreams = [out] ∧
      out.fd.received = ((files.take 32).rotate first).flatten := by
  have hlength : (files.map openedBlob).length = files.length := List.length_map _
  have hqueues : ∀ i s, (files.map openedBlob)[i]? = some s → ReadsBlob s (blobOf files i) :=
    fun i s hi => readsBlob_input hfiles hi
  have hout := writesBlobs_opened p mem hok
  rcases hsel with ⟨rfl, rfl⟩ | ⟨rfl, rfl⟩
  · obtain ⟨s, out, hrun, hcount, houts, htaken⟩ :=
      seq_takes_in_order blobIstream_delivers (blobOstream_takes A) hqueues hout hstart hfuel
        (hlength.symm ▸ hlen)
    refine ⟨s, out, hrun, hcount, houts, ?_⟩
    simp only [upToEmpty_blobOf, hlength] at htaken
    rw [htaken.received, ← List.rotate_zero (List.range _)]
    exact flatten_blobsOf 0
  · obtain ⟨s, out, hrun, hcount, -, houts, htaken⟩ :=
      spin_takes_turns blobIstream_delivers (blobOstream_takes A) hqueues hout hstart hfuel
        (hlength.symm ▸ hlen)
    refine ⟨s, out, hrun, hcount, houts, ?_⟩
    -- of queues with one message each, round robin makes one after the other
    have hshort : ∀ q ∈ (inputQueues files.length (blobOf files)).rotate 1, q.2.length ≤ 1 := by
      intro q hq
      obtain ⟨i, -, rfl⟩ := List.mem_map.mp (List.mem_rotate.mp hq)
      dsimp only
      rw [upToEmpty_blobOf]
      exact length_blobOf i
    rw [htaken.received, hlength, served_single _ hshort, inputQueues, ← List.map_rotate,
      List.flatMap_map]
    simp only [upToEmpty_blobOf]
    exact flatten_blobsOf 1

/-- Short writes of 1 and 2 bytes, and an empty file between two others. -/
theorem blob_files_concatenated_demo :
    ∃ (c₀ : CamioCat BlobIstream BlobOstream) (s : Session BlobIstream BlobOstream)
        (out : BlobOstream),
      start (fun _ => 3) (.seq camioSelectorSeqConstruct) ([[7, 8, 9], [], [10]].map openedBlob)
        [(blobInit 64 (fun _ => 0) ⟨[], [.accept 1, .accept 2]⟩).stream] = .ok c₀ ∧
      run (Cat.step blobIstream (blobOstream .inPlace)) { cat := c₀, read := [] }
        (List.replicate 5 { fuel := 33, poll := none }) = some s ∧
      s.cat.ostreams = [out] ∧ out.fd.received = [7, 8, 9, 10] := by
  have hstart : start (fun _ => 3) (.seq camioSelectorSeqConstruct)
      ([[7, 8, 9], [], [10]].map openedBlob)
      [(blobInit 64 (fun _ => 0) ⟨[], [.accept 1, .accept 2]⟩).stream] = .ok _ := rfl
  obtain ⟨s, out, hrun, -, houts, hreceived⟩ :=
    @blob_files_concatenated .inPlace _ (fun _ => 3) 0 (by simp) 64 (fun _ => 0) _ (by simp) _
      (Or.inl ⟨rfl, rfl⟩) _ hstart (List.replicate 5 { fuel := 33, poll := none }) (by simp) rfl
  exact ⟨_, s, out, hstart, hrun, houts, hreceived⟩

end Camio.Cat
