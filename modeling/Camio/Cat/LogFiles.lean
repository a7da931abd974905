/-
  Camio.Cat.LogFiles

  `camio_cat` from log files to a log file.

  A log istream on a regular file is always ready and hands out the lines that `lineEnd`
  splits the file into, as long as every search sees its terminator whole; a log ostream
  writes a line for each.  So the output is the lines of the inputs in turns, those of each
  input up to its first empty one.
-/

import Camio.Cat.Order
import Camio.Log.Assigned
import Camio.Log.Chunking
import Camio.Log.Regular

namespace Camio.Cat

open Camio.Lib Camio.Selector Camio.Log

/-! ## The streams -/

/-- The functions of a log istream. -/
def logIstream (A : Allocator) : IstreamCalls LogIstream where
  ready s := (camioIstreamLogReady A s).mapError .exit
  startRead s := ((camioIstreamLogStartRead A s).mapError .exit).map fun
    | (none, s) => ({ out := none, len := 0 }, s)
    | (some (p, len), s) => ({ out := some fun i => s.mem (p + i), len := len }, s)
  endRead s _ := .ok (camioIstreamLogEndRead s)

/-- The functions of a log ostream, which always returns `NULL` from `end_write`. -/
def logOstream (A : Allocator) : OstreamCalls LogOstream where
  canAssignWrite := camioOstreamLogCanAssignWrite
  assignWrite s buffer len := (camioOstreamLogAssignWrite s buffer len).mapError .exit
  startWrite s len :=
    ((camioOstreamLogStartWrite A s len).mapError .exit).map fun (p, s) => (some p, s)
  store s ptr bytes := { s with mem := s.mem.write ptr bytes }
  endWrite s len := .ok (none, camioOstreamLogEndWrite s len)

/-! ## Reading the files -/

section Reading

variable {A : Allocator} {s t : LogIstream} {L : Nat} {q : List (List UInt8)}

/-- Whatever is called from here on, every search sees its terminator whole. -/
def TerminatorsWhole (A : Allocator) (s : LogIstream) : Prop :=
  ∀ {hs t}, Reads (logIstream A) s hs t → ∀ e u, Searched A t e u → TerminatorComplete u

/-- An input on a file whose lines are `q`. -/
structure ReadsLines (A : Allocator) (s : LogIstream) (q : List (List UInt8)) : Prop where
  readable : ∃ L, istreamBuffInit + 2 * L < 2 ^ 63 ∧ Readable (RestLine lineEnd) L s
  lines : ∃ rest, Split lineEnd s.rest q rest ∧ lineEnd rest = none
  whole : TerminatorsWhole A s

theorem TerminatorsWhole.of_reads (h : TerminatorsWhole A s) {hs : List Handed}
    (hreads : Reads (logIstream A) s hs t) : TerminatorsWhole A t :=
  fun hreads' => h (hreads.trans hreads')

theorem TerminatorsWhole.marks (h : TerminatorsWhole A s) {e : Event} :
    ∀ t, Searched A s e t → Marks (RestLine lineEnd) t :=
  fun t ht => (h .start e t ht).marks

theorem logIstream_delivers (hA : Allocator.Ample A) :
    Delivers (logIstream A) (ReadsLines A) where
  ready := by
    rintro s q ⟨⟨L, hL, hreadable⟩, hlines, hwhole⟩
    obtain ⟨t, hready, ht, hrest⟩ := hreadable.ready hA hL hwhole.marks
    have hcall : (logIstream A).ready s = .ok (1, t) := by
      simp only [logIstream, hready]
      rfl
    exact ⟨1, t, hcall, Nat.one_ne_zero, ⟨L, hL, ht⟩, hrest ▸ hlines,
      hwhole.of_reads (.ready .start hcall)⟩
  startRead := by
    rintro s q ⟨⟨L, hL, hreadable⟩, ⟨rest, hsplit, hend⟩, hwhole⟩
    rcases hreadable.startRead hA hL hwhole.marks
      with ⟨t, hread, ht, hrest, hnone⟩ | ⟨line, t, n, hread, hn, ht, hrest, hlen, hline⟩
    · have hcall : (logIstream A).startRead s = .ok ({ out := none, len := 0 }, t) := by
        simp only [logIstream, hread]
        rfl
      have hwhole' : TerminatorsWhole A t := hwhole.of_reads (.startRead .start hcall)
      cases hsplit with
      | nil =>
          exact ⟨_, t, hcall, by simp, rfl, rfl, ⟨L, hL, ht⟩, ⟨t.rest, .nil _, hrest ▸ hend⟩,
            hwhole'⟩
      | cons hline _ =>
          rw [lineEnd_eq_none_iff.mpr hnone] at hline
          cases hline
    · have hcall : (logIstream A).startRead s
          = .ok ({ out := some fun i => t.mem (line.1 + i), len := line.2 }, t) := by
        simp only [logIstream, hread]
        rfl
      have hwhole' : TerminatorsWhole A t := hwhole.of_reads (.startRead .start hcall)
      cases hsplit with
      | nil =>
          rw [hend] at hn
          cases hn
      | cons hline' hsplit =>
          rw [hn] at hline'
          cases hline'
          have hmessage : Handed.message { out := some fun i => t.mem (line.1 + i), len := line.2 }
              = s.rest.take (n - 1) := by
            rw [← hline]
            exact Mem.read_congr fun i _ => by rw [Nat.zero_add]
          have hlength : line.2 = (s.rest.take (n - 1)).length := by
            rw [← hline, Mem.read_length]
          have hshort : line.2 < 2 ^ 64 := by
            have hle := hreadable.regular.rest_le
            rw [List.length_take] at hlength
            omega
          exact ⟨_, t, hcall, hshort, hlength, hmessage, ⟨L, hL, ht⟩, ⟨rest, hrest ▸ hsplit, hend⟩,
            hwhole'⟩
  endRead := fun hs _ => ⟨0, _, rfl, hs⟩

/-- A stream that was just opened on a file reads its lines. -/
theorem readsLines_opened {p : Nat} {mem : Mem} {file rest : List UInt8}
    (hsize : istreamBuffInit + 2 * file.length < 2 ^ 63)
    (hwhole : TerminatorsWhole A (opened p mem ⟨file, []⟩)) (hsplit : Split lineEnd file q rest)
    (hend : lineEnd rest = none) : ReadsLines A (opened p mem ⟨file, []⟩) q where
  readable := ⟨_, hsize, readable_opened p mem file⟩
  lines := ⟨rest, hsplit, hend⟩
  whole := hwhole

end Reading

/-! ### Files that fit the buffer -/

section Short

variable {A : Allocator} {blocking : Bool} {s t : LogIstream} {p n : Nat} {mem : Mem}
  {file : List UInt8}

/-- All `n` bytes of the file were read into the buffer at `p`, with no LF behind them. -/
structure Loaded (p n : Nat) (s : LogIstream) : Prop where
  escape : s.escape = false
  lineBuffer : s.lineBuffer = p
  size : s.lineBufferSize = istreamBuffInit
  fd : s.fd = ⟨[], []⟩
  head : p ≤ s.dataHeadPtr
  data : s.dataHeadPtr + s.lineBufferCount = p + n
  behind : s.mem (p + n) ≠ lf
  readSize_le : s.readSize ≤ s.lineBufferCount
  size_lt : n + 1 < istreamBuffInit

/-- Reading on finds the end of the file. -/
theorem readToBuff_end (hfd : s.fd = ⟨[], []⟩) (newDataPtr : Nat) :
    readToBuff s newDataPtr blocking = .ok (0, camioIstreamLogClose { s with fd := ⟨[], []⟩ }) := by
  rw [readToBuff, hfd, read_regular rfl]
  simp [ReadFd.deliver]

/-- The search takes no byte behind the data for a part of its line. -/
theorem Loaded.terminatorComplete (h : Loaded p n s) : TerminatorComplete s := by
  intro k _ _
  rw [h.data, h.fd]
  exact ⟨h.behind, by simp⟩

theorem Loaded.mark_le (h : Loaded p n s) {k : Nat}
    (hscan : s.pending.findIdx? isTerminator = some k) : lineSize s k ≤ s.lineBufferCount :=
  (h.terminatorComplete.marks k hscan).1

theorem Loaded.prepareTurn (h : Loaded p n s) {turn : Turn}
    (hturn : prepareTurn A blocking s = .ok turn) :
    (∃ k, turn = .found (lineSize s k) (mark s k) ∧ Loaded p n (mark s k)) ∨
      ∃ t, turn = .empty t ∧ t.isClosed = true := by
  have hspace : s.dataHeadPtr + s.lineBufferCount < s.lineBuffer + s.lineBufferSize - 1 := by
    have hlt := h.size_lt
    rw [h.data, h.lineBuffer, h.size]
    omega
  obtain ⟨k, hscan, rfl⟩ | ⟨-, t, r, hroom, hread, rfl⟩ := prepareTurn_cases h.escape hturn
  · exact Or.inl ⟨k, rfl, { h with readSize_le := h.mark_le hscan }⟩
  -- there is room behind the data, so the buffer is neither shifted nor grown
  · cases hroom with
    | behind _ =>
        rw [readToBuff_end h.fd] at hread
        cases hread
        exact Or.inr ⟨_, rfl, rfl⟩
    | shifted hno _ => exact absurd hspace hno
    | grown hno _ _ => exact absurd hspace hno

theorem Loaded.prepareLoop (h : Loaded p n s) {fuel : Nat} {r : Nat × LogIstream}
    (hloop : prepareLoop A blocking (fuel + 1) s = .ok r) :
    r.2.isClosed = true ∨ Loaded p n r.2 := by
  obtain ⟨turn, hturn, hr⟩ := prepareLoop_turn hloop
  obtain ⟨k, rfl, hmark⟩ | ⟨t, rfl, hclosed⟩ := h.prepareTurn hturn
  · cases hr
    exact Or.inr hmark
  · cases hr
    exact Or.inl hclosed

theorem Loaded.visits (h : Loaded p n s) (hvisits : Visits A blocking s t) : t = s := by
  cases hvisits with
  | here => rfl
  | next hturn _ =>
      obtain ⟨k, hturn', -⟩ | ⟨u, hturn', -⟩ := h.prepareTurn hturn
      · cases hturn'
      · cases hturn'

theorem Loaded.prepareNext (h : Loaded p n s) {r : Nat × LogIstream}
    (hnext : prepareNext A blocking s = .ok r) : r.2.isClosed = true ∨ Loaded p n r.2 := by
  rw [Log.prepareNext] at hnext
  by_cases hcount : s.lineBufferCount = 0
  · rw [if_pos hcount, readToBuff_end (s := { s with dataHeadPtr := s.lineBuffer }) h.fd] at hnext
    cases hnext
    exact Or.inl rfl
  · rw [if_neg hcount] at hnext
    exact h.prepareLoop hnext

theorem Loaded.searches (h : Loaded p n s) (hsearches : Searches A blocking s t) : t = s := by
  rw [Searches] at hsearches
  by_cases hcount : s.lineBufferCount = 0
  · rw [if_pos hcount] at hsearches
    obtain ⟨m, u, hread, hm, -⟩ := hsearches
    rw [readToBuff_end (s := { s with dataHeadPtr := s.lineBuffer }) h.fd] at hread
    cases hread
    exact absurd rfl hm
  · rw [if_neg hcount] at hsearches
    exact h.visits hsearches

/-- The first read takes all of the file. -/
theorem readToBuff_opened (hsize : file.length + 1 < istreamBuffInit)
    (hbehind : mem (p + file.length) ≠ lf) {m : Nat}
    (hread : readToBuff (opened p mem ⟨file, []⟩) p blocking = .ok (m, t)) :
    (m = 0 ∧ t.isClosed = true) ∨ Loaded p file.length t := by
  -- one `read` asks for all of the buffer but its last byte, and the file is shorter
  have hamount : sizeSub (p + istreamBuffInit - 1) p = istreamBuffInit - 1 := by
    rw [istreamBuffInit, sizeSub_of_le (by omega) (by omega)]
    omega
  have hall : file.take (min (istreamBuffInit - 1) maxTransfer) = file := by
    rw [List.take_eq_self_iff, istreamBuffInit, maxTransfer]
    rw [istreamBuffInit] at hsize
    omega
  have hnone : file.drop (min (istreamBuffInit - 1) maxTransfer) = [] := by
    rw [List.drop_eq_nil_iff, istreamBuffInit, maxTransfer]
    rw [istreamBuffInit] at hsize
    omega
  rw [readToBuff, read_regular rfl] at hread
  simp only [opened, camioIstreamLogConstruct, hamount, ReadFd.deliver, hall, hnone,
    Nat.zero_add] at hread
  by_cases hzero : file.length = 0
  · rw [if_pos hzero] at hread
    cases hread
    exact Or.inl ⟨rfl, rfl⟩
  · rw [if_neg hzero] at hread
    cases hread
    have hcount : file.length % 2 ^ 64 = file.length := by
      rw [istreamBuffInit] at hsize
      omega
    refine Or.inr ⟨rfl, rfl, rfl, rfl, Nat.le_refl _, ?_, ?_, Nat.zero_le _, hsize⟩
    · dsimp only
      rw [hcount]
    · dsimp only
      rw [Mem.write_apply_of_ge (Nat.le_refl _)]
      exact hbehind

theorem prepareNext_opened (hsize : file.length + 1 < istreamBuffInit)
    (hbehind : mem (p + file.length) ≠ lf) {r : Nat × LogIstream}
    (hnext : prepareNext A blocking (opened p mem ⟨file, []⟩) = .ok r) :
    r.2.isClosed = true ∨ Loaded p file.length r.2 := by
  have hcount : (opened p mem ⟨file, []⟩).lineBufferCount = 0 := rfl
  rw [prepareNext, if_pos hcount] at hnext
  obtain ⟨⟨m, t⟩, hread, hnext⟩ := bind_eq_ok_iff.mp hnext
  dsimp only at hnext
  obtain ⟨rfl, hclosed⟩ | hloaded := readToBuff_opened hsize hbehind hread
  · cases hnext
    exact Or.inl hclosed
  · by_cases hm : m = 0
    · rw [if_pos hm] at hnext
      cases hnext
      exact Or.inr hloaded
    · rw [if_neg hm] at hnext
      exact hloaded.prepareLoop hnext

theorem Loaded.handOut (h : Loaded p n s) : Loaded p n (handOut s).2 := by
  have hle := h.readSize_le
  have hhead := h.head
  have hdata := h.data
  have hlt := h.size_lt
  rw [istreamBuffInit] at hlt
  have hcount : sizeSub s.lineBufferCount s.readSize = s.lineBufferCount - s.readSize :=
    sizeSub_of_le hle (by omega)
  refine { h with head := ?_, data := ?_, readSize_le := Nat.zero_le _ }
  · dsimp only [Log.handOut]
    omega
  · dsimp only [Log.handOut]
    rw [hcount]
    omega

/-- The states of a stream on such a file. -/
inductive Short (p : Nat) (mem : Mem) (file : List UInt8) : LogIstream → Prop where
  | unread : Short p mem file (opened p mem ⟨file, []⟩)
  | closed {s : LogIstream} : s.isClosed = true → Short p mem file s
  | loaded {s : LogIstream} : Loaded p file.length s → Short p mem file s

theorem Short.prepareNext (h : Short p mem file s) (hsize : file.length + 1 < istreamBuffInit)
    (hbehind : mem (p + file.length) ≠ lf) (hopen : s.isClosed = false) {r : Nat × LogIstream}
    (hnext : prepareNext A blocking s = .ok r) :
    r.2.isClosed = true ∨ Loaded p file.length r.2 := by
  cases h with
  | unread => exact prepareNext_opened hsize hbehind hnext
  | closed hclosed => exact absurd (hopen.symm.trans hclosed) Bool.false_ne_true
  | loaded hloaded => exact hloaded.prepareNext hnext

theorem short_of_reads (hsize : file.length + 1 < istreamBuffInit)
    (hbehind : mem (p + file.length) ≠ lf) {hs : List Handed}
    (hreads : Reads (logIstream A) (opened p mem ⟨file, []⟩) hs t) : Short p mem file t := by
  induction hreads with
  | start => exact .unread
  | @ready _ u v r _ hready ih =>
      cases hcall : camioIstreamLogReady A u with
      | error e =>
          simp only [logIstream, hcall] at hready
          cases hready
      | ok res =>
          simp only [logIstream, hcall] at hready
          cases hready
          obtain ⟨-, hsame⟩ | ⟨hopen, -, r', hnext, hv⟩ := ready_cases hcall
          -- `ready` has found a line already, or closed
          · rw [show v = u from hsame]
            exact ih
          · rw [show v = r'.2 from hv]
            exact (ih.prepareNext hsize hbehind hopen hnext).elim .closed .loaded
  | @startRead _ u v g _ hread ih =>
      cases hcall : camioIstreamLogStartRead A u with
      | error e =>
          simp only [logIstream, hcall] at hread
          cases hread
      | ok res =>
          have hv : v = res.2 := by
            simp only [logIstream, hcall] at hread
            obtain ⟨line, u'⟩ := res
            cases line with
            | none => cases hread; rfl
            | some line => cases hread; rfl
          subst hv
          obtain ⟨-, rfl⟩ | ⟨hopen, hmarked, rfl⟩ | ⟨hopen, -, r, hnext, hr⟩ :=
            startRead_cases hcall
          · exact ih
          -- a line was marked, which a stream that was not read has none of
          · cases ih with
            | unread => exact absurd rfl hmarked
            | closed hclosed => exact absurd (hopen.symm.trans hclosed) Bool.false_ne_true
            | loaded hloaded => exact .loaded hloaded.handOut
          · have hr' := ih.prepareNext hsize hbehind hopen hnext
            rcases hr with ⟨-, rfl⟩ | ⟨-, rfl⟩
            · exact hr'.elim .closed .loaded
            · exact hr'.elim (fun hclosed => .closed hclosed) fun hloaded => .loaded hloaded.handOut
  | endRead _ hend ih =>
      cases hend
      exact ih

/-- On a file that fits the buffer, with no LF behind its last byte in there, every search sees
    its terminator whole. -/
theorem terminatorsWhole_of_short (hsize : file.length + 1 < istreamBuffInit)
    (hbehind : mem (p + file.length) ≠ lf) : TerminatorsWhole A (opened p mem ⟨file, []⟩) := by
  intro hs t hreads e u hsearched
  have hwhole : ∀ blocking, t.isClosed = false → Searches A blocking t u →
      TerminatorComplete u := by
    intro blocking hopen hsearches
    cases short_of_reads hsize hbehind hreads with
    | unread =>
        have hcount : (opened p mem ⟨file, []⟩).lineBufferCount = 0 := rfl
        rw [Searches, if_pos hcount] at hsearches
        obtain ⟨m, v, hread, hm, hvisits⟩ := hsearches
        have hloaded := (readToBuff_opened hsize hbehind hread).resolve_left fun h => hm h.1
        rw [hloaded.visits hvisits]
        exact hloaded.terminatorComplete
    | closed hclosed => exact absurd (hopen.symm.trans hclosed) Bool.false_ne_true
    | loaded hloaded =>
        rw [hloaded.searches hsearches]
        exact hloaded.terminatorComplete
  cases e with
  | ready => exact hwhole false hsearched.1 hsearched.2.2
  | startRead => exact hwhole true hsearched.1 hsearched.2.2
  | endRead => exact hsearched.elim

end Short

/-! ## Writing the file -/

section Writing

variable {A : Allocator} {escape : Bool}

/-- An output whose file holds the lines of the messages. -/
structure WritesLines (escape : Bool) (s : LogOstream) (ms : List (List UInt8)) : Prop where
  escape_eq : s.escape = escape
  turns : s.fd.turns = []
  size_lt : s.bufferSize < 2 ^ 63
  received : s.fd.received = ms.flatMap (logLine escape)

theorem logOstream_takes (A : Allocator) (escape : Bool) :
    Takes (logOstream A) (WritesLines escape) where
  take := by
    intro s ms len hs _ _ buffer
    obtain ⟨hfd, hescape, -, hsize⟩ := @camioOstreamLogEndWrite_line
      { s with assignedBuffer := some buffer, assignedBufferSz := len } len hs.turns hs.size_lt
      (Or.inl rfl)
    refine ⟨none, _, none, _, rfl, rfl, hescape.trans hs.escape_eq, ?_, ?_, ?_⟩
    · rw [hfd]
    · rw [hsize]
      exact hs.size_lt
    · rw [hfd, List.flatMap_append, List.flatMap_singleton, ← hs.received, ← hs.escape_eq]
      rfl

theorem writesLines_opened (p : Nat) (mem : Mem) :
    WritesLines escape (writeInitWith escape p mem ⟨[], []⟩).stream [] where
  escape_eq := rfl
  turns := rfl
  size_lt := by
    show ostreamBuffInit < 2 ^ 63
    decide
  received := rfl

end Writing

/-! ## The program -/

/-- A file that is an input, and where the buffer of its stream is put. -/
structure LogFile where
  bytes : List UInt8
  buffer : Nat
  mem : Mem
  /-- the lines that `lineEnd` splits the file into -/
  lines : List (List UInt8)

/-- The input, as it has been opened. -/
def LogFile.istream (f : LogFile) : LogIstream := opened f.buffer f.mem ⟨f.bytes, []⟩

/-- There is room for its bytes in memory, its lines are those that are said, and its
    terminators are seen whole. -/
structure LogFile.Sound (A : Allocator) (f : LogFile) : Prop where
  size : istreamBuffInit + 2 * f.bytes.length < 2 ^ 63
  split : ∃ rest, Split lineEnd f.bytes f.lines rest ∧ lineEnd rest = none
  whole : TerminatorsWhole A f.istream

variable {A B : Allocator} {escape : Bool} {files : List LogFile} {fd : Nat → Int}

/-- The lines of the `i`-th file. -/
def linesOf (files : List LogFile) (i : Nat) : List (List UInt8) :=
  (files[i]?.map LogFile.lines).getD []

theorem linesOf_delivered (hfiles : ∀ f ∈ files, f.Sound A) {i : Nat} {s : LogIstream}
    (hplace : (files.map LogFile.istream)[i]? = some s) : ReadsLines A s (linesOf files i) := by
  rw [List.getElem?_map, Option.map_eq_some_iff] at hplace
  obtain ⟨f, hf, rfl⟩ := hplace
  have hsound := hfiles f (List.mem_of_getElem? hf)
  obtain ⟨rest, hsplit, hend⟩ := hsound.split
  rw [linesOf, hf]
  exact readsLines_opened hsound.size hsound.whole hsplit hend

/-- `camio_cat` from log files to a log file comes to its end, and the output file holds the
    lines of the first 32 input files, each up to its first empty one, in turns.  Lines are
    what `lineEnd` makes of a file, so line feeds in a row behind a line end it once. -/
theorem log_files_take_turns (hA : Allocator.Ample A) (hfiles : ∀ f ∈ files, f.Sound A)
    {p : Nat} {mem : Mem} {c₀ : CamioCat LogIstream LogOstream}
    (hstart : start fd (.spin camioSelectorSpinConstruct) (files.map LogFile.istream)
      [(writeInitWith escape p mem ⟨[], []⟩).stream] = .ok c₀)
    {ws : List Wait} (hfuel : ∀ w ∈ ws, 32 < w.fuel)
    (hlen : ws.length = rounds (inputQueues files.length (linesOf files))) :
    ∃ s out, run (Cat.step (logIstream A) (logOstream B)) { cat := c₀, read := [] } ws = some s ∧
      s.cat.selector.count = 0 ∧ s.cat.ostreams = [out] ∧
      out.fd.received
        = (served roundRobin ((inputQueues files.length (linesOf files)).rotate 1)).flatMap
            fun r => logLine escape r.2 := by
  have hlength : (files.map LogFile.istream).length = files.length := List.length_map _
  obtain ⟨s, out, hrun, hcount, -, houts, htaken⟩ :=
    spin_takes_turns (logIstream_delivers hA) (logOstream_takes B escape)
      (fun i s => linesOf_delivered hfiles) (writesLines_opened p mem) hstart hfuel
      (hlength.symm ▸ hlen)
  refine ⟨s, out, hrun, hcount, houts, ?_⟩
  rw [htaken.received, List.flatMap_map, hlength]

/-- `a\nb\n` -/
def demoAB : LogFile :=
  { bytes := [97, 10, 98, 10], buffer := 64, mem := zeroed, lines := [[97], [98]] }

/-- `c\n` -/
def demoC : LogFile :=
  { bytes := [99, 10], buffer := 8192, mem := zeroed, lines := [[99]] }

theorem demo_sound : ∀ f ∈ [demoAB, demoC], f.Sound .inPlace := by
  have hsplitAB : Split lineEnd [97, 10, 98, 10] [[97], [98]] [] :=
    @Split.cons lineEnd [97, 10, 98, 10] [] 2 [[98]] rfl
      (@Split.cons lineEnd [98, 10] [] 2 [] rfl (.nil []))
  have hsplitC : Split lineEnd [99, 10] [[99]] [] :=
    @Split.cons lineEnd [99, 10] [] 2 [] rfl (.nil [])
  intro f hf
  rcases List.mem_pair.mp hf with rfl | rfl
  · exact ⟨by decide, ⟨[], hsplitAB, rfl⟩, terminatorsWhole_of_short (by decide) (by decide)⟩
  · exact ⟨by decide, ⟨[], hsplitC, rfl⟩, terminatorsWhole_of_short (by decide) (by decide)⟩

/-- The first line comes from the second file. -/
theorem log_files_take_turns_demo :
    ∃ (c₀ : CamioCat LogIstream LogOstream) (s : Session LogIstream LogOstream) (out : LogOstream),
      start (fun _ => 3) (.spin camioSelectorSpinConstruct)
        [demoAB.istream, demoC.istream] [(writeInitWith false 64 zeroed ⟨[], []⟩).stream]
        = .ok c₀ ∧
      run (Cat.step (logIstream .inPlace) (logOstream .inPlace)) { cat := c₀, read := [] }
        (List.replicate 5 { fuel := 33, poll := none }) = some s ∧
      s.cat.ostreams = [out] ∧ out.fd.received = [99, 10, 97, 10, 98, 10] := by
  have hserved : served roundRobin ((inputQueues [demoAB, demoC].length
      (linesOf [demoAB, demoC])).rotate 1) = [(1, [99]), (0, [97]), (0, [98])] := by
    show served roundRobin [(1, [[99]]), (0, [[97], [98]])] = _
    simp [served, roundRobin]
  have hstart : start (fun _ => 3) (.spin camioSelectorSpinConstruct)
      ([demoAB, demoC].map LogFile.istream) [(writeInitWith false 64 zeroed ⟨[], []⟩).stream]
      = .ok _ := rfl
  obtain ⟨s, out, hrun, -, houts, hreceived⟩ :=
    @log_files_take_turns .inPlace .inPlace false _ (fun _ => 3) ample_inPlace demo_sound 64 zeroed
      _ hstart (List.replicate 5 { fuel := 33, poll := none }) (by simp) rfl
  rw [hserved] at hreceived
  exact ⟨_, s, out, hstart, hrun, houts, hreceived⟩

end Camio.Cat
