/-
  Camio.Log.Buffer

  The line buffer: what one turn of `prepare_next` and a whole call of it do.

  `Fits` is the representation invariant.  The `pending` bytes are those between
  `data_head_ptr` and the end of the data, and `rest` is everything the caller has
  not seen: the pending bytes and what is still in the file.  Reading more, shifting
  and growing keep `rest`; a terminator found marks a line of it.
-/

import Camio.Lib.Except
import Camio.Log.Istream

namespace Camio.Log

open Camio.Lib

variable {A : Allocator} {blocking : Bool} {s s' t : LogIstream}

/-- The unread bytes in the buffer. -/
def LogIstream.pending (s : LogIstream) : List UInt8 :=
  s.mem.read s.dataHeadPtr s.lineBufferCount

/-- All bytes not handed out yet. -/
def LogIstream.rest (s : LogIstream) : List UInt8 := s.pending ++ s.fd.stream

@[simp] theorem LogIstream.pending_length (s : LogIstream) :
    s.pending.length = s.lineBufferCount := Mem.read_length _ _ _

/-- The unread bytes lie in the buffer and leave one byte of it free. -/
structure Fits (s : LogIstream) : Prop where
  escape : s.escape = false
  head : s.lineBuffer ≤ s.dataHeadPtr
  data : s.dataHeadPtr + s.lineBufferCount + 1 ≤ s.lineBuffer + s.lineBufferSize
  size : 4096 ≤ s.lineBufferSize
  size_lt : s.lineBufferSize < 2 ^ 63

/-- The same of a buffer of any size from 2 on: it is a block of memory, the head is in it,
    and the unread bytes stop short of its last byte. -/
structure InBuffer (s : LogIstream) : Prop where
  head : s.lineBuffer ≤ s.dataHeadPtr
  head_lt : s.dataHeadPtr < s.lineBuffer + s.lineBufferSize
  data : s.dataHeadPtr + s.lineBufferCount ≤ s.lineBuffer + s.lineBufferSize - 1
  size : 2 ≤ s.lineBufferSize
  size_lt : s.lineBufferSize < 2 ^ 63

theorem Fits.inBuffer (h : Fits s) : InBuffer s := by
  have hdata := h.data
  have hsize := h.size
  exact {
    head := h.head
    head_lt := by omega
    data := by omega
    size := by omega
    size_lt := h.size_lt }

/-- An open stream with no line marked. -/
structure Looking (s : LogIstream) : Prop extends Fits s where
  isOpen : s.isClosed = false
  readSize : s.readSize = 0

/-! ## The search -/

/-- The size of the line whose terminator is at index `k`. -/
def lineSize (s : LogIstream) (k : Nat) : Nat :=
  if s.mem (s.dataHeadPtr + k + 1) = lf then k + 2 else k + 1

theorem scanLine_eq (m : Mem) (head n i : Nat) :
    scanLine m head n i = ((m.read (head + i) n).findIdx? isTerminator).map fun k =>
      if m (head + (i + k) + 1) = lf then i + k + 2 else i + k + 1 := by
  induction n generalizing i with
  | zero => rfl
  | succ n ih =>
      rw [scanLine, Mem.read, List.findIdx?_cons]
      by_cases hterm : isTerminator (m (head + i)) = true
      -- the line ends here, or later
      · rw [if_pos hterm, if_pos hterm, Option.map_some]
        simp only [Nat.add_zero]
        split <;> rfl
      · rw [if_neg hterm, if_neg hterm, ih, Option.map_map]
        congr 1
        funext k
        simp only [Function.comp, show i + (k + 1) = i + 1 + k by omega]

/-- The search looks at the pending bytes and, behind a terminator, at one more. -/
theorem scanLine_pending (s : LogIstream) :
    scanLine s.mem s.dataHeadPtr s.lineBufferCount 0
      = (s.pending.findIdx? isTerminator).map (lineSize s) := by
  rw [scanLine_eq]
  simp only [Nat.zero_add, Nat.add_zero]
  rfl

/-! ## Reading -/

/-- What `read_to_buff` did behind the pending bytes. -/
inductive ReadOutcome (blocking : Bool) (s : LogIstream) : Nat × LogIstream → Prop where
  | blocked (fd : ReadFd) : blocking = false → fd.stream = s.fd.stream →
      ReadOutcome blocking s (0, { s with fd := fd })
  | eof (fd : ReadFd) : s.fd.stream = [] → fd.stream = [] →
      ReadOutcome blocking s (0, camioIstreamLogClose { s with fd := fd })
  | data (bytes : List UInt8) (fd : ReadFd) : bytes ≠ [] → s.fd.stream = bytes ++ fd.stream →
      s.dataHeadPtr + s.lineBufferCount + bytes.length + 1 ≤ s.lineBuffer + s.lineBufferSize →
      ReadOutcome blocking s (bytes.length, { s with
        mem := s.mem.write (s.dataHeadPtr + s.lineBufferCount) bytes
        fd := fd
        lineBufferCount := s.lineBufferCount + bytes.length })

/-- With space behind the pending bytes, `read_to_buff` fills it or leaves it. -/
theorem readToBuff_outcome (h : InBuffer s)
    (hspace : s.dataHeadPtr + s.lineBufferCount + 1 < s.lineBuffer + s.lineBufferSize)
    {r : Nat × LogIstream}
    (hread : readToBuff s (s.dataHeadPtr + s.lineBufferCount) blocking = .ok r) :
    ReadOutcome blocking s r := by
  have hhead := h.head
  have hlt := h.size_lt
  have hamount : sizeSub (s.lineBuffer + s.lineBufferSize - 1)
      (s.dataHeadPtr + s.lineBufferCount)
      = s.lineBuffer + s.lineBufferSize - 1 - (s.dataHeadPtr + s.lineBufferCount) :=
    sizeSub_of_le (by omega) (by omega)
  -- an error exit, nothing yet, or as much as there is up to the space
  rw [readToBuff, hamount] at hread
  rcases s.fd.read_cases blocking
      (s.lineBuffer + s.lineBufferSize - 1 - (s.dataHeadPtr + s.lineBufferCount))
    with ⟨fd', hcall⟩ | ⟨fd', hcall, hblock, hstream⟩ | ⟨bytes, fd', hcall, hstream, hlen, hnil⟩
  · rw [hcall] at hread
    cases hread
  · rw [hcall] at hread
    cases hread
    exact ReadOutcome.blocked fd' hblock hstream
  · rw [hcall] at hread
    dsimp only at hread
    by_cases hzero : bytes.length = 0
    · rw [if_pos hzero] at hread
      cases hread
      -- nothing although there was space: the file is at its end
      have hempty := List.eq_nil_of_length_eq_zero hzero
      have hend := hnil (by omega) hempty
      rw [hempty, hend] at hstream
      exact ReadOutcome.eof fd' hend hstream.symm
    · rw [if_neg hzero] at hread
      cases hread
      -- the count cannot wrap: the data still fits the buffer
      have hmod : (s.lineBufferCount + bytes.length) % 2 ^ 64
          = s.lineBufferCount + bytes.length := Nat.mod_eq_of_lt (by omega)
      rw [hmod]
      exact ReadOutcome.data bytes fd' (fun hempty => hzero (by rw [hempty]; rfl)) hstream
        (by omega)

/-- What was read comes behind the pending bytes. -/
theorem pending_write (s : LogIstream) (bytes : List UInt8) (fd : ReadFd) :
    LogIstream.pending { s with
      mem := s.mem.write (s.dataHeadPtr + s.lineBufferCount) bytes
      fd := fd
      lineBufferCount := s.lineBufferCount + bytes.length } = s.pending ++ bytes := by
  simp only [LogIstream.pending]
  rw [Mem.read_add, Mem.read_write_disjoint (Or.inl (Nat.le_refl _)), Mem.read_write_same]

/-- Where the loop goes after reading: the caller's bytes stay the same, and a next
    turn has fewer of them in the file. -/
inductive AfterRead (blocking : Bool) (s : LogIstream) : Turn → Prop where
  | blocked (s' : LogIstream) : blocking = false → Looking s' → s'.rest = s.rest →
      AfterRead blocking s (.empty s')
  | eof (s' : LogIstream) : Fits s' → s'.readSize = 0 → s'.isClosed = true →
      s.fd.stream = [] → s'.rest = s.rest → AfterRead blocking s (.empty s')
  | again (s' : LogIstream) : Looking s' → s'.rest = s.rest →
      s'.fd.stream.length < s.fd.stream.length → AfterRead blocking s (.again s')

theorem ReadOutcome.afterRead {r : Nat × LogIstream} (h : ReadOutcome blocking s r)
    (hs : Looking s) : AfterRead blocking s (afterRead r) := by
  cases h with
  | blocked fd hblock hstream =>
      refine AfterRead.blocked _ hblock { hs with } ?_
      simp only [LogIstream.rest, hstream]
      rfl
  | eof fd hend hstream =>
      -- closing the stream touches neither the buffer nor the file
      refine AfterRead.eof _ { hs with } hs.readSize rfl hend ?_
      simp only [LogIstream.rest, camioIstreamLogClose, hstream, hend]
      rfl
  | data bytes fd hbytes hstream hfit =>
      obtain ⟨n, hn⟩ := Nat.exists_eq_succ_of_ne_zero
        (fun hzero => hbytes (List.eq_nil_of_length_eq_zero hzero))
      have hturn : ∀ s', Log.afterRead (bytes.length, s') = .again s' := by
        intro s'
        rw [hn]
        rfl
      rw [hturn]
      refine AfterRead.again _ { hs with data := by simpa only [Nat.add_assoc] using hfit } ?_ ?_
      · simp only [LogIstream.rest, pending_write, hstream, List.append_assoc]
      · rw [hstream, List.length_append, hn]
        dsimp only
        omega

/-! ## Making room -/

theorem shiftBuffer_looking (h : Looking s) : Looking (shiftBuffer s) := by
  have hhead := h.head
  have hdata := h.data
  refine { h with head := Nat.le_refl _, data := ?_ }
  dsimp only [shiftBuffer]
  omega

theorem shiftBuffer_pending (s : LogIstream) : (shiftBuffer s).pending = s.pending := by
  have h := s.mem.read_write_same s.lineBuffer s.pending
  rwa [LogIstream.pending_length] at h

theorem growBuffer_eq_ok (hlt : s.lineBufferSize * 2 < 2 ^ 64)
    (hgrow : growBuffer A s = .ok s') :
    ∃ p m, A.realloc s.mem s.lineBuffer s.lineBufferSize (s.lineBufferSize * 2) = some (p, m) ∧
      s' = { s with
        mem := m, lineBuffer := p, dataHeadPtr := p, lineBufferSize := s.lineBufferSize * 2 } := by
  rw [growBuffer, Nat.mod_eq_of_lt hlt] at hgrow
  split at hgrow
  next => cases hgrow
  next p m hrealloc => exact ⟨p, m, hrealloc, (Except.ok.inj hgrow).symm⟩

/-- What lies at the front of the buffer moves along. -/
theorem growBuffer_pending (hlt : s.lineBufferSize < 2 ^ 63) (hfront : s.dataHeadPtr = s.lineBuffer)
    (hle : s.lineBufferCount ≤ s.lineBufferSize) (hgrow : growBuffer A s = .ok s') :
    s'.pending = s.pending := by
  obtain ⟨p, m, hrealloc, rfl⟩ := growBuffer_eq_ok (by omega) hgrow
  have hread := A.realloc_read (by omega) hrealloc
  -- the pending bytes are the front of the block
  simp only [LogIstream.pending]
  rw [← Mem.read_take m p hle, hread, Mem.read_take _ _ hle, hfront]

/-- A buffer that is full from its front doubles; its content moves along. -/
theorem growBuffer_spec (h : Looking s) (hfront : s.dataHeadPtr = s.lineBuffer)
    (hgrow : growBuffer A s = .ok s') :
    Looking s' ∧ s'.pending = s.pending ∧ s'.fd = s.fd ∧
      s'.dataHeadPtr + s'.lineBufferCount + 1 < s'.lineBuffer + s'.lineBufferSize := by
  have hdata := h.data
  have hsize := h.size
  have hlt := h.size_lt
  have hpending := growBuffer_pending hlt hfront (by omega) hgrow
  obtain ⟨p, m, hrealloc, rfl⟩ := growBuffer_eq_ok (by omega) hgrow
  have hlt' := A.realloc_lt hrealloc
  refine ⟨{ h with head := Nat.le_refl _, data := ?_, size := ?_, size_lt := hlt' },
    hpending, rfl, ?_⟩
  · dsimp only
    omega
  · dsimp only
    omega
  · dsimp only
    omega

/-! ## One turn -/

/-- The stream that a turn leaves. -/
def Turn.stream : Turn → LogIstream
  | .found _ t => t
  | .empty t => t
  | .again t => t

theorem stream_afterRead (r : Nat × LogIstream) : (afterRead r).stream = r.2 := by
  obtain ⟨n, t⟩ := r
  cases n <;> rfl

/-- How a turn ends. -/
inductive TurnOutcome (blocking : Bool) (s : LogIstream) : Turn → Prop where
  | found (k : Nat) : s.pending.findIdx? isTerminator = some k →
      TurnOutcome blocking s (.found (lineSize s k) { s with readSize := lineSize s k })
  | read (turn : Turn) : s.pending.findIdx? isTerminator = none →
      AfterRead blocking s turn → TurnOutcome blocking s turn

theorem AfterRead.of_eq {turn : Turn} (h : AfterRead blocking t turn) (hrest : t.rest = s.rest)
    (hfd : t.fd = s.fd) : AfterRead blocking s turn := by
  cases h with
  | blocked s' hblock hs' hrest' => exact AfterRead.blocked s' hblock hs' (hrest'.trans hrest)
  | eof s' hfits hread hclosed hend hrest' =>
      exact AfterRead.eof s' hfits hread hclosed (hfd ▸ hend) (hrest'.trans hrest)
  | again s' hs' hrest' hlt => exact AfterRead.again s' hs' (hrest'.trans hrest) (hfd ▸ hlt)

/-- Reading behind the pending bytes of `t`, which stand for those of `s`. -/
theorem afterRead_of_room {r : Nat × LogIstream} (ht : Looking t) (hpending : t.pending = s.pending)
    (hfd : t.fd = s.fd)
    (hspace : t.dataHeadPtr + t.lineBufferCount + 1 < t.lineBuffer + t.lineBufferSize)
    (hread : readToBuff t (t.dataHeadPtr + t.lineBufferCount) blocking = .ok r) :
    AfterRead blocking s (afterRead r) := by
  have hrest : t.rest = s.rest := by rw [LogIstream.rest, LogIstream.rest, hpending, hfd]
  exact ((readToBuff_outcome ht.toFits.inBuffer hspace hread).afterRead ht).of_eq hrest hfd

/-- The stream that a turn reads more data into: as it is if there is space behind the
    data, else with the data moved to the front, or with a grown buffer. -/
inductive RoomMade (A : Allocator) (s : LogIstream) : LogIstream → Prop where
  | behind : s.dataHeadPtr + s.lineBufferCount < s.lineBuffer + s.lineBufferSize - 1 →
      RoomMade A s s
  | shifted : ¬ s.dataHeadPtr + s.lineBufferCount < s.lineBuffer + s.lineBufferSize - 1 →
      s.dataHeadPtr ≠ s.lineBuffer → RoomMade A s (shiftBuffer s)
  | grown {t : LogIstream} :
      ¬ s.dataHeadPtr + s.lineBufferCount < s.lineBuffer + s.lineBufferSize - 1 →
      s.dataHeadPtr = s.lineBuffer → growBuffer A s = .ok t → RoomMade A s t

/-- What a turn does: it finds the end of a line, or makes room and reads. -/
theorem prepareTurn_cases {turn : Turn} (hescape : s.escape = false)
    (hturn : prepareTurn A blocking s = .ok turn) :
    (∃ k, s.pending.findIdx? isTerminator = some k ∧
      turn = .found (lineSize s k) { s with readSize := lineSize s k }) ∨
    (s.pending.findIdx? isTerminator = none ∧ ∃ t r, RoomMade A s t ∧
      readToBuff t (t.dataHeadPtr + t.lineBufferCount) blocking = .ok r ∧ turn = afterRead r) := by
  have hunescape : unescapeBuffer s = s := by rw [unescapeBuffer, hescape]; rfl
  -- where a turn has made room, it reads
  have hreads : ∀ {t}, RoomMade A s t →
      (readToBuff t (t.dataHeadPtr + t.lineBufferCount) blocking).map afterRead = .ok turn →
      ∃ t r, RoomMade A s t ∧
        readToBuff t (t.dataHeadPtr + t.lineBufferCount) blocking = .ok r ∧
        turn = afterRead r := by
    intro t hroom hmap
    obtain ⟨r, hread, hr⟩ := map_eq_ok_iff.mp hmap
    exact ⟨t, r, hroom, hread, hr.symm⟩
  rw [prepareTurn, hunescape, scanLine_pending] at hturn
  cases hscan : s.pending.findIdx? isTerminator with
  | some k =>
      rw [hscan] at hturn
      cases hturn
      exact Or.inl ⟨k, rfl, rfl⟩
  | none =>
      rw [hscan] at hturn
      dsimp only [Option.map_none] at hturn
      refine Or.inr ⟨rfl, ?_⟩
      by_cases hspace : s.dataHeadPtr + s.lineBufferCount < s.lineBuffer + s.lineBufferSize - 1
      · rw [if_pos hspace] at hturn
        exact hreads (.behind hspace) hturn
      · rw [if_neg hspace] at hturn
        by_cases hfront : s.dataHeadPtr = s.lineBuffer
        · rw [if_neg (not_not_intro hfront)] at hturn
          obtain ⟨t, hgrow, hturn⟩ := bind_eq_ok_iff.mp hturn
          exact hreads (.grown hspace hfront hgrow) hturn
        · rw [if_pos hfront] at hturn
          exact hreads (.shifted hspace hfront) hturn

/-- The outcome for a stream that looks for a line. -/
theorem prepareTurn_outcome {turn : Turn} (h : Looking s)
    (hturn : prepareTurn A blocking s = .ok turn) : TurnOutcome blocking s turn := by
  have hhead := h.head
  have hdata := h.data
  obtain ⟨k, hscan, rfl⟩ | ⟨hscan, t, r, hroom, hread, rfl⟩ := prepareTurn_cases h.escape hturn
  · exact TurnOutcome.found k hscan
  · refine TurnOutcome.read _ hscan ?_
    cases hroom with
    | behind hspace => exact afterRead_of_room h rfl rfl (by omega) hread
    | shifted hspace hfront =>
        refine afterRead_of_room (shiftBuffer_looking h) (shiftBuffer_pending s) rfl ?_ hread
        dsimp only [shiftBuffer]
        omega
    | grown hspace hfront hgrow =>
        obtain ⟨ht, hpending, hfd, hgrown⟩ := growBuffer_spec h hfront hgrow
        exact afterRead_of_room ht hpending hfd hgrown hread

/-! ## A whole call -/

/-- `t` is the stream at the start of a turn of the loop that begins with `s`. -/
inductive Visits (A : Allocator) (blocking : Bool) : LogIstream → LogIstream → Prop where
  | here (s : LogIstream) : Visits A blocking s s
  | next {s s' t : LogIstream} : prepareTurn A blocking s = .ok (.again s') →
      Visits A blocking s' t → Visits A blocking s t

/-- `t` is the stream at the start of a turn of `prepare_next`: the search goes over
    its pending bytes. -/
def Searches (A : Allocator) (blocking : Bool) (s t : LogIstream) : Prop :=
  if s.lineBufferCount = 0 then
    ∃ n s', readToBuff { s with dataHeadPtr := s.lineBuffer } s.lineBuffer blocking = .ok (n, s') ∧
      n ≠ 0 ∧ Visits A blocking s' t
  else Visits A blocking s t

/-- How a call of `prepare_next` ends: a search has found a line, reading would block,
    or the file is at its end and no line is left. -/
inductive NextOutcome (searched : LogIstream → Prop) (blocking : Bool) (s : LogIstream) :
    Nat × LogIstream → Prop where
  | found (t : LogIstream) (k : Nat) : searched t → Looking t → t.rest = s.rest →
      t.pending.findIdx? isTerminator = some k →
      NextOutcome searched blocking s (lineSize t k, { t with readSize := lineSize t k })
  | blocked (s' : LogIstream) : blocking = false → Looking s' → s'.rest = s.rest →
      NextOutcome searched blocking s (0, s')
  | eof (s' : LogIstream) : Fits s' → s'.readSize = 0 → s'.isClosed = true →
      s'.rest = s.rest → s.rest.findIdx? isTerminator = none →
      NextOutcome searched blocking s (0, s')

theorem NextOutcome.mono {P Q : LogIstream → Prop} {r : Nat × LogIstream}
    (h : NextOutcome P blocking s' r) (hrest : s'.rest = s.rest) (hPQ : ∀ t, P t → Q t) :
    NextOutcome Q blocking s r := by
  cases h with
  | found t k hP ht hrest' hscan =>
      exact NextOutcome.found t k (hPQ t hP) ht (hrest'.trans hrest) hscan
  | blocked s'' hblock hs'' hrest' =>
      exact NextOutcome.blocked s'' hblock hs'' (hrest'.trans hrest)
  | eof s'' hfits hread hclosed hrest' hnone =>
      exact NextOutcome.eof s'' hfits hread hclosed (hrest'.trans hrest) (hrest ▸ hnone)

/-- Where the loop goes after a turn. -/
def Turn.GoesOn (A : Allocator) (blocking : Bool) (fuel : Nat) (r : Nat × LogIstream) :
    Turn → Prop
  | .found n t => r = (n, t)
  | .empty t => r = (0, t)
  | .again t => prepareLoop A blocking fuel t = .ok r

theorem prepareLoop_turn {fuel : Nat} {r : Nat × LogIstream}
    (hloop : prepareLoop A blocking (fuel + 1) s = .ok r) :
    ∃ turn, prepareTurn A blocking s = .ok turn ∧ turn.GoesOn A blocking fuel r := by
  obtain ⟨turn, hturn, hr⟩ := bind_eq_ok_iff.mp hloop
  refine ⟨turn, hturn, ?_⟩
  cases turn with
  | found n t => exact (Except.ok.inj hr).symm
  | empty t => exact (Except.ok.inj hr).symm
  | again t => exact hr

/-- The loop, with enough fuel: the induction is on the fuel, which outlasts the file. -/
theorem prepareLoop_outcome {fuel : Nat} {r : Nat × LogIstream} (h : Looking s)
    (hfuel : s.fd.stream.length < fuel) (hloop : prepareLoop A blocking fuel s = .ok r) :
    NextOutcome (Visits A blocking s) blocking s r := by
  induction fuel generalizing s with
  | zero => exact absurd hfuel (Nat.not_lt_zero _)
  | succ fuel ih =>
      obtain ⟨turn, hturn, hr⟩ := prepareLoop_turn hloop
      cases prepareTurn_outcome h hturn with
      -- a line: the loop ends with it
      | found k hscan =>
          cases hr
          exact NextOutcome.found s k (Visits.here s) h rfl hscan
      | read turn hnone hread =>
          cases hread with
          | blocked s' hblock hs' hrest =>
              cases hr
              exact NextOutcome.blocked s' hblock hs' hrest
          | eof s' hfits hread hclosed hend hrest =>
              cases hr
              refine NextOutcome.eof s' hfits hread hclosed hrest ?_
              rw [LogIstream.rest, hend, List.append_nil]
              exact hnone
          -- more data, less in the file
          | again s' hs' hrest hlt =>
              exact (ih hs' (by omega) hr).mono hrest fun t ht => Visits.next hturn ht

/-- The first read of a call with nothing pending goes to the front of the buffer. -/
theorem firstRead_outcome {r : Nat × LogIstream} (h : Looking s) (hcount : s.lineBufferCount = 0)
    (hread : readToBuff { s with dataHeadPtr := s.lineBuffer } s.lineBuffer blocking = .ok r) :
    AfterRead blocking s (afterRead r) := by
  have hsize := h.size
  have hfront : Looking { s with dataHeadPtr := s.lineBuffer } :=
    { h with head := Nat.le_refl _, data := by dsimp only; omega }
  have hempty : ∀ p, LogIstream.pending { s with dataHeadPtr := p } = [] := by
    intro p
    simp only [LogIstream.pending, hcount, Mem.read_zero]
  have hrest : LogIstream.rest { s with dataHeadPtr := s.lineBuffer } = s.rest := by
    rw [LogIstream.rest, LogIstream.rest, hempty, show s.pending = [] from hempty s.dataHeadPtr]
  have hread' : readToBuff { s with dataHeadPtr := s.lineBuffer }
      (s.lineBuffer + s.lineBufferCount) blocking = .ok r := by
    simpa only [hcount, Nat.add_zero] using hread
  have hout := readToBuff_outcome hfront.toFits.inBuffer (by dsimp only; omega) hread'
  exact (hout.afterRead hfront).of_eq hrest rfl

/-- A call of `prepare_next` on an open stream with no line marked. -/
theorem prepareNext_outcome {r : Nat × LogIstream} (h : Looking s)
    (hnext : prepareNext A blocking s = .ok r) :
    NextOutcome (Searches A blocking s) blocking s r := by
  rw [prepareNext] at hnext
  by_cases hcount : s.lineBufferCount = 0
  · -- nothing pending: one read comes before the loop
    rw [if_pos hcount] at hnext
    obtain ⟨⟨n, s'⟩, hread, hnext⟩ := bind_eq_ok_iff.mp hnext
    have hout := firstRead_outcome h hcount hread
    cases n with
    | zero =>
        cases hnext
        cases hout with
        | blocked _ hblock hs' hrest => exact NextOutcome.blocked s' hblock hs' hrest
        | eof _ hfits hsize hclosed hend hrest =>
            refine NextOutcome.eof s' hfits hsize hclosed hrest ?_
            have hpending := List.eq_nil_of_length_eq_zero (s.pending_length.trans hcount)
            rw [LogIstream.rest, hpending, hend]
            rfl
    | succ n =>
        cases hout with
        | again _ hs' hrest hlt =>
            refine (prepareLoop_outcome hs' (Nat.lt_succ_self _) hnext).mono hrest
              fun t ht => ?_
            rw [Searches, if_pos hcount]
            exact ⟨n + 1, s', hread, Nat.succ_ne_zero n, ht⟩
  · -- the loop starts with what is pending
    rw [if_neg hcount] at hnext
    have hsearches : Searches A blocking s = Visits A blocking s := by
      funext t
      rw [Searches, if_neg hcount]
    rw [hsearches]
    exact prepareLoop_outcome h (Nat.lt_succ_self _) hnext

/-- Every turn of the loop begins with an open stream and the caller's bytes. -/
theorem Visits.looking (h : Visits A blocking s t) (hs : Looking s) :
    Looking t ∧ t.rest = s.rest := by
  induction h with
  | here s => exact ⟨hs, rfl⟩
  | next hturn _ ih =>
      cases prepareTurn_outcome hs hturn with
      | read _ _ hread =>
          cases hread with
          | again s' hs' hrest _ =>
              obtain ⟨ht, hrest'⟩ := ih hs'
              exact ⟨ht, hrest'.trans hrest⟩

theorem Searches.looking (h : Searches A blocking s t) (hs : Looking s) :
    Looking t ∧ t.rest = s.rest := by
  rw [Searches] at h
  by_cases hcount : s.lineBufferCount = 0
  · rw [if_pos hcount] at h
    obtain ⟨n, s', hread, hn, hvisits⟩ := h
    have hout := firstRead_outcome hs hcount hread
    obtain ⟨n, rfl⟩ := Nat.exists_eq_succ_of_ne_zero hn
    cases hout with
    | again _ hs' hrest _ =>
        obtain ⟨ht, hrest'⟩ := hvisits.looking hs'
        exact ⟨ht, hrest'.trans hrest⟩
  · rw [if_neg hcount] at h
    exact h.looking hs

/-- A search that finds a line is the last one, and its line is the one returned. -/
theorem prepareLoop_of_visits {fuel k : Nat} (h : Visits A blocking s t) (hs : Looking s)
    (hfuel : s.fd.stream.length < fuel) (hscan : t.pending.findIdx? isTerminator = some k) :
    prepareLoop A blocking fuel s = .ok (lineSize t k, { t with readSize := lineSize t k }) := by
  -- the induction follows the turns up to the search
  induction h generalizing fuel with
  | here s =>
      obtain ⟨fuel, rfl⟩ := Nat.exists_eq_add_of_lt hfuel
      have hescape : unescapeBuffer s = s := by rw [unescapeBuffer, hs.escape]; rfl
      rw [prepareLoop, prepareTurn, hescape, scanLine_pending, hscan]
      rfl
  | next hturn _ ih =>
      obtain ⟨fuel, rfl⟩ := Nat.exists_eq_add_of_lt hfuel
      rw [prepareLoop, hturn]
      cases prepareTurn_outcome hs hturn with
      | read _ _ hread =>
          cases hread with
          | again s' hs' _ hlt => exact ih hs' (by omega) hscan

theorem prepareNext_of_searches {k : Nat} {r : Nat × LogIstream} (hs : Looking s)
    (hnext : prepareNext A blocking s = .ok r) (h : Searches A blocking s t)
    (hscan : t.pending.findIdx? isTerminator = some k) :
    r = (lineSize t k, { t with readSize := lineSize t k }) := by
  rw [Searches] at h
  rw [prepareNext] at hnext
  by_cases hcount : s.lineBufferCount = 0
  · rw [if_pos hcount] at h hnext
    obtain ⟨n, s', hread, hn, hvisits⟩ := h
    have hs' : Looking s' := by
      have hout := firstRead_outcome hs hcount hread
      obtain ⟨n, rfl⟩ := Nat.exists_eq_succ_of_ne_zero hn
      cases hout with
      | again _ hs' _ _ => exact hs'
    rw [hread] at hnext
    dsimp only [Except.bind] at hnext
    rw [if_neg hn, prepareLoop_of_visits hvisits hs' (Nat.lt_succ_self _) hscan] at hnext
    exact (Except.ok.inj hnext).symm
  · rw [if_neg hcount] at h hnext
    rw [prepareLoop_of_visits h hs (Nat.lt_succ_self _) hscan] at hnext
    exact (Except.ok.inj hnext).symm

/-! ## The searches of a call, one by one -/

theorem Visits.eq_of_found {n : Nat} (h : Visits A blocking s t)
    (hturn : prepareTurn A blocking s = .ok (.found n s')) : t = s := by
  cases h with
  | here => rfl
  | next hturn' _ =>
      rw [hturn] at hturn'
      cases hturn'

theorem Visits.of_again (h : Visits A blocking s t)
    (hturn : prepareTurn A blocking s = .ok (.again s')) : t = s ∨ Visits A blocking s' t := by
  cases h with
  | here => exact Or.inl rfl
  | next hturn' hrest =>
      rw [hturn] at hturn'
      cases hturn'
      exact Or.inr hrest

theorem Searches.visits {n : Nat} (h : Searches A blocking s t) (hcount : s.lineBufferCount = 0)
    (hread : readToBuff { s with dataHeadPtr := s.lineBuffer } s.lineBuffer blocking
      = .ok (n, s')) : n ≠ 0 ∧ Visits A blocking s' t := by
  rw [Searches, if_pos hcount] at h
  obtain ⟨n', u, hread', hn, hvisits⟩ := h
  rw [hread] at hread'
  cases hread'
  exact ⟨hn, hvisits⟩

end Camio.Log
