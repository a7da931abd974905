/-
  Camio.Log.Growth

  How the line buffer makes room for a line that is longer than it.

  The bound on the unread bytes leaves the last byte of the buffer free, so a buffer is
  full when they reach the byte before.  A full buffer whose head is not at its front gains
  what is in front of the head when it is shifted; one whose head is there gains its own
  size when it is doubled.  In each case `read` is asked for at least one byte, and a
  buffer of two bytes is enough to start from.
-/

import Camio.Log.Buffer

namespace Camio.Log

open Camio.Lib

variable {A : Allocator} {blocking : Bool} {s s' t : LogIstream}

/-- The amount that `read_to_buff` asks `read` for. -/
def readAmount (s : LogIstream) (newDataPtr : Nat) : Nat :=
  sizeSub (s.lineBuffer + s.lineBufferSize - 1) newDataPtr

/-- What `read_to_buff` makes of the result of its `read`. -/
def takeRead (s : LogIstream) (newDataPtr : Nat) : ReadResult × ReadFd → Exit (Nat × LogIstream)
  | (.wouldBlock, fd) => .ok (0, { s with fd := fd })
  | (.error, _) => eprintfExit .fileRead "Could not read tlog input error no=%i (%s)\n"
  | (.data bytes, fd) =>
      if bytes.length = 0 then .ok (0, camioIstreamLogClose { s with fd := fd })
      else .ok (bytes.length, { s with
        mem := s.mem.write newDataPtr bytes
        fd := fd
        lineBufferCount := (s.lineBufferCount + bytes.length) % 2 ^ 64 })

/-- `read_to_buff` is one `read` of that amount. -/
theorem readToBuff_eq (s : LogIstream) (newDataPtr : Nat) (blocking : Bool) :
    readToBuff s newDataPtr blocking
      = takeRead s newDataPtr (s.fd.read blocking (readAmount s newDataPtr)) := by
  rw [readToBuff]
  show _ = takeRead s newDataPtr (s.fd.read blocking (sizeSub _ newDataPtr))
  generalize s.fd.read blocking _ = r
  obtain ⟨result, fd⟩ := r
  cases result with
  | wouldBlock => rfl
  | error => rfl
  | data bytes => rfl

/-- `t` is what `s` becomes by reading on: its unread bytes are those of `s`, in their order,
    and behind them what was taken off the file; and they are within their bound. -/
structure ReadsOn (s t : LogIstream) : Prop where
  inBuffer : InBuffer t
  escape : t.escape = s.escape
  bytes : ∃ bytes, t.pending = s.pending ++ bytes ∧ s.fd.stream = bytes ++ t.fd.stream

/-- The pass from `s` reads behind the unread bytes of `t`, which are those of `s`: it appends
    where they are, or has shifted or doubled the buffer.  It asks `read` for at least one
    byte, and is handed none only at the end of the file; and whatever comes is read on. -/
structure PassKeeps (A : Allocator) (blocking : Bool) (s t : LogIstream) : Prop where
  room : RoomMade A s t
  pending : t.pending = s.pending
  fd : t.fd = s.fd
  reads : prepareTurn A blocking s
    = (takeRead t (t.dataHeadPtr + t.lineBufferCount) (t.fd.read blocking
        (readAmount t (t.dataHeadPtr + t.lineBufferCount)))).map afterRead
  asks : 1 ≤ readAmount t (t.dataHeadPtr + t.lineBufferCount)
  eof : ∀ {fd}, t.fd.read blocking (readAmount t (t.dataHeadPtr + t.lineBufferCount))
    = (.data [], fd) → s.fd.stream = []
  after : ∀ {turn}, prepareTurn A blocking s = .ok turn → ReadsOn s turn.stream

theorem ReadsOn.refl (h : InBuffer s) : ReadsOn s s where
  inBuffer := h
  escape := rfl
  bytes := ⟨[], (List.append_nil _).symm, rfl⟩

theorem ReadsOn.trans (h : ReadsOn s s') (h' : ReadsOn s' t) : ReadsOn s t := by
  obtain ⟨bytes, hpending, hstream⟩ := h.bytes
  obtain ⟨bytes', hpending', hstream'⟩ := h'.bytes
  refine ⟨h'.inBuffer, h'.escape.trans h.escape, bytes ++ bytes', ?_, ?_⟩
  · rw [hpending', hpending, List.append_assoc]
  · rw [hstream, hstream', List.append_assoc]

/-! ## Making room -/

/-- With space behind the unread bytes, `read` is asked to fill it. -/
theorem one_le_readAmount (h : InBuffer t)
    (hspace : t.dataHeadPtr + t.lineBufferCount + 1 < t.lineBuffer + t.lineBufferSize) :
    1 ≤ readAmount t (t.dataHeadPtr + t.lineBufferCount) := by
  have hhead := h.head
  have hlt := h.size_lt
  rw [readAmount, sizeSub_of_le (by omega) (by omega)]
  omega

/-- A full buffer with something in front of its head. -/
theorem shiftBuffer_inBuffer (h : InBuffer s) (hfront : s.dataHeadPtr ≠ s.lineBuffer) :
    InBuffer (shiftBuffer s) ∧
      (shiftBuffer s).dataHeadPtr + (shiftBuffer s).lineBufferCount + 1
        < (shiftBuffer s).lineBuffer + (shiftBuffer s).lineBufferSize := by
  have hhead := h.head
  have hdata := h.data
  have hsize := h.size
  dsimp only [shiftBuffer]
  exact ⟨{ h with
    head := Nat.le_refl _
    head_lt := by dsimp only; omega
    data := by dsimp only; omega }, by omega⟩

/-- A buffer that is full from its front. -/
theorem growBuffer_inBuffer (h : InBuffer s) (hfront : s.dataHeadPtr = s.lineBuffer)
    (hgrow : growBuffer A s = .ok t) :
    InBuffer t ∧ t.dataHeadPtr + t.lineBufferCount + 1 < t.lineBuffer + t.lineBufferSize := by
  have hdata := h.data
  have hsize := h.size
  have hlt := h.size_lt
  obtain ⟨p, m, hrealloc, rfl⟩ := growBuffer_eq_ok (by omega) hgrow
  exact ⟨{
    head := Nat.le_refl _
    head_lt := by dsimp only; omega
    data := by dsimp only; omega
    size := by dsimp only; omega
    size_lt := A.realloc_lt hrealloc }, by dsimp only; omega⟩

/-- Whichever way room is made, there is some, and nothing else has changed. -/
theorem RoomMade.spec (h : RoomMade A s t) (hs : InBuffer s) :
    (InBuffer t ∧ t.escape = s.escape) ∧ t.pending = s.pending ∧ t.fd = s.fd ∧
      t.dataHeadPtr + t.lineBufferCount + 1 < t.lineBuffer + t.lineBufferSize := by
  have hdata := hs.data
  cases h with
  | behind hspace => exact ⟨⟨hs, rfl⟩, rfl, rfl, by omega⟩
  | shifted _ hfront =>
      obtain ⟨hshift, hspace⟩ := shiftBuffer_inBuffer hs hfront
      exact ⟨⟨hshift, rfl⟩, shiftBuffer_pending s, rfl, hspace⟩
  | grown _ hfront hgrow =>
      have hle : s.lineBufferCount ≤ s.lineBufferSize := by omega
      have hpending := growBuffer_pending hs.size_lt hfront hle hgrow
      obtain ⟨hgrown, hspace⟩ := growBuffer_inBuffer hs hfront hgrow
      obtain ⟨hescape, hfd⟩ : t.escape = s.escape ∧ t.fd = s.fd := by
        have hlt := hs.size_lt
        obtain ⟨p, m, -, rfl⟩ := growBuffer_eq_ok (by omega) hgrow
        exact ⟨rfl, rfl⟩
      exact ⟨⟨hgrown, hescape⟩, hpending, hfd, hspace⟩

/-! ## Reading -/

/-- `read` hands over nothing only at the end of the file. -/
theorem stream_eq_nil_of_read {fd fd' : ReadFd} {amount : Nat} (hamount : 1 ≤ amount)
    (hread : fd.read blocking amount = (.data [], fd')) : fd.stream = [] := by
  rcases fd.read_cases blocking amount
    with ⟨_, hcall⟩ | ⟨_, hcall, -⟩ | ⟨bytes, _, hcall, -, -, hnil⟩
  · rw [hcall] at hread
    cases hread
  · rw [hcall] at hread
    cases hread
  · rw [hcall] at hread
    cases hread
    exact hnil hamount rfl

/-- What comes of a `read` behind the unread bytes. -/
theorem ReadOutcome.readsOn {r : Nat × LogIstream} (h : ReadOutcome blocking t r)
    (ht : InBuffer t) : ReadsOn t r.2 := by
  cases h with
  | blocked fd _ hfd => exact ⟨{ ht with }, rfl, [], (List.append_nil _).symm, hfd.symm⟩
  | eof fd hend hfd =>
      refine ⟨{ ht with }, rfl, [], (List.append_nil _).symm, ?_⟩
      show t.fd.stream = [] ++ fd.stream
      rw [hend, hfd, List.append_nil]
  | data bytes fd _ hfd hfit =>
      have hdata : t.dataHeadPtr + (t.lineBufferCount + bytes.length)
          ≤ t.lineBuffer + t.lineBufferSize - 1 := by omega
      exact ⟨{ ht with data := hdata }, rfl, bytes, pending_write t bytes fd, hfd⟩

/-- A pass that has made room keeps the unread bytes. -/
theorem RoomMade.passKeeps (h : RoomMade A s t) (hs : InBuffer s)
    (hturn : prepareTurn A blocking s
      = (readToBuff t (t.dataHeadPtr + t.lineBufferCount) blocking).map afterRead) :
    PassKeeps A blocking s t := by
  obtain ⟨⟨ht, hescape⟩, hpending, hfd, hspace⟩ := h.spec hs
  have hasks := one_le_readAmount ht hspace
  refine ⟨h, hpending, hfd, ?_, hasks, ?_, ?_⟩
  · rw [hturn, readToBuff_eq]
  · intro fd hread
    rw [← hfd]
    exact stream_eq_nil_of_read hasks hread
  · intro turn hok
    have hroom : ReadsOn s t :=
      ⟨ht, hescape, [], hpending.trans (List.append_nil _).symm, congrArg ReadFd.stream hfd.symm⟩
    rw [hturn] at hok
    obtain ⟨r, hread, rfl⟩ := map_eq_ok_iff.mp hok
    rw [stream_afterRead]
    exact hroom.trans ((readToBuff_outcome ht hspace hread).readsOn ht)

/-- The `read` in front of the loop, with nothing unread, asks for at least one byte too. -/
theorem firstRead_asks (h : InBuffer s) (hcount : s.lineBufferCount = 0) :
    1 ≤ readAmount { s with dataHeadPtr := s.lineBuffer } s.lineBuffer := by
  have hsize := h.size
  have hfront : InBuffer { s with dataHeadPtr := s.lineBuffer } :=
    { h with
      head := Nat.le_refl _
      head_lt := by dsimp only; omega
      data := by dsimp only; omega }
  have hasks := one_le_readAmount hfront (by dsimp only; omega)
  simpa only [hcount, Nat.add_zero] using hasks

/-! ## Passes of the loop -/

/-- The buffer is full from its front, and `realloc` refuses to double it: the program
    ends. -/
structure GrowthRefused (A : Allocator) (blocking : Bool) (s : LogIstream) : Prop where
  front : s.dataHeadPtr = s.lineBuffer
  full : ¬ s.dataHeadPtr + s.lineBufferCount < s.lineBuffer + s.lineBufferSize - 1
  realloc : A.realloc s.mem s.lineBuffer s.lineBufferSize (s.lineBufferSize * 2 % 2 ^ 64) = none
  exits : prepareTurn A blocking s = eprintfExit .nullPtr "Could not grow line buffer\n"

/-- A pass that finds no terminator. -/
theorem prepareTurn_no_terminator (hs : InBuffer s) (hescape : s.escape = false)
    (hscan : scanLine s.mem s.dataHeadPtr s.lineBufferCount 0 = none) :
    GrowthRefused A blocking s ∨ ∃ t, PassKeeps A blocking s t := by
  have hunescape : unescapeBuffer s = s := by rw [unescapeBuffer, hescape]; rfl
  by_cases hspace : s.dataHeadPtr + s.lineBufferCount < s.lineBuffer + s.lineBufferSize - 1
  · refine Or.inr ⟨s, (RoomMade.behind hspace).passKeeps hs ?_⟩
    rw [prepareTurn, hunescape, hscan]
    exact if_pos hspace
  · by_cases hfront : s.dataHeadPtr = s.lineBuffer
    -- full from its front: `realloc` doubles the buffer, or the program ends
    · have hturn : prepareTurn A blocking s = (growBuffer A s).bind fun t =>
          (readToBuff t (t.dataHeadPtr + t.lineBufferCount) blocking).map afterRead := by
        rw [prepareTurn, hunescape, hscan]
        exact (if_neg hspace).trans (if_neg (not_not_intro hfront))
      by_cases hrealloc : A.realloc s.mem s.lineBuffer s.lineBufferSize
          (s.lineBufferSize * 2 % 2 ^ 64) = none
      · have hgrow : growBuffer A s = eprintfExit .nullPtr "Could not grow line buffer\n" := by
          rw [growBuffer, hrealloc]
        refine Or.inl ⟨hfront, hspace, hrealloc, ?_⟩
        rw [hturn, hgrow]
        rfl
      · obtain ⟨t, hgrow⟩ : ∃ t, growBuffer A s = .ok t := by
          obtain ⟨⟨p, m⟩, hsome⟩ := Option.ne_none_iff_exists'.mp hrealloc
          rw [growBuffer, hsome]
          exact ⟨_, rfl⟩
        refine Or.inr ⟨t, (RoomMade.grown hspace hfront hgrow).passKeeps hs ?_⟩
        rw [hturn, hgrow]
        rfl
    · refine Or.inr ⟨_, (RoomMade.shifted hspace hfront).passKeeps hs ?_⟩
      rw [prepareTurn, hunescape, hscan]
      exact (if_neg hspace).trans (if_pos hfront)

/-- What every pass of the loop keeps, the loop keeps. -/
theorem Visits.readsOn (h : Visits A blocking s t) (hs : InBuffer s) (hescape : s.escape = false) :
    ReadsOn s t := by
  induction h with
  | here s => exact .refl hs
  | @next s s' t hturn _ ih =>
      -- a pass that goes on has found no terminator, and was not refused
      have hscan : scanLine s.mem s.dataHeadPtr s.lineBufferCount 0 = none := by
        obtain ⟨k, -, hfound⟩ | ⟨hnone, -⟩ := prepareTurn_cases hescape hturn
        · cases hfound
        · rw [scanLine_pending, hnone]
          rfl
      obtain hrefused | ⟨u, hpass⟩ := prepareTurn_no_terminator hs hescape hscan
      · rw [hrefused.exits] at hturn
        cases hturn
      · have hnext : ReadsOn s s' := hpass.after hturn
        exact hnext.trans (ih hnext.inBuffer (hnext.escape.trans hescape))

/-- From every state with the unread bytes in the buffer, in all passes of the loop: the
    unread bytes are kept, and a pass that finds no terminator makes room, asks for more and
    keeps them, unless there is no more memory. -/
theorem growth_keeps_pending (A : Allocator) (blocking : Bool) {s t : LogIstream}
    (hs : InBuffer s) (hescape : s.escape = false) (hvisits : Visits A blocking s t) :
    ReadsOn s t ∧ (scanLine t.mem t.dataHeadPtr t.lineBufferCount 0 = none →
      GrowthRefused A blocking t ∨ ∃ u, PassKeeps A blocking t u) := by
  have ht := hvisits.readsOn hs hescape
  exact ⟨ht, prepareTurn_no_terminator ht.inBuffer (ht.escape.trans hescape)⟩

/-- A buffer of two bytes, one of them unread, which is full. -/
def demoFull : LogIstream :=
  { isClosed := false, escape := false, lineBuffer := 100, lineBufferSize := 2
    lineBufferCount := 1, readSize := 0, dataHeadPtr := 100, mem := fun _ => 97
    fd := ⟨[98, 10], []⟩ }

/-- It is doubled, and the rest of the line read. -/
theorem growth_keeps_pending_two :
    ∃ t, t.lineBufferSize = 4 ∧ t.pending = [97, 98, 10] ∧ ReadsOn demoFull t ∧
      (scanLine t.mem t.dataHeadPtr t.lineBufferCount 0 = none →
        GrowthRefused .inPlace true t ∨ ∃ u, PassKeeps .inPlace true t u) := by
  have hfull : InBuffer demoFull := by
    constructor <;> simp [demoFull]
  obtain ⟨t, hturn, hsize, hpending⟩ : ∃ t, prepareTurn .inPlace true demoFull = .ok (.again t) ∧
      t.lineBufferSize = 4 ∧ t.pending = [97, 98, 10] := ⟨_, rfl, rfl, rfl⟩
  exact ⟨t, hsize, hpending, growth_keeps_pending .inPlace true hfull rfl (.next hturn (.here t))⟩

end Camio.Log
