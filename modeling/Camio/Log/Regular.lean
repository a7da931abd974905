/-
  Camio.Log.Regular

  A log istream on a regular file.

  `read` on a regular file neither fails nor would block, so a call of `prepare_next` ends:
  it has marked a line, or it has found the end of the file and closed the stream.  The
  buffer only doubles when it is full of bytes of the file, so it stays below twice their
  number, and `realloc` is never asked for more than there can be.
-/

import Camio.Log.System

namespace Camio.Log

open Camio.Lib

variable {A : Allocator} {blocking : Bool} {s : LogIstream} {L : Nat}

/-- A `realloc` that has all the memory there can be. -/
def Allocator.Ample (A : Allocator) : Prop :=
  ∀ m ptr size newSize, newSize < 2 ^ 63 → (A.realloc m ptr size newSize).isSome

theorem ample_inPlace : Allocator.Ample .inPlace := by
  intro m ptr size newSize hlt
  simp only [Allocator.inPlace, if_pos hlt, Option.isSome_some]

/-- A stream whose `read` is that of a regular file, with at most `L` bytes left to hand out. -/
structure Regular (L : Nat) (s : LogIstream) : Prop where
  turns : s.fd.turns = []
  rest_le : s.rest.length ≤ L
  size_le : s.lineBufferSize ≤ istreamBuffInit + 2 * L

/-- Blocking or not, `read` delivers. -/
theorem read_regular {fd : ReadFd} (hturns : fd.turns = []) (amount : Nat) :
    fd.read blocking amount = fd.deliver [] amount := by
  rw [ReadFd.read, hturns]
  cases blocking <;> rfl

/-- `read_to_buff` reads something or closes the stream. -/
theorem readToBuff_regular (blocking : Bool) (hturns : s.fd.turns = []) (newDataPtr : Nat) :
    ∃ n t, readToBuff s newDataPtr blocking = .ok (n, t) ∧ t.fd.turns = [] ∧
      t.lineBufferSize = s.lineBufferSize ∧ (n = 0 → t.isClosed = true) := by
  rw [readToBuff, read_regular hturns]
  dsimp only [ReadFd.deliver]
  split_ifs with hzero
  · exact ⟨0, _, rfl, rfl, rfl, fun _ => rfl⟩
  · exact ⟨_, _, rfl, rfl, rfl, fun hnone => absurd hnone hzero⟩

/-- What a turn leaves on a regular file. -/
structure Turned (L : Nat) (turn : Turn) : Prop where
  turns : turn.stream.fd.turns = []
  size_le : turn.stream.lineBufferSize ≤ istreamBuffInit + 2 * L
  closed : ∀ t, turn = .empty t → t.isClosed = true

theorem afterRead_regular {t : LogIstream} (hturns : t.fd.turns = [])
    (hsize : t.lineBufferSize ≤ istreamBuffInit + 2 * L) (newDataPtr : Nat) :
    ∃ turn, (readToBuff t newDataPtr blocking).map afterRead = .ok turn ∧ Turned L turn := by
  obtain ⟨n, u, hread, hturns', hsize', hclosed⟩ := readToBuff_regular blocking hturns newDataPtr
  refine ⟨afterRead (n, u), by rw [hread]; rfl, ?_⟩
  cases n with
  | zero =>
      refine ⟨hturns', by rw [← hsize'] at hsize; exact hsize, fun t ht => ?_⟩
      cases ht
      exact hclosed rfl
  | succ n => exact ⟨hturns', by rw [← hsize'] at hsize; exact hsize, fun t ht => by cases ht⟩

/-- The buffer can double. -/
theorem growBuffer_regular (hA : Allocator.Ample A) (hL : istreamBuffInit + 2 * L < 2 ^ 63)
    (h : Looking s) (hregular : Regular L s) (hfront : s.dataHeadPtr = s.lineBuffer)
    (hfull : ¬ s.dataHeadPtr + s.lineBufferCount < s.lineBuffer + s.lineBufferSize - 1) :
    ∃ t, growBuffer A s = .ok t ∧ t.fd = s.fd ∧ t.lineBufferSize ≤ istreamBuffInit + 2 * L := by
  have hrest := hregular.rest_le
  rw [LogIstream.rest, List.length_append, LogIstream.pending_length] at hrest
  have hsize := h.size
  have hdouble : s.lineBufferSize * 2 ≤ istreamBuffInit + 2 * L := by
    rw [istreamBuffInit]
    omega
  have hlt : s.lineBufferSize * 2 % 2 ^ 64 = s.lineBufferSize * 2 := Nat.mod_eq_of_lt (by omega)
  obtain ⟨⟨p, m⟩, hrealloc⟩ := Option.isSome_iff_exists.mp
    (hA s.mem s.lineBuffer s.lineBufferSize (s.lineBufferSize * 2) (by omega))
  rw [growBuffer, hlt, hrealloc]
  exact ⟨_, rfl, rfl, hdouble⟩

theorem prepareTurn_regular (blocking : Bool) (hA : Allocator.Ample A)
    (hL : istreamBuffInit + 2 * L < 2 ^ 63) (h : Looking s) (hregular : Regular L s) :
    ∃ turn, prepareTurn A blocking s = .ok turn ∧ Turned L turn := by
  have hunescape : unescapeBuffer s = s := by
    rw [unescapeBuffer, h.escape]
    rfl
  rw [prepareTurn, hunescape]
  dsimp only
  split
  next i _ => exact ⟨_, rfl, hregular.turns, hregular.size_le, fun t ht => by cases ht⟩
  next =>
    by_cases hspace : s.dataHeadPtr + s.lineBufferCount < s.lineBuffer + s.lineBufferSize - 1
    · rw [if_pos hspace]
      exact afterRead_regular hregular.turns hregular.size_le _
    · rw [if_neg hspace]
      by_cases hfront : s.dataHeadPtr = s.lineBuffer
      · rw [if_neg (not_not_intro hfront)]
        obtain ⟨t, hgrow, hfd, hsize⟩ := growBuffer_regular hA hL h hregular hfront hspace
        rw [hgrow]
        exact afterRead_regular (hfd ▸ hregular.turns) hsize _
      · rw [if_pos hfront]
        exact afterRead_regular (t := shiftBuffer s) hregular.turns hregular.size_le _

/-- The loop ends: the induction is on the fuel, which outlasts the file. -/
theorem prepareLoop_regular (hA : Allocator.Ample A) (hL : istreamBuffInit + 2 * L < 2 ^ 63)
    {fuel : Nat} (h : Looking s) (hregular : Regular L s) (hfuel : s.fd.stream.length < fuel) :
    ∃ r, prepareLoop A blocking fuel s = .ok r ∧ r.2.fd.turns = [] ∧
      r.2.lineBufferSize ≤ istreamBuffInit + 2 * L ∧ (r.2.readSize ≠ 0 ∨ r.2.isClosed = true) := by
  induction fuel generalizing s with
  | zero => exact absurd hfuel (Nat.not_lt_zero _)
  | succ fuel ih =>
      obtain ⟨turn, hturn, hturned⟩ := prepareTurn_regular blocking hA hL h hregular
      rw [prepareLoop, hturn]
      cases turn with
      | found n t =>
          cases prepareTurn_outcome h hturn with
          | found k _ =>
              exact ⟨_, rfl, hturned.turns, hturned.size_le, Or.inl (lineSize_ne_zero s k)⟩
          | read _ _ hread => cases hread
      | empty t =>
          exact ⟨_, rfl, hturned.turns, hturned.size_le, Or.inr (hturned.closed t rfl)⟩
      | again t =>
          -- more data, less in the file
          cases prepareTurn_outcome h hturn with
          | read _ _ hread =>
              cases hread with
              | again _ ht hrest hlt =>
                  have hregular' : Regular L t :=
                    ⟨hturned.turns, hrest ▸ hregular.rest_le, hturned.size_le⟩
                  exact ih ht hregular' (by omega)

/-- A call ends with a line marked or with the stream closed. -/
theorem prepareNext_regular (blocking : Bool) (hA : Allocator.Ample A)
    (hL : istreamBuffInit + 2 * L < 2 ^ 63) (h : Looking s) (hregular : Regular L s) :
    ∃ r, prepareNext A blocking s = .ok r ∧ r.2.fd.turns = [] ∧
      r.2.lineBufferSize ≤ istreamBuffInit + 2 * L ∧ (r.2.readSize ≠ 0 ∨ r.2.isClosed = true) := by
  rw [prepareNext]
  by_cases hcount : s.lineBufferCount = 0
  · rw [if_pos hcount]
    obtain ⟨n, t, hread, hturns, hsize, hclosed⟩ :=
      readToBuff_regular (s := { s with dataHeadPtr := s.lineBuffer }) blocking
        hregular.turns s.lineBuffer
    have hsize' : t.lineBufferSize ≤ istreamBuffInit + 2 * L := hsize ▸ hregular.size_le
    have hout := firstRead_outcome h hcount hread
    rw [hread]
    dsimp only [Except.bind]
    cases n with
    | zero => exact ⟨_, rfl, hturns, hsize', Or.inr (hclosed rfl)⟩
    | succ n =>
        cases hout with
        | again _ ht hrest _ =>
            exact prepareLoop_regular hA hL ht ⟨hturns, hrest ▸ hregular.rest_le, hsize'⟩
              (Nat.lt_succ_self _)
  · rw [if_neg hcount]
    exact prepareLoop_regular hA hL h hregular (Nat.lt_succ_self _)

/-! ## The calls -/

/-- What every call keeps: the bytes are marked by `M`, the file is regular, and a closed
    stream has no line left. -/
structure Readable (M : Marking) (L : Nat) (s : LogIstream) : Prop where
  sound : Sound M s
  regular : Regular L s
  closed : s.isClosed = true → s.rest.findIdx? isTerminator = none

variable {M : Marking}

theorem readable_opened (p : Nat) (mem : Mem) (file : List UInt8) :
    Readable M file.length (opened p mem ⟨file, []⟩) where
  sound := (looking_opened p mem _).sound
  regular := by
    refine ⟨rfl, Nat.le_of_eq ?_, Nat.le_add_right _ _⟩
    rw [LogIstream.rest, List.length_append, LogIstream.pending_length]
    exact Nat.zero_add _
  closed := nofun

/-- A search leaves the bytes, and either a line marked or the stream closed. -/
theorem Readable.prepareNext (hA : Allocator.Ample A) (hL : istreamBuffInit + 2 * L < 2 ^ 63)
    (h : Readable M L s) (hopen : s.isClosed = false) (hread : s.readSize = 0)
    (hmarks : ∀ t, Searches A blocking s t → Marks M t) :
    ∃ r, Log.prepareNext A blocking s = .ok r ∧ Readable M L r.2 ∧ r.2.rest = s.rest ∧
      r.1 = r.2.readSize ∧ (r.2.readSize ≠ 0 ∨ r.2.isClosed = true) := by
  have hlooking := h.sound.looking hopen hread
  obtain ⟨r, hnext, hturns, hsize, hend⟩ :=
    prepareNext_regular blocking hA hL hlooking h.regular
  obtain ⟨hsound, hrest, hsize', hclosed, -⟩ := prepareNext_sound hlooking hmarks hnext
  refine ⟨r, hnext, ⟨hsound, ⟨hturns, hrest ▸ h.regular.rest_le, hsize⟩, ?_⟩, hrest, hsize', hend⟩
  rw [hrest]
  exact hclosed

/-- `ready` returns 1. -/
theorem Readable.ready (hA : Allocator.Ample A) (hL : istreamBuffInit + 2 * L < 2 ^ 63)
    (h : Readable M L s) (hmarks : ∀ t, Searched A s .ready t → Marks M t) :
    ∃ t, camioIstreamLogReady A s = .ok (1, t) ∧ Readable M L t ∧ t.rest = s.rest := by
  rw [camioIstreamLogReady]
  by_cases hidle : s.readSize ≠ 0 ∨ s.isClosed = true
  · rw [if_pos hidle]
    exact ⟨s, rfl, h, rfl⟩
  · rw [if_neg hidle]
    rw [not_or, not_not, Bool.not_eq_true] at hidle
    obtain ⟨r, hnext, hr, hrest, -, hend⟩ := h.prepareNext hA hL hidle.2 hidle.1
      fun t ht => hmarks t ⟨hidle.2, hidle.1, ht⟩
    refine ⟨r.2, ?_, hr, hrest⟩
    rw [hnext]
    show Except.ok (if r.2.readSize ≠ 0 ∨ r.2.isClosed = true then 1 else 0, r.2) = _
    rw [if_pos hend]

/-- A marked line is handed out. -/
theorem Readable.handOut {e : LineEnd} (h : Readable (RestLine e) L s) (hread : s.readSize ≠ 0) :
    ∃ n, e s.rest = some n ∧ Readable (RestLine e) L (handOut s).2 ∧
      (Log.handOut s).2.rest = s.rest.drop n ∧ (Log.handOut s).1.2 = n - 1 ∧
      (Log.handOut s).2.mem.read (Log.handOut s).1.1 (Log.handOut s).1.2 = s.rest.take (n - 1) := by
  obtain ⟨hlooking, hrest⟩ := h.sound.handOut hread
  have hle := h.sound.readSize_le
  have hdata := h.sound.data
  have hhead := h.sound.head
  have hlt := h.sound.size_lt
  have hsize : sizeSub s.readSize 1 = s.readSize - 1 := sizeSub_of_le (by omega) (by omega)
  have hshorter : (Log.handOut s).2.rest.length ≤ L := by
    have hbytes := h.regular.rest_le
    rw [hrest, List.length_drop]
    omega
  refine ⟨s.readSize, (h.sound.marked hread).2, ⟨hlooking.sound, ⟨h.regular.turns, hshorter,
    h.regular.size_le⟩, fun hclosed => ?_⟩, hrest, hsize, h.sound.line_eq hread⟩
  exact absurd (hlooking.isOpen.symm.trans hclosed) Bool.false_ne_true

/-- `start_read` hands out the first line of the bytes that are left, if there is one. -/
theorem Readable.startRead {e : LineEnd} (hA : Allocator.Ample A)
    (hL : istreamBuffInit + 2 * L < 2 ^ 63) (h : Readable (RestLine e) L s)
    (hmarks : ∀ t, Searched A s .startRead t → Marks (RestLine e) t) :
    (∃ t, camioIstreamLogStartRead A s = .ok (none, t) ∧ Readable (RestLine e) L t ∧
      t.rest = s.rest ∧ s.rest.findIdx? isTerminator = none) ∨
    ∃ line t n, camioIstreamLogStartRead A s = .ok (some line, t) ∧ e s.rest = some n ∧
      Readable (RestLine e) L t ∧ t.rest = s.rest.drop n ∧ line.2 = n - 1 ∧
      t.mem.read line.1 line.2 = s.rest.take (n - 1) := by
  rw [camioIstreamLogStartRead]
  by_cases hclosed : s.isClosed = true
  · rw [if_pos hclosed]
    exact Or.inl ⟨s, rfl, h, rfl, h.closed hclosed⟩
  · rw [if_neg hclosed]
    rw [Bool.not_eq_true] at hclosed
    by_cases hread : s.readSize = 0
    · rw [if_pos hread]
      obtain ⟨⟨n, t⟩, hnext, ht, hrest, hn, hend⟩ := h.prepareNext hA hL hclosed hread
        fun t ht => hmarks t ⟨hclosed, hread, ht⟩
      dsimp only at ht hrest hn hend
      rw [hnext, ← hrest]
      by_cases hzero : n = 0
      · -- nothing is marked, so the stream was closed
        have hclosed' := hend.resolve_left (not_not_intro (hn.symm.trans hzero))
        exact Or.inl ⟨t, congrArg Except.ok (if_pos hzero), ht, rfl, ht.closed hclosed'⟩
      · obtain ⟨m, hm, hout, hdrop, hlen, hline⟩ := ht.handOut (hn ▸ hzero)
        exact Or.inr ⟨_, _, m, congrArg Except.ok (if_neg hzero), hm, hout, hdrop, hlen, hline⟩
    · rw [if_neg hread]
      obtain ⟨m, hm, hout, hdrop, hlen, hline⟩ := h.handOut hread
      exact Or.inr ⟨_, _, m, rfl, hm, hout, hdrop, hlen, hline⟩

end Camio.Log
