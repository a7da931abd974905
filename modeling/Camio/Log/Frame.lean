/-
  Camio.Log.Frame

  Which bytes of its buffer a log istream overwrites.  `ready` may read more data
  behind the unread bytes, move these to the front of the buffer and grow the buffer,
  so a range that an earlier call has handed out keeps its bytes as long as the unread
  bytes stay apart from it wherever the searches of `ready` find them.
-/

import Camio.Log.System

namespace Camio.Log

open Camio.Lib

variable {A : Allocator} {blocking : Bool} {s t : LogIstream} {ptr size : Nat}

/-- What holds of the buffer after all calls, whichever lines the searches mark. -/
structure Laid (s : LogIstream) : Prop where
  escape : s.escape = false
  head : s.lineBuffer ≤ s.dataHeadPtr
  size_pos : 0 < s.lineBufferSize
  size_lt : s.lineBufferSize < 2 ^ 63

/-- In the search of `t` the unread bytes are apart from the range, and if there is no
    line and no space behind them, then they can be moved to the front of the buffer and
    are apart from the range there. -/
def Spares (ptr size : Nat) (t : LogIstream) : Prop :=
  Mem.Apart ptr size t.dataHeadPtr t.lineBufferCount ∧
    (t.pending.findIdx? isTerminator = none →
      ¬ t.dataHeadPtr + t.lineBufferCount < t.lineBuffer + t.lineBufferSize - 1 →
      t.dataHeadPtr ≠ t.lineBuffer ∧ t.lineBufferCount < t.lineBufferSize ∧
        Mem.Apart ptr size t.lineBuffer t.lineBufferCount)

/-! ## Reading -/

/-- What `read_to_buff` does to the stream, wherever it reads to. -/
inductive BuffRead (s : LogIstream) (p : Nat) : Nat × LogIstream → Prop where
  | none (fd : ReadFd) : BuffRead s p (0, { s with fd := fd })
  | closed (fd : ReadFd) : BuffRead s p (0, camioIstreamLogClose { s with fd := fd })
  | data (bytes : List UInt8) (fd : ReadFd) : bytes.length ≠ 0 →
      bytes.length ≤ sizeSub (s.lineBuffer + s.lineBufferSize - 1) p →
      BuffRead s p (bytes.length, { s with
        mem := s.mem.write p bytes
        fd := fd
        lineBufferCount := (s.lineBufferCount + bytes.length) % 2 ^ 64 })

theorem readToBuff_buffRead {p : Nat} {r : Nat × LogIstream}
    (hread : readToBuff s p blocking = .ok r) : BuffRead s p r := by
  rw [readToBuff] at hread
  rcases s.fd.read_cases blocking (sizeSub (s.lineBuffer + s.lineBufferSize - 1) p)
    with ⟨fd', hcall⟩ | ⟨fd', hcall, -⟩ | ⟨bytes, fd', hcall, -, hlen, -⟩
  · rw [hcall] at hread
    cases hread
  · rw [hcall] at hread
    cases hread
    exact .none fd'
  · rw [hcall] at hread
    dsimp only at hread
    by_cases hzero : bytes.length = 0
    · rw [if_pos hzero] at hread
      cases hread
      exact .closed fd'
    · rw [if_neg hzero] at hread
      cases hread
      exact .data bytes fd' hzero hlen

theorem BuffRead.laid {p : Nat} {r : Nat × LogIstream} (h : BuffRead s p r) (hs : Laid s) :
    Laid r.2 := by
  cases h with
  | none fd => exact { hs with }
  | closed fd => exact { hs with }
  | data bytes fd _ _ => exact { hs with }

/-- Reading behind the unread bytes overwrites nothing but what becomes unread then. -/
theorem BuffRead.spares {r : Nat × LogIstream}
    (h : BuffRead s (s.dataHeadPtr + s.lineBufferCount) r) (hs : Laid s)
    (hfit : s.dataHeadPtr + s.lineBufferCount ≤ s.lineBuffer + s.lineBufferSize - 1)
    (hr : r.1 ≠ 0 → Mem.Apart ptr size r.2.dataHeadPtr r.2.lineBufferCount) :
    r.2.mem.read ptr size = s.mem.read ptr size := by
  have hhead := hs.head
  have hlt := hs.size_lt
  cases h with
  | none fd => rfl
  | closed fd => rfl
  | data bytes fd hne hlen =>
      rw [sizeSub_of_le hfit (by omega)] at hlen
      have hapart := hr hne
      have hcount : (s.lineBufferCount + bytes.length) % 2 ^ 64
          = s.lineBufferCount + bytes.length := Nat.mod_eq_of_lt (by omega)
      dsimp only at hapart ⊢
      rw [hcount] at hapart
      apply Mem.read_write_apart
      intro x hx hx'
      have := hapart x hx hx'
      omega

/-! ## One turn -/

/-- How a turn leaves the range: untouched, unless the next search finds unread bytes in
    it. -/
def TurnSpares (ptr size : Nat) (s : LogIstream) : Turn → Prop
  | .found _ t => t.mem.read ptr size = s.mem.read ptr size
  | .empty t => t.mem.read ptr size = s.mem.read ptr size
  | .again t => Mem.Apart ptr size t.dataHeadPtr t.lineBufferCount →
      t.mem.read ptr size = s.mem.read ptr size

theorem BuffRead.turnSpares {r : Nat × LogIstream}
    (h : BuffRead s (s.dataHeadPtr + s.lineBufferCount) r) (hs : Laid s)
    (hfit : s.dataHeadPtr + s.lineBufferCount ≤ s.lineBuffer + s.lineBufferSize - 1) :
    TurnSpares ptr size s (afterRead r) := by
  obtain ⟨n, t⟩ := r
  cases n with
  | zero => exact h.spares hs hfit (fun hne => absurd rfl hne)
  | succ n => exact fun hapart => h.spares hs hfit (fun _ => hapart)

theorem growBuffer_laid (hs : Laid s) (hgrow : growBuffer A s = .ok t) : Laid t := by
  have hpos := hs.size_pos
  have hlt := hs.size_lt
  obtain ⟨p, m, hrealloc, rfl⟩ := growBuffer_eq_ok (by omega) hgrow
  exact { hs with
    head := Nat.le_refl _, size_pos := by dsimp only; omega, size_lt := A.realloc_lt hrealloc }

theorem prepareTurn_laid {turn : Turn} (hs : Laid s)
    (hturn : prepareTurn A blocking s = .ok turn) : Laid turn.stream := by
  obtain ⟨k, -, rfl⟩ | ⟨-, t, r, hroom, hread, rfl⟩ := prepareTurn_cases hs.escape hturn
  · exact { hs with }
  · rw [stream_afterRead]
    apply (readToBuff_buffRead hread).laid
    cases hroom with
    | behind hspace => exact hs
    | shifted hspace hfront => exact { hs with head := Nat.le_refl _ }
    | grown hspace hfront hgrow => exact growBuffer_laid hs hgrow

/-- A turn whose search spares the range leaves it untouched. -/
theorem prepareTurn_spares {turn : Turn} (hs : Laid s) (hspares : Spares ptr size s)
    (hturn : prepareTurn A blocking s = .ok turn) : TurnSpares ptr size s turn := by
  have hhead := hs.head
  obtain ⟨k, -, rfl⟩ | ⟨hnone, t, r, hroom, hread, rfl⟩ := prepareTurn_cases hs.escape hturn
  · exact rfl
  · have hbuff := readToBuff_buffRead hread
    cases hroom with
    | behind hspace => exact hbuff.turnSpares hs (by omega)
    | shifted hspace hfront =>
        -- the unread bytes have moved to the front, apart from the range
        obtain ⟨-, hcount, hapart⟩ := hspares.2 hnone hspace
        have hshift : (shiftBuffer s).mem.read ptr size = s.mem.read ptr size :=
          Mem.read_write_apart (by rw [Mem.read_length]; exact hapart)
        have hspares' : TurnSpares ptr size (shiftBuffer s) (afterRead r) :=
          hbuff.turnSpares { hs with head := Nat.le_refl _ } (by dsimp only [shiftBuffer]; omega)
        cases hturn' : afterRead r with
        | found n t => exact (hturn' ▸ hspares').trans hshift
        | empty t => exact (hturn' ▸ hspares').trans hshift
        | again t =>
            have hagain : TurnSpares ptr size (shiftBuffer s) (.again t) := hturn' ▸ hspares'
            exact fun h => (hagain h).trans hshift
    | grown hspace hfront hgrow => exact absurd hfront (hspares.2 hnone hspace).1

/-! ## A whole call -/

theorem prepareLoop_laid {fuel : Nat} {r : Nat × LogIstream} (hs : Laid s)
    (hloop : prepareLoop A blocking fuel s = .ok r) : Laid r.2 := by
  induction fuel generalizing s with
  | zero =>
      cases hloop
      exact hs
  | succ fuel ih =>
      obtain ⟨turn, hturn, hr⟩ := prepareLoop_turn hloop
      have hlaid := prepareTurn_laid hs hturn
      cases turn with
      | found n t =>
          cases hr
          exact hlaid
      | empty t =>
          cases hr
          exact hlaid
      | again t => exact ih hlaid hr

theorem prepareLoop_spares {fuel : Nat} {r : Nat × LogIstream} (hs : Laid s)
    (hspares : ∀ t, Visits A blocking s t → Spares ptr size t)
    (hloop : prepareLoop A blocking fuel s = .ok r) :
    r.2.mem.read ptr size = s.mem.read ptr size := by
  induction fuel generalizing s with
  | zero =>
      cases hloop
      rfl
  | succ fuel ih =>
      obtain ⟨turn, hturn, hr⟩ := prepareLoop_turn hloop
      have hturnSpares := prepareTurn_spares hs (hspares s (.here s)) hturn
      cases turn with
      | found n t =>
          cases hr
          exact hturnSpares
      | empty t =>
          cases hr
          exact hturnSpares
      | again t =>
          have hnext := fun u (hu : Visits A blocking t u) => hspares u (.next hturn hu)
          exact (ih (prepareTurn_laid hs hturn) hnext hr).trans
            (hturnSpares (hnext t (.here t)).1)

/-- `prepare_next` reads once if nothing is unread, and then goes round its loop. -/
theorem prepareNext_cases {r : Nat × LogIstream} (hnext : prepareNext A blocking s = .ok r) :
    (s.lineBufferCount = 0 ∧ ∃ n t,
      BuffRead { s with dataHeadPtr := s.lineBuffer } s.lineBuffer (n, t) ∧
      ((n = 0 ∧ r = (0, t)) ∨
        (n ≠ 0 ∧ (∀ u, Visits A blocking t u → Searches A blocking s u) ∧
          ∃ fuel, prepareLoop A blocking fuel t = .ok r))) ∨
    (s.lineBufferCount ≠ 0 ∧ (∀ u, Visits A blocking s u → Searches A blocking s u) ∧
      ∃ fuel, prepareLoop A blocking fuel s = .ok r) := by
  rw [prepareNext] at hnext
  by_cases hcount : s.lineBufferCount = 0
  · rw [if_pos hcount] at hnext
    refine Or.inl ⟨hcount, ?_⟩
    obtain ⟨⟨n, t⟩, hread, hnext⟩ := bind_eq_ok_iff.mp hnext
    dsimp only at hnext
    refine ⟨n, t, readToBuff_buffRead hread, ?_⟩
    by_cases hn : n = 0
    · rw [if_pos hn] at hnext
      exact Or.inl ⟨hn, (Except.ok.inj hnext).symm⟩
    · rw [if_neg hn] at hnext
      refine Or.inr ⟨hn, fun u hu => ?_, _, hnext⟩
      rw [Searches, if_pos hcount]
      exact ⟨n, t, hread, hn, hu⟩
  · rw [if_neg hcount] at hnext
    refine Or.inr ⟨hcount, fun u hu => ?_, _, hnext⟩
    rw [Searches, if_neg hcount]
    exact hu

theorem prepareNext_laid {r : Nat × LogIstream} (hs : Laid s)
    (hnext : prepareNext A blocking s = .ok r) : Laid r.2 := by
  obtain ⟨-, n, t, hread, ⟨-, rfl⟩ | ⟨-, -, fuel, hloop⟩⟩ | ⟨-, -, fuel, hloop⟩ :=
    prepareNext_cases hnext
  · exact hread.laid { hs with head := Nat.le_refl _ }
  · exact prepareLoop_laid (hread.laid { hs with head := Nat.le_refl _ }) hloop
  · exact prepareLoop_laid hs hloop

theorem prepareNext_spares {r : Nat × LogIstream} (hs : Laid s)
    (hspares : ∀ t, Searches A blocking s t → Spares ptr size t)
    (hnext : prepareNext A blocking s = .ok r) : r.2.mem.read ptr size = s.mem.read ptr size := by
  have hpos := hs.size_pos
  have hfront : Laid { s with dataHeadPtr := s.lineBuffer } := { hs with head := Nat.le_refl _ }
  obtain ⟨hcount, n, t, hread, hcase⟩ | ⟨-, hvisits, fuel, hloop⟩ := prepareNext_cases hnext
  · -- the first read goes to the front, behind nothing
    have hlaid := hread.laid hfront
    have hread' : BuffRead { s with dataHeadPtr := s.lineBuffer }
        (s.lineBuffer + s.lineBufferCount) (n, t) := by
      rwa [show s.lineBuffer + s.lineBufferCount = s.lineBuffer by omega]
    have hkept : (n ≠ 0 → Mem.Apart ptr size t.dataHeadPtr t.lineBufferCount) →
        t.mem.read ptr size = s.mem.read ptr size :=
      hread'.spares hfront (by dsimp only; omega)
    obtain ⟨hn, rfl⟩ | ⟨-, hvisits, fuel, hloop⟩ := hcase
    · exact hkept fun hne => absurd hn hne
    · have hloop' := prepareLoop_spares hlaid (fun u hu => hspares u (hvisits u hu)) hloop
      exact hloop'.trans (hkept fun _ => (hspares t (hvisits t (.here t))).1)
  · exact prepareLoop_spares hs (fun u hu => hspares u (hvisits u hu)) hloop

/-! ## The calls -/

theorem laid_opened (p : Nat) (mem : Mem) (fd : ReadFd) : Laid (opened p mem fd) := by
  constructor <;> simp only [opened, camioIstreamLogConstruct, istreamBuffInit] <;> omega

theorem ready_laid {r : Nat × LogIstream} (hs : Laid s)
    (hready : camioIstreamLogReady A s = .ok r) : Laid r.2 := by
  obtain ⟨-, heq⟩ | ⟨-, -, r', hnext, heq⟩ := ready_cases hready <;> rw [heq]
  · exact hs
  · exact prepareNext_laid hs hnext

theorem handOut_laid (hs : Laid s) : Laid (handOut s).2 :=
  { hs with head := Nat.le_trans hs.head (Nat.le_add_right _ _) }

theorem startRead_laid {r : Option (Nat × Nat) × LogIstream} (hs : Laid s)
    (hread : camioIstreamLogStartRead A s = .ok r) : Laid r.2 := by
  obtain ⟨-, rfl⟩ | ⟨-, -, rfl⟩ | ⟨-, -, r', hnext, ⟨-, rfl⟩ | ⟨-, rfl⟩⟩ := startRead_cases hread
  · exact hs
  · exact handOut_laid hs
  · exact prepareNext_laid hs hnext
  · exact handOut_laid (prepareNext_laid hs hnext)

/-- A `ready` whose searches spare the range leaves it untouched. -/
theorem ready_spares {r : Nat × LogIstream} (hs : Laid s)
    (hspares : ∀ t, Searched A s .ready t → Spares ptr size t)
    (hready : camioIstreamLogReady A s = .ok r) : r.2.mem.read ptr size = s.mem.read ptr size := by
  obtain ⟨-, heq⟩ | ⟨hopen, hread, r', hnext, heq⟩ := ready_cases hready <;> rw [heq]
  exact prepareNext_spares hs (fun t ht => hspares t ⟨hopen, hread, ht⟩) hnext

end Camio.Log
