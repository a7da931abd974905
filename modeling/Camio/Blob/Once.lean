/-
  Camio.Blob.Once

  Whether `end_write` hands every byte to the descriptor once.

  The loop adds up what `write` returns in a `size_t`, so a failing call, which returns -1,
  takes one off the total: the byte before is written again, or, with nothing written yet,
  the total wraps around and the loop ends.  As long as no call fails the total counts the
  bytes that are through.
-/

import Camio.Blob.Ostream

namespace Camio.Blob

open Camio.Lib

/-- None of the calls that `left` more bytes take fails.  These do not depend on the bytes. -/
def NoneFails : List WriteTurn → (writeSize left : Nat) → Prop
  | [], _, _ => True
  | _ :: _, _, 0 => True
  | .error :: _, _, _ + 1 => False
  | .accept n :: turns, writeSize, left + 1 =>
      let transferred := min (n : Nat) (min (left + 1) writeSize)
      NoneFails turns (nextWriteSize writeSize transferred) (left + 1 - transferred)

/-- If `end_write` returns, the descriptor has received the first `len` bytes once. -/
def WritesOnce (s : BlobOstream) (len : Nat) : Prop :=
  ∀ fuel s', camioOstreamBlobEndWrite s len fuel = some s' →
    s'.fd.received = s.fd.received ++ s.source.read 0 len

/-! ## `write_size` -/

section WriteSize

variable {writeSize written : Nat}

theorem growWriteSize_pos (h : 0 < writeSize) : 0 < growWriteSize writeSize := by
  rw [growWriteSize]
  split <;> omega

theorem growWriteSize_lt (writeSize : Nat) : growWriteSize writeSize < 2 ^ 64 := by
  rw [growWriteSize]
  split <;> omega

/-- It never becomes zero. -/
theorem nextWriteSize_pos (h : 0 < writeSize) : 0 < nextWriteSize writeSize written := by
  rw [nextWriteSize]
  split
  · exact growWriteSize_pos h
  · exact h

theorem nextWriteSize_lt (h : writeSize < 2 ^ 64) : nextWriteSize writeSize written < 2 ^ 64 := by
  rw [nextWriteSize]
  split
  · exact growWriteSize_lt writeSize
  · exact h

end WriteSize

/-! ## One turn of the loop -/

section Turn

variable {source : Mem} {len fuel total writeSize c : Nat} {received : List UInt8}
  {turns rest : List WriteTurn}

theorem writeLoop_done {fd : WriteFd} (h : len ≤ total) :
    writeLoop source len (fuel + 1) total writeSize fd = some (writeSize, fd) := by
  rw [writeLoop, if_neg (Nat.not_lt_of_le h)]

/-- A call that transfers `c` bytes moves the total on by so many. -/
theorem writeLoop_transfer (hlt : total < len) (hlen : len < 2 ^ 64)
    (hc : c ≤ min (len - total) writeSize)
    (hwrite : ∀ bytes : List UInt8, bytes.length = min (len - total) writeSize →
      WriteFd.write ⟨received, turns⟩ bytes = ((c : Int), ⟨received ++ bytes.take c, rest⟩)) :
    writeLoop source len (fuel + 1) total writeSize ⟨received, turns⟩
      = writeLoop source len fuel (total + c) (nextWriteSize writeSize c)
          ⟨received ++ source.read total c, rest⟩ := by
  have hsize : sizeOfResult (c : Int) = c := by
    rw [sizeOfResult]
    omega
  rw [writeLoop, if_pos hlt]
  dsimp only
  rw [hwrite _ (Mem.read_length _ _ _), Mem.read_take _ _ hc]
  dsimp only
  rw [hsize, Nat.mod_eq_of_lt (by omega : total + c < 2 ^ 64)]

theorem writeLoop_accept (n : ℕ+) (hlt : total < len) (hlen : len < 2 ^ 64)
    (hc : c = min (n : Nat) (min (len - total) writeSize)) :
    writeLoop source len (fuel + 1) total writeSize ⟨received, .accept n :: turns⟩
      = writeLoop source len fuel (total + c) (nextWriteSize writeSize c)
          ⟨received ++ source.read total c, turns⟩ := by
  refine writeLoop_transfer hlt hlen (by omega) fun bytes hbytes => ?_
  have htake : bytes.take n = bytes.take c := by
    rw [hc, ← hbytes]
    exact List.take_eq_take_min
  dsimp only [WriteFd.write]
  rw [htake, hbytes]
  exact Prod.ext (by dsimp only; omega) rfl

theorem writeLoop_full (hlt : total < len) (hlen : len < 2 ^ 64)
    (hc : c = min (len - total) writeSize) :
    writeLoop source len (fuel + 1) total writeSize ⟨received, []⟩
      = writeLoop source len fuel (total + c) (nextWriteSize writeSize c)
          ⟨received ++ source.read total c, []⟩ := by
  refine writeLoop_transfer hlt hlen (by omega) fun bytes hbytes => ?_
  rw [WriteFd.write, hc, ← hbytes, List.take_length]

/-- A call that fails takes one off the total. -/
theorem writeLoop_error (hlt : total + 1 < len) (hlen : len < 2 ^ 64)
    (hsize : writeSize < 2 ^ 64) :
    writeLoop source len (fuel + 1) (total + 1) writeSize ⟨received, .error :: turns⟩
      = writeLoop source len fuel total (growWriteSize writeSize) ⟨received, turns⟩ := by
  have hresult : sizeOfResult (-1) = 2 ^ 64 - 1 := rfl
  have htotal : (total + 1 + (2 ^ 64 - 1)) % 2 ^ 64 = total := by omega
  rw [writeLoop, if_pos hlt]
  dsimp only [WriteFd.write]
  rw [hresult, nextWriteSize, if_pos (by omega), htotal]

/-- Where the total is 0 it ends the loop. -/
theorem writeLoop_error_zero (hpos : 0 < len) (hlen : len < 2 ^ 64)
    (hsize : writeSize < 2 ^ 64) :
    writeLoop source len (fuel + 2) 0 writeSize ⟨received, .error :: turns⟩
      = some (growWriteSize writeSize, ⟨received, turns⟩) := by
  have hresult : sizeOfResult (-1) = 2 ^ 64 - 1 := rfl
  rw [writeLoop, if_pos hpos]
  dsimp only [WriteFd.write]
  rw [hresult, nextWriteSize, if_pos (by omega), writeLoop_done (by omega)]

end Turn

/-! ## The loop -/

section Loop

variable {source : Mem} {len fuel total writeSize left : Nat} {turns : List WriteTurn}

/-- As long as no call fails, what is received is what the total counts. -/
theorem writeLoop_once {received : List UInt8} {r : Nat × WriteFd} (hlen : len < 2 ^ 64)
    (hleft : total + left = len) (hnone : NoneFails turns writeSize left)
    (h : writeLoop source len fuel total writeSize ⟨received, turns⟩ = some r) :
    r.2.received = received ++ source.read total left := by
  induction fuel generalizing turns total left writeSize received with
  | zero => cases h
  | succ fuel ih =>
      cases left with
      | zero =>
          rw [writeLoop_done (by omega)] at h
          cases h
          rw [Mem.read_zero, List.append_nil]
      | succ left =>
          have hlt : total < len := by omega
          have hmore : len - total = left + 1 := by omega
          -- `c` bytes are transferred, and what is left behind them
          have hstep : ∀ c turns', c ≤ left + 1 →
              NoneFails turns' (nextWriteSize writeSize c) (left + 1 - c) →
              writeLoop source len fuel (total + c) (nextWriteSize writeSize c)
                ⟨received ++ source.read total c, turns'⟩ = some r →
              r.2.received = received ++ source.read total (left + 1) := by
            intro c turns' hc hnone h
            rw [ih (by omega) hnone h, List.append_assoc, ← Mem.read_add, Nat.add_sub_cancel' hc]
          cases turns with
          | nil =>
              rw [writeLoop_full hlt hlen rfl, hmore] at h
              exact hstep _ [] (Nat.min_le_left _ writeSize) trivial h
          | cons turn turns =>
              cases turn with
              | accept n =>
                  rw [writeLoop_accept n hlt hlen rfl, hmore] at h
                  exact hstep _ _ (by omega) hnone h
              | error => exact hnone.elim

/-- The loop ends: a call uses up one of the listed outcomes, or transfers something. -/
theorem writeLoop_returns (hpos : 0 < writeSize) (hsize : writeSize < 2 ^ 64)
    (hlen : len < 2 ^ 64) (received : List UInt8) :
    ∃ fuel r, writeLoop source len fuel total writeSize ⟨received, turns⟩ = some r := by
  induction turns generalizing total writeSize received with
  | nil =>
      -- by induction on what is left
      induction hleft : len - total using Nat.strong_induction_on
        generalizing total writeSize received with
      | _ left ih =>
          by_cases hlt : total < len
          · obtain ⟨fuel, r, hr⟩ := ih (len - (total + min (len - total) writeSize)) (by omega)
              (nextWriteSize_pos hpos) (nextWriteSize_lt hsize)
              (received ++ source.read total (min (len - total) writeSize)) rfl
            exact ⟨fuel + 1, r, by rw [writeLoop_full hlt hlen rfl, hr]⟩
          · exact ⟨1, _, writeLoop_done (Nat.le_of_not_lt hlt)⟩
  | cons turn turns ih =>
      by_cases hlt : total < len
      · cases turn with
        | accept n =>
            obtain ⟨fuel, r, hr⟩ := ih (nextWriteSize_pos hpos) (nextWriteSize_lt hsize) _
            exact ⟨fuel + 1, r, by rw [writeLoop_accept n hlt hlen rfl, hr]⟩
        | error =>
            cases total with
            | zero => exact ⟨2, _, writeLoop_error_zero hlt hlen hsize⟩
            | succ total =>
                obtain ⟨fuel, r, hr⟩ := ih (growWriteSize_pos hpos) (growWriteSize_lt writeSize) _
                exact ⟨fuel + 1, r, by rw [writeLoop_error hlt hlen hsize, hr]⟩
      · exact ⟨1, _, writeLoop_done (Nat.le_of_not_lt hlt)⟩

/-- The next byte that is received stands no further on than the total says. -/
theorem writeLoop_next {received : List UInt8} {r : Nat × WriteFd} (hlen : len < 2 ^ 64)
    (hsize : writeSize < 2 ^ 64)
    (h : writeLoop source len fuel total writeSize ⟨received, turns⟩ = some r) :
    ∃ more, r.2.received = received ++ more ∧ ∀ b ∈ more.head?, ∃ a ≤ total, b = source a := by
  have hend : ∀ (l : List UInt8) (t : Nat), ∃ more, l = l ++ more ∧
      ∀ b ∈ more.head?, ∃ a ≤ t, b = source a :=
    fun l t => ⟨[], (List.append_nil l).symm, fun b hb => absurd hb (Option.not_mem_none b)⟩
  induction fuel generalizing turns total writeSize received with
  | zero => cases h
  | succ fuel ih =>
      by_cases hlt : total < len
      · -- a call that transfers `c` bytes from the total on
        have htransfer : ∀ c turns', writeLoop source len fuel (total + c)
              (nextWriteSize writeSize c) ⟨received ++ source.read total c, turns'⟩ = some r →
            ∃ more, r.2.received = received ++ more ∧
              ∀ b ∈ more.head?, ∃ a ≤ total, b = source a := by
          intro c turns' h
          obtain ⟨more, hmore, hhead⟩ := ih (nextWriteSize_lt hsize) h
          rw [List.append_assoc] at hmore
          refine ⟨_, hmore, ?_⟩
          cases c with
          | zero => exact hhead
          | succ c =>
              intro b hb
              exact ⟨total, Nat.le_refl _, (Option.some.inj hb).symm⟩
        cases turns with
        | nil => exact htransfer _ _ (by rwa [writeLoop_full hlt hlen rfl] at h)
        | cons turn turns =>
            cases turn with
            | accept n => exact htransfer _ _ (by rwa [writeLoop_accept n hlt hlen rfl] at h)
            | error =>
                cases total with
                | zero =>
                    -- the total wraps around, so the loop ends after this turn
                    cases fuel with
                    | zero =>
                        rw [writeLoop, if_pos hlt] at h
                        cases h
                    | succ fuel =>
                        rw [writeLoop_error_zero hlt hlen hsize] at h
                        cases h
                        exact hend _ _
                | succ total =>
                    -- the next byte comes from the total before, or from further back
                    rw [writeLoop_error hlt hlen hsize] at h
                    obtain ⟨more, hmore, hhead⟩ := ih (growWriteSize_lt writeSize) h
                    refine ⟨more, hmore, fun b hb => ?_⟩
                    obtain ⟨a, ha, hb⟩ := hhead b hb
                    exact ⟨a, Nat.le_succ_of_le ha, hb⟩
      · rw [writeLoop_done (Nat.le_of_not_lt hlt)] at h
        cases h
        exact hend _ _

/-- If a call fails, there are bytes that are not received once. -/
theorem writeLoop_wrong (hlen : len < 2 ^ 64) (hsize : writeSize < 2 ^ 64)
    (hpos : 0 < total → 0 < writeSize) (hleft : total + left = len)
    (hfails : ¬ NoneFails turns writeSize left) : ∃ source : Mem, ∀ received, ∃ fuel r,
      writeLoop source len fuel total writeSize ⟨received, turns⟩ = some r ∧
        r.2.received ≠ received ++ source.read total left := by
  induction turns generalizing total writeSize left with
  | nil => exact absurd trivial hfails
  | cons turn turns ih =>
      cases left with
      | zero => exact absurd trivial hfails
      | succ left =>
          have hlt : total < len := by omega
          cases turn with
          | accept n =>
              -- the failure is behind this call
              have hmore : len - total = left + 1 := by omega
              have hc : min (n : Nat) (min (left + 1) writeSize) ≤ left + 1 := by omega
              have hpos' : 0 < total + min (n : Nat) (min (left + 1) writeSize) →
                  0 < nextWriteSize writeSize (min (n : Nat) (min (left + 1) writeSize)) :=
                fun _ => nextWriteSize_pos (by omega)
              obtain ⟨source, hwrong⟩ := ih (nextWriteSize_lt hsize) hpos' (by omega) hfails
              refine ⟨source, fun received => ?_⟩
              obtain ⟨fuel, r, hr, hne⟩ := hwrong (received ++ source.read total _)
              refine ⟨fuel + 1, r, ?_, ?_⟩
              · rw [writeLoop_accept n hlt hlen rfl, hmore, hr]
              · rwa [List.append_assoc, ← Mem.read_add, Nat.add_sub_cancel' hc] at hne
          | error =>
              cases total with
              | zero =>
                  -- nothing is received any more
                  refine ⟨fun _ => 0, fun received =>
                    ⟨2, _, writeLoop_error_zero hlt hlen hsize, fun heq => ?_⟩⟩
                  have hlength := congrArg List.length heq
                  rw [List.length_append, Mem.read_length] at hlength
                  exact absurd hlength (by dsimp only; omega)
              | succ total =>
                  -- what comes next lies before the byte that is due
                  refine ⟨fun i => if i = total + 1 then 1 else 0, fun received => ?_⟩
                  obtain ⟨fuel, r, hr⟩ := @writeLoop_returns
                    (fun i => if i = total + 1 then 1 else 0) len total (growWriteSize writeSize)
                    turns (growWriteSize_pos (hpos (Nat.succ_pos total)))
                    (growWriteSize_lt writeSize) hlen received
                  refine ⟨fuel + 1, r, by rw [writeLoop_error hlt hlen hsize, hr], fun heq => ?_⟩
                  obtain ⟨more, hmore, hhead⟩ := writeLoop_next hlen (growWriteSize_lt writeSize) hr
                  obtain ⟨a, ha, hbyte⟩ := hhead 1 (by
                    rw [List.append_cancel_left (hmore.symm.trans heq), Mem.read, List.head?_cons,
                      if_pos rfl]
                    rfl)
                  rw [if_neg (by omega)] at hbyte
                  exact absurd hbyte (by decide)

end Loop

/-! ## `end_write` -/

/-- `end_write` returns, unless it could only write nothing at a time. -/
theorem endWrite_returns {s : BlobOstream} {len : Nat} (hlen : len < 2 ^ 64)
    (hpos : 0 < s.writeSize) (hsize : s.writeSize < 2 ^ 64) :
    ∃ fuel s', camioOstreamBlobEndWrite s len fuel = some s' := by
  obtain ⟨fuel, r, hr⟩ := @writeLoop_returns s.source len 0 s.writeSize s.fd.turns hpos hsize hlen
    s.fd.received
  exact ⟨fuel, _, by rw [camioOstreamBlobEndWrite, hr, Option.map_some]⟩

/-- Whatever bytes it is given, `end_write` writes them once if and only if none of its
    `write` calls fails. -/
theorem endWrite_once_iff {fd : WriteFd} {len writeSize : Nat} (hlen : len < 2 ^ 64)
    (hsize : writeSize < 2 ^ 64) :
    (∀ s : BlobOstream, s.fd = fd → s.writeSize = writeSize → WritesOnce s len) ↔
      NoneFails fd.turns writeSize len := by
  constructor
  · intro h
    by_contra hfails
    obtain ⟨source, hwrong⟩ := @writeLoop_wrong len 0 writeSize len fd.turns hlen hsize
      (fun h => absurd h (Nat.lt_irrefl 0)) (Nat.zero_add len) hfails
    obtain ⟨fuel, r, hr, hne⟩ := hwrong fd.received
    let s := { camioOstreamBlobConstruct source with
      assignedBuffer := some source, writeSize := writeSize, fd := fd }
    have hreturned : camioOstreamBlobEndWrite s len fuel = some _ := congrArg (Option.map _) hr
    exact hne (h s rfl rfl fuel _ hreturned)
  · rintro hnone s rfl rfl fuel s' hreturned
    rw [camioOstreamBlobEndWrite, Option.map_eq_some_iff] at hreturned
    obtain ⟨r, hr, rfl⟩ := hreturned
    exact writeLoop_once hlen (Nat.zero_add len) hnone hr

/-- A stream that writes two bytes at a time, its first `write` call taking one only. -/
def demoShortWrite : BlobOstream :=
  { camioOstreamBlobConstruct (fun _ => 0) with writeSize := 2, fd := ⟨[], [.accept 1]⟩ }

theorem endWrite_once_short : WritesOnce demoShortWrite 3 :=
  (@endWrite_once_iff ⟨[], [.accept 1]⟩ 3 2 (by decide) (by decide)).mpr trivial _ rfl rfl

/-- A stream that is handed `ab`, the second of its `write` calls failing. -/
def demoFailing : BlobOstream :=
  { camioOstreamBlobConstruct (fun _ => 0) with
    isClosed := false, assignedBuffer := some fun i => UInt8.ofNat (97 + i), writeSize := 4
    fd := ⟨[], [.accept 1, .error]⟩ }

theorem demoFailing_loop :
    writeLoop demoFailing.source 2 4 0 4 ⟨[], [.accept 1, .error]⟩
      = some (growWriteSize 4, ⟨[97, 97, 98], []⟩) := by
  rw [writeLoop_accept 1 (by decide) (by decide) (by decide : 1 = _),
    writeLoop_error (by decide) (by decide) (by decide),
    writeLoop_full (by decide) (by decide) (by decide : 2 = _), writeLoop_done (by decide)]
  rfl

/-- Of `ab` the first byte is written, the next call fails, and the first is written again. -/
theorem endWrite_once_fails :
    ¬ ∀ (s : BlobOstream) (len : Nat), len < 2 ^ 64 → s.writeSize < 2 ^ 64 →
      WritesOnce s len := by
  intro hall
  have hreturned : camioOstreamBlobEndWrite demoFailing 2 4 = some _ :=
    congrArg (Option.map _) demoFailing_loop
  have hwritten : ([97, 97, 98] : List UInt8) = [97, 98] :=
    hall demoFailing 2 (by decide) (by decide) 4 _ hreturned
  exact absurd hwritten (by decide)

end Camio.Blob
