/-
  Camio.Blob.WriteSize

  What becomes of `write_size`, and that `end_write` returns.

  `end_write` notices an overflow of `write_size * 8` by the product being smaller, which it
  need not be.  Starting from 512MB, though, `write_size` runs through the powers of 2 that
  are 512MB and eight times as much up to 2^62, whose product is 0, and then stands at `~0`.
-/

import Camio.Blob.Assigned

namespace Camio.Blob

open Camio.Lib Camio.Descr

/-! ## Growing -/

/-- The values of `write_size`: 512MB times a power of 8, and `~0`. -/
def Grown (writeSize : Nat) : Prop :=
  (∃ k ≤ 11, writeSize = initWriteSize * 8 ^ k) ∨ writeSize = 2 ^ 64 - 1

/-- From `a` to `b` nothing is lost to an overflow: `b` is `a`, eight times `a`, or `~0`. -/
structure GrowsTo (a b : Nat) : Prop where
  le : a ≤ b
  lt : b < 2 ^ 64
  cases : b = a ∨ b = a * 8 ∨ b = 2 ^ 64 - 1

section Growing

variable {writeSize : Nat}

theorem grown_init : Grown initWriteSize := Or.inl ⟨0, Nat.zero_le _, (Nat.mul_one _).symm⟩

/-- The powers go up to 2^62. -/
theorem initWriteSize_mul_pow_le {k : Nat} (hk : k ≤ 11) : initWriteSize * 8 ^ k ≤ 2 ^ 62 :=
  Nat.mul_le_mul_left initWriteSize (Nat.pow_le_pow_right (by decide) hk)

theorem Grown.pos (h : Grown writeSize) : 0 < writeSize := by
  obtain ⟨k, -, rfl⟩ | rfl := h
  · exact Nat.mul_pos (by decide) (Nat.pow_pos (by decide))
  · decide

theorem Grown.lt (h : Grown writeSize) : writeSize < 2 ^ 64 := by
  obtain ⟨k, hk, rfl⟩ | rfl := h
  · exact Nat.lt_of_le_of_lt (initWriteSize_mul_pow_le hk) (by decide)
  · decide

/-- On these values the test for an overflow is right, and growing leads to one of them. -/
theorem Grown.grow (h : Grown writeSize) :
    Grown (growWriteSize writeSize) ∧ GrowsTo writeSize (growWriteSize writeSize) := by
  have hpos := h.pos
  obtain ⟨k, hk, rfl⟩ | rfl := h
  · by_cases hlast : k = 11
    · -- eight times 2^62 is 0
      subst hlast
      exact ⟨Or.inr rfl, by decide, by decide, Or.inr (Or.inr rfl)⟩
    · -- no smaller power overflows
      have hlt := initWriteSize_mul_pow_le (Nat.lt_of_le_of_ne hk hlast)
      have hnext : initWriteSize * 8 ^ (k + 1) = initWriteSize * 8 ^ k * 8 := by
        rw [Nat.pow_succ, Nat.mul_assoc]
      rw [hnext] at hlt
      have hgrow : growWriteSize (initWriteSize * 8 ^ k) = initWriteSize * 8 ^ k * 8 := by
        rw [growWriteSize, Nat.mod_eq_of_lt (by omega), if_neg (by omega)]
      rw [hgrow]
      refine ⟨Or.inl ⟨k + 1, Nat.lt_of_le_of_ne hk hlast, hnext.symm⟩, ?_⟩
      exact ⟨by omega, by omega, Or.inr (Or.inl rfl)⟩
  · -- eight times `~0` is smaller, so `~0` stays
    exact ⟨Or.inr rfl, Nat.le_refl _, by decide, Or.inl rfl⟩

/-- The same after any call of `write`. -/
theorem Grown.next (h : Grown writeSize) (written : Nat) :
    Grown (nextWriteSize writeSize written) ∧
      GrowsTo writeSize (nextWriteSize writeSize written) := by
  rw [nextWriteSize]
  split
  · exact h.grow
  · exact ⟨h, Nat.le_refl _, h.lt, Or.inl rfl⟩

end Growing

/-! ## Runs -/

/-- The calls on an open stream with any arguments, and stores of the caller anywhere. -/
inductive BlobCall where
  | startWrite (len : Nat)
  | store (p : Nat) (bytes : List UInt8)
  | assignWrite (buffer : Option Mem) (len : Nat)
  | endWrite (len : Nat)

/-- A call is refused where the program ends in an error exit.  The length of `end_write` is
    a `size_t`; its loop gets a turn for each byte and one more. -/
def callStep (A : Allocator) (s : BlobOstream) : BlobCall → Option BlobOstream
  | .startWrite len =>
      match camioOstreamBlobStartWrite A s len with
      | .error _ => none
      | .ok (_, s) => some s
  | .store p bytes => some { s with mem := s.mem.write p bytes }
  | .assignWrite buffer len =>
      match camioOstreamBlobAssignWrite s buffer len with
      | .error _ => none
      | .ok s => some s
  | .endWrite len => if len < 2 ^ 64 then camioOstreamBlobEndWrite s len (len + 1) else none

section Runs

variable {A : Allocator} {s s' s₀ : BlobOstream} {call : BlobCall} {calls : List BlobCall}
  {len : Nat}

/-- What every run keeps, as long as no call of `write` fails. -/
structure Growing (s : BlobOstream) : Prop where
  grown : Grown s.writeSize
  succeeds : ∀ turn ∈ s.fd.turns, turn ≠ .error

/-- `end_write` returns after as many turns as there are bytes at most, with all written. -/
theorem Growing.endWrite (h : Growing s) (hlen : len < 2 ^ 64) :
    ∃ n w, n ≤ len ∧ EndsAfter (writeTurn s.source len) n s.loopStart w ∧
      w.totalWritten = len ∧ Growing (s.afterLoop w) ∧ s.writeSize ≤ w.writeSize := by
  -- the values that `write_size` can take from here on
  let P : Nat → Prop := fun x => Grown x ∧ s.writeSize ≤ x
  have hnext : ∀ x written, P x → P (nextWriteSize x written) := by
    intro x written ⟨hx, hle⟩
    obtain ⟨hgrown, hgrows⟩ := hx.next written
    exact ⟨hgrown, Nat.le_trans hle hgrows.le⟩
  have hstart : P s.writeSize := ⟨h.grown, Nat.le_refl _⟩
  obtain ⟨n, w, hn, hend, htotal, hw⟩ :=
    (writing_start hstart s.source len).ends hlen h.succeeds (fun x hx => hx.1.pos) hnext
  exact ⟨n, w, hn, hend, htotal,
    ⟨hw.size.1, fun turn hmem => h.succeeds turn (hw.turns.subset hmem)⟩, hw.size.2⟩

/-- `open` leaves `write_size` as construction sets it. -/
theorem camioOstreamBlobOpen_writeSize {mem : Mem} {descr : CamioDescr} {block : Option Nat}
    {params file : Option WriteFd}
    (h : camioOstreamBlobOpen (camioOstreamBlobConstruct mem) descr block params file = .ok s) :
    s.writeSize = initWriteSize := by
  unfold camioOstreamBlobOpen at h
  split at h
  next => cases h
  next =>
    split at h
    next => cases h
    next =>
      split at h
      next => cases h
      next =>
        split at h
        next =>
          cases h
          rfl
        next =>
          split at h
          next => cases h
          next =>
            cases h
            rfl

theorem Growing.step (h : Growing s) (hstep : callStep A s call = some s') :
    Growing s' ∧ s.writeSize ≤ s'.writeSize := by
  cases call with
  | startWrite len =>
      simp only [callStep] at hstep
      split at hstep
      next => cases hstep
      next p t hstart =>
        cases hstep
        obtain ⟨hfd, hsize, -⟩ := camioOstreamBlobStartWrite_spec hstart
        exact ⟨⟨hsize ▸ h.grown, hfd ▸ h.succeeds⟩, Nat.le_of_eq hsize.symm⟩
  | store p bytes =>
      cases hstep
      exact ⟨⟨h.grown, h.succeeds⟩, Nat.le_refl _⟩
  | assignWrite buffer len =>
      cases buffer with
      | none => cases hstep
      | some buffer =>
          cases hstep
          exact ⟨⟨h.grown, h.succeeds⟩, Nat.le_refl _⟩
  | endWrite len =>
      rw [callStep] at hstep
      by_cases hlen : len < 2 ^ 64
      · -- the turns it is given are enough
        obtain ⟨n, w, hn, hend, -, hgrowing, hle⟩ := h.endWrite hlen
        rw [if_pos hlen, camioOstreamBlobEndWrite_of_endsAfter hend (Nat.lt_succ_of_le hn)]
          at hstep
        obtain rfl := Option.some.inj hstep
        exact ⟨hgrowing, hle⟩
      · rw [if_neg hlen] at hstep
        cases hstep

theorem Growing.run (h : Growing s) (hrun : run (callStep A) s calls = some s') :
    Growing s' ∧ s.writeSize ≤ s'.writeSize := by
  have hstep : ∀ (t : BlobOstream) (call : BlobCall) (t' : BlobOstream),
      (Growing t ∧ s.writeSize ≤ t.writeSize) → callStep A t call = some t' →
      Growing t' ∧ s.writeSize ≤ t'.writeSize := by
    intro t call t' ⟨ht, hle⟩ hcall
    obtain ⟨ht', hle'⟩ := ht.step hcall
    exact ⟨ht', Nat.le_trans hle hle'⟩
  exact run_invariant _ hstep ⟨h, Nat.le_refl _⟩ hrun

/-- In every run `write_size` never is 0 and never decreases, nothing of it is lost to an
    overflow, and every `end_write` returns after `len` turns at most, having written `len`
    bytes. -/
theorem writeSize_grows {mem : Mem} {descr : CamioDescr} {block : Option Nat}
    {params file : Option WriteFd}
    (hopen : camioOstreamBlobOpen (camioOstreamBlobConstruct mem) descr block params file = .ok s₀)
    (hok : ∀ turn ∈ s₀.fd.turns, turn ≠ .error)
    (hrun : Lib.run (callStep A) s₀ calls = some s) :
    0 < s.writeSize ∧
    (∀ more s', Lib.run (callStep A) s more = some s' → s.writeSize ≤ s'.writeSize) ∧
    ∀ len, len < 2 ^ 64 →
      (∃ n w, n ≤ len ∧ EndsAfter (writeTurn s.source len) n s.loopStart w ∧
        w.totalWritten = len ∧ camioOstreamBlobEndWrite s len (n + 1) = some (s.afterLoop w)) ∧
      ∀ k w w', Turns (writeTurn s.source len) k s.loopStart w →
        writeTurn s.source len w = some w' →
        0 < w'.writeSize ∧ GrowsTo w.writeSize w'.writeSize := by
  have hinit : Growing s₀ := ⟨camioOstreamBlobOpen_writeSize hopen ▸ grown_init, hok⟩
  have h := (hinit.run hrun).1
  refine ⟨h.grown.pos, fun more s' hmore => (h.run hmore).2, fun len hlen => ⟨?_, ?_⟩⟩
  · obtain ⟨n, w, hn, hend, htotal, -, -⟩ := h.endWrite hlen
    exact ⟨n, w, hn, hend, htotal,
      camioOstreamBlobEndWrite_of_endsAfter hend (Nat.lt_succ_self n)⟩
  · intro k w w' hturns hturn
    -- one turn: `write_size` is 0 in no state of the loop, and grows
    have hstep : ∀ v v', Writing Grown s.source len s.fd v → writeTurn s.source len v = some v' →
        Writing Grown s.source len s.fd v' ∧ GrowsTo v.writeSize v'.writeSize := by
      intro v v' hv hv'
      obtain ⟨hnext, -, written, hsize⟩ := hv.turn hlen h.succeeds (fun x hx => hx.pos)
        (fun x written hx => (hx.next written).1) hv'
      exact ⟨hnext, hsize ▸ (hv.size.next written).2⟩
    have hw : Writing Grown s.source len s.fd w :=
      hturns.invariant _ (fun v v' hv hv' => (hstep v v' hv hv').1)
        (writing_start h.grown s.source len)
    obtain ⟨hw', hgrows⟩ := hstep w w' hw hturn
    exact ⟨hw'.size.pos, hgrows⟩

end Runs

/-- Two bytes, of which the first `write` transfers one. -/
theorem writeSize_grows_two_bytes : ∃ s,
    run (callStep .inPlace) (blobInit 0 (fun _ => 0) ⟨[], [.accept 1]⟩).stream
      [.startWrite 2, .store 0 [97, 98], .endWrite 2] = some s ∧
    s.fd.received = [97, 98] ∧ 0 < s.writeSize := by
  have hopen := blobInit_eq
    { protocol := none, query := some [102], optHead := none, heap := [] } rfl rfl 0
    (fun _ => 0) ⟨[], [.accept 1]⟩
  have hok : ∀ turn ∈ [WriteTurn.accept 1], turn ≠ .error := by decide
  obtain ⟨s, hrun, hreceived⟩ : ∃ s,
      run (callStep .inPlace) (blobInit 0 (fun _ => 0) ⟨[], [.accept 1]⟩).stream
        [.startWrite 2, .store 0 [97, 98], .endWrite 2] = some s ∧
      s.fd.received = [97, 98] := ⟨_, rfl, rfl⟩
  exact ⟨s, hrun, hreceived, (writeSize_grows hopen hok hrun).1⟩

end Camio.Blob
