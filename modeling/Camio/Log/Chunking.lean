/-
  Camio.Log.Chunking

  When the lines do not depend on how the file is delivered.  What decides is the
  byte behind a terminator that ends the data: the search looks at what happens to
  be in memory there, not at the byte that comes next.  As long as neither of the
  two is an LF, every delivery gives the lines that `lineEnd` splits the file into.
-/

import Camio.Log.System

namespace Camio.Log

open Camio.Lib

variable {A : Allocator} {s t : LogIstream}

/-- If the search of `t` finds its terminator as the last byte of the data, no LF lies
    behind it in memory and no LF comes next in the file. -/
def TerminatorComplete (t : LogIstream) : Prop :=
  ∀ k, t.pending.findIdx? isTerminator = some k → k + 1 = t.lineBufferCount →
    t.mem (t.dataHeadPtr + t.lineBufferCount) ≠ lf ∧ t.fd.stream.head? ≠ some lf

/-- Such a search marks the line that `lineEnd` finds in all bytes that are left. -/
theorem TerminatorComplete.marks (h : TerminatorComplete t) : Marks (RestLine lineEnd) t := by
  intro k hscan
  have hlt := findIdx?_lt hscan
  rw [LogIstream.pending_length] at hlt
  rw [RestLine, lineEnd_of_some (findIdx?_append_of_some hscan), lineSize]
  by_cases hlast : k + 1 = t.lineBufferCount
  · -- neither the byte in memory nor the next of the file belongs to the terminator
    obtain ⟨hbyte, hnext⟩ := h k hscan hlast
    rw [← hlast, ← Nat.add_assoc] at hbyte
    rw [← List.head?_drop, List.drop_left' (t.pending_length.trans hlast.symm), if_neg hbyte,
      if_neg hnext]
    exact ⟨by omega, rfl⟩
  · -- the byte behind it is in the buffer already
    have hbyte : t.pending[k + 1]? = some (t.mem (t.dataHeadPtr + k + 1)) :=
      Mem.read_getElem? _ _ _ _ (by omega)
    rw [List.getElem?_append_left (by rw [LogIstream.pending_length]; omega), hbyte]
    simp only [Option.some.injEq, and_true]
    split <;> omega

theorem extends_split (e : LineEnd) (file : List UInt8) : Extends (RestLine e) (Split e file) :=
  fun _ _ _ _ hsplit hline _ _ => hsplit.snoc hline

/-- The lines of a run to the close of the stream are those of the file. -/
theorem split_of_run {p : Nat} {mem : Mem} {fd : ReadFd} {es : List Event} {σ : Session}
    (hsearch : Along (step A) (AtSearches A TerminatorComplete) (init p mem fd) es)
    (hrun : run (step A) (init p mem fd) es = some σ) (hclosed : σ.stream.isClosed = true) :
    Split lineEnd fd.stream σ.lines σ.stream.rest ∧ lineEnd σ.stream.rest = none := by
  have h := inv_of_run (extends_split lineEnd fd.stream) (Split.nil fd.stream)
    (hsearch.mono fun _ _ hP t ht => (hP t ht).marks) hrun
  exact ⟨h.lines, lineEnd_eq_none_iff.mpr (h.closed hclosed)⟩

/-- Two runs over one file give the same lines, however it is delivered and whatever the
    buffers hold. -/
theorem lines_eq_of_terminatorComplete {A₁ A₂ : Allocator} {p₁ p₂ : Nat} {mem₁ mem₂ : Mem}
    {fd₁ fd₂ : ReadFd} {es₁ es₂ : List Event} {σ₁ σ₂ : Session}
    (hfile : fd₁.stream = fd₂.stream)
    (hrun₁ : run (step A₁) (init p₁ mem₁ fd₁) es₁ = some σ₁)
    (hrun₂ : run (step A₂) (init p₂ mem₂ fd₂) es₂ = some σ₂)
    (hclosed₁ : σ₁.stream.isClosed = true) (hclosed₂ : σ₂.stream.isClosed = true)
    (hsearch₁ : Along (step A₁) (AtSearches A₁ TerminatorComplete) (init p₁ mem₁ fd₁) es₁)
    (hsearch₂ : Along (step A₂) (AtSearches A₂ TerminatorComplete) (init p₂ mem₂ fd₂) es₂) :
    σ₁.lines = σ₂.lines := by
  -- both split the same file, completely
  obtain ⟨hsplit₁, hend₁⟩ := split_of_run hsearch₁ hrun₁ hclosed₁
  obtain ⟨hsplit₂, hend₂⟩ := split_of_run hsearch₂ hrun₂ hclosed₂
  rw [hfile] at hsplit₁
  exact (hsplit₁.unique hend₁ hsplit₂ hend₂).1

/-! ### One line, in one piece and in two -/

/-- A buffer at 64 that was all zero, with data from its front on. -/
def buffered (mem : Mem) (count : Nat) (fd : ReadFd) : LogIstream :=
  { opened 64 mem fd with lineBufferCount := count }

abbrev zeroed : Mem := fun _ => 0

theorem along_whole : Along (step .inPlace) (AtSearches .inPlace TerminatorComplete)
    (init 64 zeroed ⟨[97, 10], []⟩) [.startRead, .startRead] := by
  refine ⟨fun t ht => ?_, fun σ hσ => ⟨fun t ht => ?_, fun _ _ => trivial⟩⟩
  · have hread : readToBuff (opened 64 zeroed ⟨[97, 10], []⟩) 64 true
        = .ok (2, buffered (zeroed.write 64 [97, 10]) 2 ⟨[], []⟩) := rfl
    have hturn : prepareTurn .inPlace true (buffered (zeroed.write 64 [97, 10]) 2 ⟨[], []⟩)
        = .ok (.found 2 (mark (buffered (zeroed.write 64 [97, 10]) 2 ⟨[], []⟩) 1)) := rfl
    rw [(ht.2.2.visits rfl hread).2.eq_of_found hturn]
    exact fun _ _ _ => ⟨by decide, by decide⟩
  · -- the second call finds the end of the file and searches nothing
    have hstep : step .inPlace (init 64 zeroed ⟨[97, 10], []⟩) .startRead = some
        { stream := { buffered (zeroed.write 64 [97, 10]) 0 ⟨[], []⟩ with dataHeadPtr := 66 }
          lines := [[97]] } := rfl
    obtain rfl := Option.some.inj (hstep.symm.trans hσ)
    have hread : readToBuff (buffered (zeroed.write 64 [97, 10]) 0 ⟨[], []⟩) 64 true
        = .ok (0, camioIstreamLogClose (buffered (zeroed.write 64 [97, 10]) 0 ⟨[], []⟩)) := rfl
    exact absurd rfl (ht.2.2.visits rfl hread).1

theorem along_cut : Along (step .inPlace) (AtSearches .inPlace TerminatorComplete)
    (init 64 zeroed ⟨[97, 10], [.give 1]⟩) [.startRead, .startRead] := by
  refine ⟨fun t ht => ?_, fun σ hσ => ⟨fun t ht => ?_, fun _ _ => trivial⟩⟩
  · -- the line is found by the second search, with both of its bytes in the buffer
    have hread : readToBuff (opened 64 zeroed ⟨[97, 10], [.give 1]⟩) 64 true
        = .ok (1, buffered (zeroed.write 64 [97]) 1 ⟨[10], []⟩) := rfl
    have hagain : prepareTurn .inPlace true (buffered (zeroed.write 64 [97]) 1 ⟨[10], []⟩)
        = .ok (.again (buffered ((zeroed.write 64 [97]).write 65 [10]) 2 ⟨[], []⟩)) := rfl
    have hturn : prepareTurn .inPlace true
        (buffered ((zeroed.write 64 [97]).write 65 [10]) 2 ⟨[], []⟩) = .ok (.found 2
          (mark (buffered ((zeroed.write 64 [97]).write 65 [10]) 2 ⟨[], []⟩) 1)) := rfl
    rcases (ht.2.2.visits rfl hread).2.of_again hagain with rfl | hvisits
    · exact fun k hscan => nomatch (show none = some k from hscan)
    · rw [hvisits.eq_of_found hturn]
      exact fun _ _ _ => ⟨by decide, by decide⟩
  · have hstep : step .inPlace (init 64 zeroed ⟨[97, 10], [.give 1]⟩) .startRead = some
        { stream := { buffered ((zeroed.write 64 [97]).write 65 [10]) 0 ⟨[], []⟩ with
            dataHeadPtr := 66 }
          lines := [[97]] } := rfl
    obtain rfl := Option.some.inj (hstep.symm.trans hσ)
    have hread : readToBuff (buffered ((zeroed.write 64 [97]).write 65 [10]) 0 ⟨[], []⟩) 64 true
        = .ok (0, camioIstreamLogClose
          (buffered ((zeroed.write 64 [97]).write 65 [10]) 0 ⟨[], []⟩)) := rfl
    exact absurd rfl (ht.2.2.visits rfl hread).1

theorem lines_eq_of_terminatorComplete_cut :
    ∃ σ₁ σ₂, run (step .inPlace) (init 64 zeroed ⟨[97, 10], []⟩) [.startRead, .startRead]
        = some σ₁ ∧
      run (step .inPlace) (init 64 zeroed ⟨[97, 10], [.give 1]⟩) [.startRead, .startRead]
        = some σ₂ ∧
      σ₁.lines = [[97]] ∧ σ₁.lines = σ₂.lines := by
  refine ⟨_, _, rfl, rfl, rfl, lines_eq_of_terminatorComplete ?_ ?_ ?_ ?_ ?_
    along_whole along_cut⟩ <;> rfl

/-- An empty line right behind a line is part of its terminator in one delivery and a
    line of its own in another. -/
theorem lines_eq_fails_straddling :
    ¬ ∀ A p mem fd₁ fd₂ es₁ es₂ σ₁ σ₂, fd₁.stream = fd₂.stream →
      run (step A) (init p mem fd₁) es₁ = some σ₁ →
      run (step A) (init p mem fd₂) es₂ = some σ₂ →
      σ₁.stream.isClosed = true → σ₂.stream.isClosed = true → σ₁.lines = σ₂.lines := by
  intro hall
  -- `ab\n\n` in one piece, and cut between the two terminators
  have hwhole : (run (step .inPlace) (init 64 zeroed ⟨[97, 98, 10, 10], []⟩)
      [.startRead, .startRead]).map (fun σ => (σ.stream.isClosed, σ.lines))
      = some (true, [[97, 98, 10]]) := rfl
  have hcut : (run (step .inPlace) (init 64 zeroed ⟨[97, 98, 10, 10], [.give 3]⟩)
      [.startRead, .startRead, .startRead]).map (fun σ => (σ.stream.isClosed, σ.lines))
      = some (true, [[97, 98], []]) := rfl
  obtain ⟨σ₁, hrun₁, hσ₁⟩ := Option.map_eq_some_iff.mp hwhole
  obtain ⟨σ₂, hrun₂, hσ₂⟩ := Option.map_eq_some_iff.mp hcut
  rw [Prod.mk.injEq] at hσ₁ hσ₂
  have hlines := hall .inPlace 64 zeroed ⟨[97, 98, 10, 10], []⟩
    ⟨[97, 98, 10, 10], [.give 3]⟩ _ _ σ₁ σ₂ rfl hrun₁ hrun₂ hσ₁.1 hσ₂.1
  rw [hσ₁.2, hσ₂.2] at hlines
  exact absurd hlines (by decide)

end Camio.Log
