/-
  Camio.Log.Lossless

  What a log istream gives of a regular file.

  At the end of the file `read_to_buff` closes the stream, whatever is still in the buffer:
  a last line without a terminator is lost.  A CR LF counts as one terminator of two bytes,
  but only one of them is taken off the line; if the LF has not been read yet it becomes a
  line of its own.  Everything else depends on the byte behind each terminator.
-/

import Camio.Log.Roundtrip
import Camio.Log.Text

namespace Camio.Log

open Camio.Lib

variable {A : Allocator} {p : Nat} {mem : Mem} {file : List UInt8} {es : List Event} {σ : Session}

/-- The lines of the file have been handed out, and nothing of it is left. -/
structure ReadsAll (file : List UInt8) (σ : Session) : Prop where
  lines : σ.lines = textLines file
  rest : σ.stream.rest = []

/-- Where every search takes one terminator, reading splits the file at each of them. -/
theorem split_plain_of_run
    (hsingle : Along (step A) (AtSearches A SingleTerminator) (init p mem ⟨file, []⟩) es)
    (hrun : run (step A) (init p mem ⟨file, []⟩) es = some σ)
    (hclosed : σ.stream.isClosed = true) :
    Split plainEnd file σ.lines σ.stream.rest ∧ plainEnd σ.stream.rest = none := by
  have hinv := inv_of_run (extends_split_plain file) (Split.nil file)
    (hsingle.mono fun _ _ hP t ht => (hP t ht).marks) hrun
  exact ⟨hinv.lines, plainEnd_eq_none_iff.mpr (hinv.closed hclosed)⟩

/-- A run that hands out lines without terminators has taken one terminator at a time. -/
theorem along_singleTerminator (hrun : run (step A) (init p mem ⟨file, []⟩) es = some σ)
    (hclosed : σ.stream.isClosed = true)
    (hlines : ∀ line ∈ σ.lines, ∀ b ∈ line, isTerminator b = false) :
    Along (step A) (AtSearches A SingleTerminator) (init p mem ⟨file, []⟩) es := by
  have hinit : Inv (RestLine plainEnd) (Split plainEnd file) (init p mem ⟨file, []⟩) :=
    inv_init p mem ⟨file, []⟩ (Split.nil file)
  refine along_of_unmarked (Inv (RestLine plainEnd) (Split plainEnd file)) Spoiled
    (fun s e s' h hP hstep => h.step (extends_split_plain file) (fun t ht => (hP t ht).marks) hstep)
    (fun s e s' h hP hstep => spoiled_of_not_singleTerminator h.sound hP hstep)
    (fun s e s' h hstep => h.step hstep) hinit hrun ?_
  rintro (⟨line, hmem, b, hb, hterm⟩ | ⟨hopen, -⟩)
  · exact absurd ((hlines line hmem b hb).symm.trans hterm) (by decide)
  · exact absurd (hopen.symm.trans hclosed) Bool.false_ne_true

theorem textLines_clean {line : List UInt8} (h : line ∈ textLines file) :
    ∀ b ∈ line, isTerminator b = false := by
  obtain ⟨s, hs, rfl⟩ := List.mem_map.mp h
  exact textSpans_text hs

/-- Reading a regular file until the stream closes gives its lines, and leaves nothing of
    it, exactly if the file is terminated, holds no CR LF, and every search takes a single
    terminator.  In runs of such searches it closes after as many calls of `start_read` as
    there are bytes, and one. -/
theorem reading_lossless_iff (hrun : run (step A) (init p mem ⟨file, []⟩) es = some σ) :
    (σ.stream.isClosed = true →
      (ReadsAll file σ ↔ Terminated file ∧ NoCrLf file ∧
        Along (step A) (AtSearches A SingleTerminator) (init p mem ⟨file, []⟩) es)) ∧
    (Along (step A) (AtSearches A SingleTerminator) (init p mem ⟨file, []⟩) es →
      file.length < es.count .startRead → σ.stream.isClosed = true) ∧
    (textSpans file).flatMap (fun s => s.1 ++ s.2) = file := by
  refine ⟨fun hclosed => ⟨fun h => ?_, fun h => ?_⟩, fun hsingle hcount => ?_,
    textSpans_cover file⟩
  · have hsingle := along_singleTerminator hrun hclosed fun line hline => by
      rw [h.lines] at hline
      exact textLines_clean hline
    obtain ⟨hsplit, hend⟩ := split_plain_of_run hsingle hrun hclosed
    obtain ⟨hterm, hcrlf⟩ := (eq_textLines_iff hsplit hend).mp h.lines
    exact ⟨hterm, hcrlf, hsingle⟩
  · obtain ⟨hterm, hcrlf, hsingle⟩ := h
    obtain ⟨hsplit, hend⟩ := split_plain_of_run hsingle hrun hclosed
    have hlines := (eq_textLines_iff hsplit hend).mpr ⟨hterm, hcrlf⟩
    exact ⟨hlines, (rest_eq_nil_iff hsplit hend).mpr hterm⟩
  · -- every call hands out a line, of a byte at least, or closes the stream
    have hmarks := hsingle.mono fun _ _ hP t ht => (hP t ht).marks
    have hinit : Inv (RestLine plainEnd) (Split plainEnd file) (init p mem ⟨file, []⟩) :=
      inv_init p mem ⟨file, []⟩ (Split.nil file)
    have hinv := inv_of_run (extends_split_plain file) (Split.nil file) hmarks hrun
    have hle := hinv.lines.length_le_bytes
    rcases hinit.lines_of_run (extends_split_plain file) hmarks hrun with hclosed | hge
    · exact hclosed
    · rw [init, List.length_nil] at hge
      omega

theorem reading_lossless_two :
    ∃ σ, run (step .inPlace) (init 64 (fun _ => 0) ⟨[97, 10, 98, 13], []⟩)
        [.startRead, .startRead, .startRead] = some σ ∧ σ.stream.isClosed = true ∧
      (ReadsAll [97, 10, 98, 13] σ ↔ Terminated [97, 10, 98, 13] ∧ NoCrLf [97, 10, 98, 13] ∧
        Along (step .inPlace) (AtSearches .inPlace SingleTerminator)
          (init 64 (fun _ => 0) ⟨[97, 10, 98, 13], []⟩) [.startRead, .startRead, .startRead]) ∧
      ReadsAll [97, 10, 98, 13] σ := by
  have hread : (run (step .inPlace) (init 64 (fun _ => 0) ⟨[97, 10, 98, 13], []⟩)
      [.startRead, .startRead, .startRead]).map
        (fun σ => (σ.stream.isClosed, σ.lines, σ.stream.rest))
      = some (true, [[97], [98]], []) := rfl
  obtain ⟨σ, hrun, hσ⟩ := Option.map_eq_some_iff.mp hread
  rw [Prod.mk.injEq, Prod.mk.injEq] at hσ
  exact ⟨σ, hrun, hσ.1, (reading_lossless_iff hrun).1 hσ.1, hσ.2.1, hσ.2.2⟩

/-- Of a file that does not end with a terminator the last line is lost. -/
theorem reading_lossless_fails :
    ¬ ∀ (A : Allocator) (p : Nat) (mem : Mem) (file : List UInt8) (es : List Event) (σ : Session),
      run (step A) (init p mem ⟨file, []⟩) es = some σ → σ.stream.isClosed = true →
      ReadsAll file σ := by
  intro hall
  have hread : (run (step .inPlace) (init 64 (fun _ => 0) ⟨[97], []⟩) [.startRead]).map
      (fun σ => (σ.stream.isClosed, σ.lines)) = some (true, []) := rfl
  obtain ⟨σ, hrun, hσ⟩ := Option.map_eq_some_iff.mp hread
  rw [Prod.mk.injEq] at hσ
  have hlines := (hall .inPlace 64 (fun _ => 0) [97] _ σ hrun hσ.1).lines
  rw [hσ.2] at hlines
  cases hlines

end Camio.Log
