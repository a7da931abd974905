/-
  Camio.Log.Bounds

  When the line buffer stays within its bounds.  The search looks at the byte
  behind a terminator even if the data ends there.  If that byte is an LF, left
  over from a longer line or from `malloc`, the line is marked one byte longer
  than the data, and `start_read` wraps the count of what is left.  Nothing else
  goes wrong, so the bounds hold exactly in the runs in which no search does this.
-/

import Camio.Log.System

namespace Camio.Log

open Camio.Lib

variable {A : Allocator} {s t : LogIstream}

/-- The search of `t` does not find its terminator as the last byte of the data with an
    LF in the memory behind it. -/
def StaysInside (t : LogIstream) : Prop :=
  ∀ k, t.pending.findIdx? isTerminator = some k → k + 1 = t.lineBufferCount →
    t.mem (t.dataHeadPtr + t.lineBufferCount) ≠ lf

/-- The data lies in the buffer, a marked line lies in the data and ends where the
    data says, and the data are bytes of the file. -/
structure Bounded (file : List UInt8) (s : LogIstream) : Prop where
  head : s.lineBuffer ≤ s.dataHeadPtr
  data : s.dataHeadPtr + s.lineBufferCount ≤ s.lineBuffer + s.lineBufferSize - 1
  readSize_le : s.readSize ≤ s.lineBufferCount
  line : s.readSize ≠ 0 → lineEnd s.pending = some s.readSize
  delivered : s.rest <:+ file

/-- Within the data, the byte in memory is the byte of the data. -/
theorem pending_getElem? {k : Nat} (h : k < s.lineBufferCount) :
    s.pending[k]? = some (s.mem (s.dataHeadPtr + k)) :=
  Mem.read_getElem? _ _ _ _ h

/-- A search that stays inside marks the line by the data alone. -/
theorem StaysInside.marks (h : StaysInside t) : Marks (DataLine lineEnd) t := by
  intro k hscan
  have hlt := findIdx?_lt hscan
  rw [LogIstream.pending_length] at hlt
  by_cases hlast : k + 1 = t.lineBufferCount
  · -- the data ends with the terminator
    have hbyte : t.mem (t.dataHeadPtr + k + 1) ≠ lf := by
      have := h k hscan hlast
      rwa [← hlast, ← Nat.add_assoc] at this
    have hnone : t.pending[k + 1]? = none :=
      List.getElem?_eq_none (by rw [LogIstream.pending_length]; omega)
    rw [lineSize, if_neg hbyte, DataLine, lineEnd_of_some hscan, hnone, if_neg (by simp)]
    exact ⟨by omega, rfl⟩
  · -- the byte behind it is data as well
    have hbyte := pending_getElem? (s := t) (k := k + 1) (by omega)
    rw [← Nat.add_assoc] at hbyte
    rw [lineSize, DataLine, lineEnd_of_some hscan, hbyte]
    simp only [Option.some.injEq, and_true]
    split <;> omega

/-- A search that does not marks a line one byte longer than the data. -/
theorem lineSize_of_not_staysInside (h : ¬ StaysInside t) :
    ∃ k, t.pending.findIdx? isTerminator = some k ∧ lineSize t k = t.lineBufferCount + 1 := by
  simp only [StaysInside, not_forall, not_not] at h
  obtain ⟨k, hscan, hlast, hbyte⟩ := h
  refine ⟨k, hscan, ?_⟩
  rw [← hlast, ← Nat.add_assoc] at hbyte
  rw [lineSize, if_pos hbyte]
  omega

/-- The marking by the data alone, with the file's bytes left in order. -/
abbrev BoundedInv (file : List UInt8) : Session → Prop :=
  Inv (DataLine lineEnd) (fun _ rest => rest <:+ file)

theorem extends_suffix {M : Marking} (file : List UInt8) :
    Extends M (fun _ rest => rest <:+ file) :=
  fun _ _ _ n h _ _ _ => (List.drop_suffix n _).trans h

theorem BoundedInv.bounded {file : List UInt8} {σ : Session} (h : BoundedInv file σ) :
    Bounded file σ.stream where
  head := h.sound.head
  data := by
    have := h.sound.data
    omega
  readSize_le := h.sound.readSize_le
  line := fun hread => (h.sound.marked hread).2
  delivered := h.lines

/-- A marked line that is longer than the data breaks the bounds, handed out or not. -/
theorem not_bounded_of_long (file : List UInt8) (h : Fits s)
    (hlong : s.readSize = s.lineBufferCount + 1) :
    ¬ Bounded file s ∧ ¬ Bounded file (handOut s).2 := by
  have hhead := h.head
  have hdata := h.data
  have hlt := h.size_lt
  constructor
  · intro hb
    have := hb.readSize_le
    omega
  · -- one byte more than there is was taken off: the count wraps around
    intro hb
    have hdata' := hb.data
    have hwrap : sizeSub s.lineBufferCount s.readSize = 2 ^ 64 - 1 := by
      rw [sizeSub, hlong]
      omega
    simp only [handOut, hwrap] at hdata'
    omega

/-- A step with a search that does not stay inside breaks the bounds. -/
theorem not_bounded_of_not_staysInside {file : List UInt8} {σ σ' : Session} {e : Event}
    (h : BoundedInv file σ) (hP : ¬ AtSearches A StaysInside σ e)
    (hstep : step A σ e = some σ') : ¬ Bounded file σ'.stream := by
  simp only [AtSearches, not_forall] at hP
  obtain ⟨t, hsearched, hinside⟩ := hP
  obtain ⟨k, hscan, hlong⟩ := lineSize_of_not_staysInside hinside
  have hfits : Fits (mark t k) := { (hsearched.looking h.sound).1 with }
  obtain ⟨hmarked, hhanded⟩ := not_bounded_of_long file hfits hlong
  rcases step_of_searched h.sound hsearched hscan hstep with rfl | rfl
  · exact hmarked
  · exact hhanded

/-- The bounds hold in every state of a run exactly if every search of the run stays
    inside the data. -/
theorem bounded_iff_staysInside {p : Nat} {mem : Mem} {fd : ReadFd} {es : List Event}
    {τ : Session} (hrun : run (step A) (init p mem fd) es = some τ) :
    (∀ k σ, run (step A) (init p mem fd) (es.take k) = some σ → Bounded fd.stream σ.stream) ↔
      Along (step A) (AtSearches A StaysInside) (init p mem fd) es := by
  -- steps that stay inside keep the invariant; the first that does not breaks the bounds
  refine forall_prefix_iff_along (BoundedInv fd.stream) (fun _ h => h.bounded)
    (fun σ e σ' h hP hstep => ?_) (fun σ e σ' h hP hstep => ?_)
    (inv_init p mem fd List.suffix_rfl) hrun
  · exact h.step (extends_suffix fd.stream) (fun t ht => (hP t ht).marks) hstep
  · exact not_bounded_of_not_staysInside h hP hstep

theorem bounded_iff_staysInside_zeroed :
    ∃ τ, run (step .inPlace) (init 64 (fun _ => 0) ⟨[97, 10], []⟩) [.ready] = some τ ∧
      ((∀ k σ, run (step .inPlace) (init 64 (fun _ => 0) ⟨[97, 10], []⟩) ([.ready].take k)
          = some σ → Bounded [97, 10] σ.stream) ↔
        Along (step .inPlace) (AtSearches .inPlace StaysInside)
          (init 64 (fun _ => 0) ⟨[97, 10], []⟩) [.ready]) :=
  ⟨_, rfl, bounded_iff_staysInside rfl⟩

/-- A byte of the fresh buffer that happens to be an LF makes a line of two bytes three
    bytes long. -/
theorem bounded_fails_stale :
    ¬ ∀ A p mem fd es σ, run (step A) (init p mem fd) es = some σ →
      Bounded fd.stream σ.stream := by
  intro hall
  -- three bytes marked, two in the buffer
  have hstale : (run (step .inPlace) (init 64 (fun _ => 10) ⟨[97, 10], []⟩) [.ready]).map
      (fun σ => (σ.stream.readSize, σ.stream.lineBufferCount)) = some (3, 2) := rfl
  obtain ⟨σ, hrun, hσ⟩ := Option.map_eq_some_iff.mp hstale
  have hle := (hall _ _ _ _ _ σ hrun).readSize_le
  rw [Prod.mk.injEq] at hσ
  omega

end Camio.Log
