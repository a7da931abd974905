/-
  Camio.Log.Roundtrip

  What was written through a log ostream and is read through a log istream.  The
  writer ends every message with one LF, so the reader has to take every terminator
  for one.  It does unless a search finds an LF right behind its terminator, be it
  the one of an empty message or a byte that was left in the buffer.  Such a search
  puts the terminator into the line, and the messages, which hold none, do not come
  back.
-/

import Camio.Log.Framing
import Camio.Log.System

namespace Camio.Log

open Camio.Lib

variable {A : Allocator} {s t : LogIstream} {σ σ' : Session}

/-- The messages are free of terminators. -/
def Clean (messages : List (List UInt8)) : Prop :=
  ∀ m ∈ messages, ∀ b ∈ m, isTerminator b = false

/-- If the search of `t` finds a terminator, the byte behind it in the buffer is not an
    LF. -/
def SingleTerminator (t : LogIstream) : Prop :=
  ∀ k, t.pending.findIdx? isTerminator = some k → t.mem (t.dataHeadPtr + k + 1) ≠ lf

/-! ## Where every search takes one terminator -/

/-- Such a search marks the line that ends with its terminator. -/
theorem SingleTerminator.marks (h : SingleTerminator t) : Marks (RestLine plainEnd) t := by
  intro k hscan
  have hlt := findIdx?_lt hscan
  rw [LogIstream.pending_length] at hlt
  rw [lineSize, if_neg (h k hscan)]
  exact ⟨hlt, plainEnd_of_some (findIdx?_append_of_some hscan)⟩

/-- A message in front of its newline is the first line. -/
theorem plainEnd_message {m : List UInt8} (hm : ∀ b ∈ m, isTerminator b = false)
    (bytes : List UInt8) : plainEnd (m ++ [lf] ++ bytes) = some (m.length + 1) := by
  apply plainEnd_of_some
  have hnone : m.findIdx? isTerminator = none := List.findIdx?_eq_none_iff.mpr hm
  have hlf : ([lf] ++ bytes).findIdx? isTerminator = some 0 := by
    rw [List.singleton_append, List.findIdx?_cons]
    rfl
  rw [List.append_assoc, List.findIdx?_append, hnone, hlf, Option.map_some, Nat.zero_add]
  rfl

/-- Clean messages are the lines of the file they are written to. -/
theorem split_framed {messages : List (List UInt8)} (h : Clean messages) :
    Split plainEnd (framed messages) messages [] := by
  induction messages with
  | nil => exact Split.nil []
  | cons m messages ih =>
      have hline := plainEnd_message (h m List.mem_cons_self) (framed messages)
      have hlen : (m ++ [lf]).length = m.length + 1 := List.length_append
      have hrest := ih fun m' hm' => h m' (List.mem_cons_of_mem m hm')
      have hdrop : (m ++ [lf] ++ framed messages).drop (m.length + 1) = framed messages :=
        List.drop_left' hlen
      have htake : (m ++ [lf] ++ framed messages).take (m.length + 1 - 1) = m := by
        rw [Nat.add_sub_cancel, List.append_assoc, List.take_left' rfl]
      have hsplit := Split.cons hline (hdrop.symm ▸ hrest)
      rw [htake] at hsplit
      exact hsplit

theorem extends_split_plain (file : List UInt8) :
    Extends (RestLine plainEnd) (Split plainEnd file) :=
  fun _ _ _ _ hsplit hline _ _ => hsplit.snoc hline

/-! ## Where one does not -/

/-- The bytes of the marked line. -/
def markedLine (s : LogIstream) : List UInt8 :=
  (handOut s).2.mem.read (handOut s).1.1 (handOut s).1.2

/-- A terminator has got into a line, which was handed out or still will be. -/
def Spoiled (σ : Session) : Prop :=
  (∃ line ∈ σ.lines, ∃ b ∈ line, isTerminator b = true) ∨
    (σ.stream.isClosed = false ∧ σ.stream.readSize ≠ 0 ∧
      ∃ b ∈ markedLine σ.stream, isTerminator b = true)

/-- The line that such a search marks has its terminator in it. -/
theorem markedLine_of_not_singleTerminator (ht : Looking t) (h : ¬ SingleTerminator t) :
    ∃ k, t.pending.findIdx? isTerminator = some k ∧
      ∃ b ∈ markedLine (mark t k), isTerminator b = true := by
  simp only [SingleTerminator, not_forall, not_not] at h
  obtain ⟨k, hscan, hbehind⟩ := h
  have hlt := findIdx?_lt hscan
  rw [LogIstream.pending_length] at hlt
  have hdata := ht.data
  have hhead := ht.head
  have hsize_lt := ht.size_lt
  have hsize : sizeSub (k + 2) 1 = k + 1 := sizeSub_of_le (by omega) (by omega)
  -- the size counts both bytes as the terminator, and one is taken off it
  have hline : markedLine (mark t k) = t.mem.read t.dataHeadPtr (k + 1) := by
    simp only [markedLine, handOut, mark, lineSize, if_pos hbehind, hsize]
  obtain ⟨hk, hterm, -⟩ := List.findIdx?_eq_some_iff_getElem.mp hscan
  refine ⟨k, hscan, t.pending[k], ?_, hterm⟩
  have hget : (t.mem.read t.dataHeadPtr (k + 1))[k]? = some t.pending[k] := by
    rw [Mem.read_getElem? _ _ _ _ (Nat.lt_succ_self k)]
    simp only [LogIstream.pending, Mem.read_getElem]
  rw [hline]
  exact List.mem_of_getElem? hget

/-- A step with a search that takes two terminators for one spoils a line. -/
theorem spoiled_of_not_singleTerminator {M : Marking} {e : Event} (h : Sound M σ.stream)
    (hP : ¬ AtSearches A SingleTerminator σ e) (hstep : step A σ e = some σ') : Spoiled σ' := by
  simp only [AtSearches, not_forall] at hP
  obtain ⟨t, hsearched, hbad⟩ := hP
  have ht := (hsearched.looking h).1
  obtain ⟨k, hscan, b, hmem, hterm⟩ := markedLine_of_not_singleTerminator ht hbad
  rcases step_of_searched h hsearched hscan hstep with rfl | rfl
  · exact Or.inr ⟨ht.isOpen, lineSize_ne_zero t k, b, hmem, hterm⟩
  · exact Or.inl ⟨_, List.mem_append_right _ List.mem_cons_self, b, hmem, hterm⟩

/-- No later step mends it: the marked line is the next one handed out. -/
theorem Spoiled.step {e : Event} (h : Spoiled σ) (hstep : step A σ e = some σ') :
    Spoiled σ' := by
  rcases h with ⟨line, hmem, hline⟩ | ⟨hopen, hread, hline⟩
  -- handed out already, or still marked
  · exact Or.inl ⟨line, (step_lines hstep).subset hmem, hline⟩
  · cases e with
    | ready =>
        rcases step_ready hstep with ⟨-, rfl⟩ | ⟨-, hzero, -⟩
        · exact Or.inr ⟨hopen, hread, hline⟩
        · exact absurd hzero hread
    | startRead =>
        rcases step_startRead hstep with ⟨hclosed, -⟩ | ⟨-, -, rfl⟩ | ⟨-, hzero, -⟩
        · exact absurd (hopen.symm.trans hclosed) Bool.false_ne_true
        · exact Or.inl ⟨_, List.mem_append_right _ List.mem_cons_self, hline⟩
        · exact absurd hzero hread
    | endRead =>
        obtain rfl := Option.some.inj hstep
        exact Or.inr ⟨hopen, hread, hline⟩

/-! ## The round trip -/

/-- What is written comes back exactly if every search of the reading run takes a single
    terminator; and then reading gets to the end, with one `start_read` more than there
    are messages. -/
theorem roundtrip_iff_singleTerminator {A B : Allocator} {q p : Nat} {mem mem' : Mem}
    {ws : List WriteEvent} {es : List Event} {ω : WriteSession} {σ : Session}
    (hwrite : run (writeStep A) (writeInit q mem ⟨[], []⟩) ws = some ω)
    (hclean : Clean ω.committed) (fd : ReadFd) (hfile : fd.stream = ω.stream.fd.received)
    (hrun : run (step B) (init p mem' fd) es = some σ) :
    (σ.stream.isClosed = true →
      (σ.lines = ω.committed ↔
        Along (step B) (AtSearches B SingleTerminator) (init p mem' fd) es)) ∧
    (Along (step B) (AtSearches B SingleTerminator) (init p mem' fd) es →
      ω.committed.length < es.count .startRead → σ.stream.isClosed = true) := by
  have hframed : fd.stream = framed ω.committed := hfile.trans (received_of_run hwrite)
  have hsplit := split_framed hclean
  have hinit : Inv (RestLine plainEnd) (Split plainEnd fd.stream) (init p mem' fd) :=
    inv_init p mem' fd (Split.nil fd.stream)
  have hkeep := fun s e s' (h : Inv (RestLine plainEnd) (Split plainEnd fd.stream) s)
      (hP : AtSearches B SingleTerminator s e) (hstep : step B s e = some s') =>
    h.step (extends_split_plain fd.stream) (fun t ht => (hP t ht).marks) hstep
  refine ⟨fun hclosed => ⟨fun hlines => ?_, fun hP => ?_⟩, fun hP hcount => ?_⟩
  · -- the messages hold no terminator, so no line was spoiled on the way
    refine along_of_unmarked _ Spoiled hkeep
      (fun s e s' h hP hstep => spoiled_of_not_singleTerminator h.sound hP hstep)
      (fun s e s' h hstep => h.step hstep) hinit hrun ?_
    rintro (⟨line, hmem, b, hb, hterm⟩ | ⟨hopen, -⟩)
    · rw [hlines] at hmem
      exact absurd ((hclean line hmem b hb).symm.trans hterm) (by decide)
    · exact absurd (hopen.symm.trans hclosed) Bool.false_ne_true
  · -- both the lines and the messages split the file to its end
    have h := run_invariant_along _ hkeep hinit hP hrun
    have hlines := h.lines
    rw [hframed] at hlines
    exact (hlines.unique (plainEnd_eq_none_iff.mpr (h.closed hclosed)) hsplit rfl).1
  · -- every `start_read` hands out a message or closes the stream
    have h := run_invariant_along _ hkeep hinit hP hrun
    have hlines := h.lines
    rw [hframed] at hlines
    have hle := hlines.length_le hsplit rfl
    rcases hinit.lines_of_run (extends_split_plain fd.stream)
        (hP.mono fun _ _ hP t ht => (hP t ht).marks) hrun with hclosed | hge
    · exact hclosed
    · rw [init, List.length_nil] at hge
      omega

theorem roundtrip_iff_singleTerminator_two :
    ∃ ω σ, run (writeStep .inPlace) (writeInit 64 (fun _ => 0) ⟨[], []⟩)
        (putMessage [97] ++ putMessage [98, 99]) = some ω ∧
      run (step .inPlace) (init 64 (fun _ => 0) ⟨[97, 10, 98, 99, 10], [.give 3]⟩)
        [.ready, .startRead, .endRead, .startRead, .startRead] = some σ ∧
      ω.committed = [[97], [98, 99]] ∧ σ.stream.isClosed = true ∧ σ.lines = ω.committed ∧
      Along (step .inPlace) (AtSearches .inPlace SingleTerminator)
        (init 64 (fun _ => 0) ⟨[97, 10, 98, 99, 10], [.give 3]⟩)
        [.ready, .startRead, .endRead, .startRead, .startRead] := by
  have hput : (run (writeStep .inPlace) (writeInit 64 (fun _ => 0) ⟨[], []⟩)
      (putMessage [97] ++ putMessage [98, 99])).map (fun ω => (ω.committed, ω.stream.fd.received))
      = some ([[97], [98, 99]], [97, 10, 98, 99, 10]) := rfl
  have hread : (run (step .inPlace) (init 64 (fun _ => 0) ⟨[97, 10, 98, 99, 10], [.give 3]⟩)
      [.ready, .startRead, .endRead, .startRead, .startRead]).map
        (fun σ => (σ.stream.isClosed, σ.lines)) = some (true, [[97], [98, 99]]) := rfl
  obtain ⟨ω, hwrite, hω⟩ := Option.map_eq_some_iff.mp hput
  obtain ⟨σ, hrun, hσ⟩ := Option.map_eq_some_iff.mp hread
  rw [Prod.mk.injEq] at hω hσ
  have hlines : σ.lines = ω.committed := hσ.2.trans hω.1.symm
  have hclean : Clean ω.committed := by
    rw [hω.1]
    simp [Clean, isTerminator, lf, cr]
  exact ⟨ω, σ, hwrite, hrun, hω.1, hσ.1, hlines,
    ((roundtrip_iff_singleTerminator hwrite hclean _ hω.2.symm hrun).1 hσ.1).mp hlines⟩

/-- An empty message behind another one becomes part of its terminator. -/
theorem roundtrip_fails_empty_message :
    ¬ ∀ A B q p mem mem' ws es ω σ, run (writeStep A) (writeInit q mem ⟨[], []⟩) ws = some ω →
      Clean ω.committed → ∀ fd, fd.stream = ω.stream.fd.received →
      run (step B) (init p mem' fd) es = some σ → σ.stream.isClosed = true →
      σ.lines = ω.committed := by
  intro hall
  -- any run that writes "a" and "" leaves the same three bytes
  have hclean : Clean [[97], []] := by simp [Clean, isTerminator, lf, cr]
  obtain ⟨ω, hwrite, hcommitted⟩ := run_putMessages [[97], []] (by simp) rfl
    (framed_init 64 (fun _ => 0))
  have hreceived := received_of_run hwrite
  rw [show (writeInit 64 (fun _ => 0) ⟨[], []⟩).committed = [] from rfl, List.nil_append]
    at hcommitted
  rw [hcommitted] at hreceived
  have hread : (run (step .inPlace) (init 64 (fun _ => 0) ⟨[97, 10, 10], []⟩)
      [.startRead, .startRead]).map (fun σ => (σ.stream.isClosed, σ.lines))
      = some (true, [[97, 10]]) := rfl
  obtain ⟨σ, hrun, hσ⟩ := Option.map_eq_some_iff.mp hread
  rw [Prod.mk.injEq] at hσ
  have hlines := hall _ _ _ _ _ _ _ _ ω σ hwrite (hcommitted ▸ hclean) _ hreceived.symm hrun hσ.1
  rw [hσ.2, hcommitted] at hlines
  exact absurd hlines (by decide)

end Camio.Log
