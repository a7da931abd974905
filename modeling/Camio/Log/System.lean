/-
  Camio.Log.System

  The calls of a log istream as one step function, and what every run of them
  keeps.

  Which line a search marks depends on the byte behind its terminator, so the
  invariant is about any relation `M` that the marked sizes stand in, as long as
  the searches of the run establish it, and any property `G` of the lines handed
  out so far that a marked line extends.
-/

import Camio.Lib.Run
import Camio.Log.Buffer

namespace Camio.Log

open Camio.Lib Camio.Descr

/-- A log istream and the lines that `start_read` has handed out. -/
structure Session where
  stream : LogIstream
  lines : List (List UInt8)

/-- The calls. -/
inductive Event where
  | ready
  | startRead
  | endRead
deriving DecidableEq

/-- A call that ends the program is refused. -/
def step (A : Allocator) (σ : Session) : Event → Option Session
  | .ready =>
      match camioIstreamLogReady A σ.stream with
      | .error _ => none
      | .ok (_, s) => some { σ with stream := s }
  | .startRead =>
      match camioIstreamLogStartRead A σ.stream with
      | .error _ => none
      | .ok (none, s) => some { σ with stream := s }
      | .ok (some line, s) =>
          some { stream := s, lines := σ.lines ++ [s.mem.read line.1 line.2] }
  | .endRead => some { σ with stream := (camioIstreamLogEndRead σ.stream).2 }

/-- A stream that has just been opened on `fd`, with its buffer at `p` and anything
    in it. -/
def opened (p : Nat) (mem : Mem) (fd : ReadFd) : LogIstream :=
  { camioIstreamLogConstruct mem with
    isClosed := false, lineBuffer := p, lineBufferSize := istreamBuffInit, dataHeadPtr := p
    fd := fd }

def init (p : Nat) (mem : Mem) (fd : ReadFd) : Session :=
  { stream := opened p mem fd, lines := [] }

/-- The start state is what construction and `open` leave. -/
theorem opened_eq (descr : CamioDescr) (hquery : descr.query.isSome)
    (hopts : descr.optHead = none) (p : Nat) (mem : Mem) (fd : ReadFd) :
    camioIstreamLogOpen (camioIstreamLogConstruct mem) descr (some p) none (some fd)
      = .ok (opened p mem fd) := by
  have h1 := Option.not_isSome_iff_eq_none.mpr hopts
  have h2 := CamioDescr.not_isNone_query hquery
  rw [camioIstreamLogOpen, if_neg h1]
  dsimp only
  rw [if_neg h2]
  rfl

/-- `t` is the stream at a search that the call makes. -/
def Searched (A : Allocator) (s : LogIstream) : Event → LogIstream → Prop
  | .ready, t => s.isClosed = false ∧ s.readSize = 0 ∧ Searches A false s t
  | .startRead, t => s.isClosed = false ∧ s.readSize = 0 ∧ Searches A true s t
  | .endRead, _ => False

/-- Every search of the step meets `Q`. -/
def AtSearches (A : Allocator) (Q : LogIstream → Prop) (σ : Session) (e : Event) : Prop :=
  ∀ t, Searched A σ.stream e t → Q t

/-! ## What a step can do -/

section Steps

variable {A : Allocator} {σ σ' : Session}

/-- The session after the marked line was handed out. -/
def handOutLine (σ : Session) : Session :=
  { stream := (handOut σ.stream).2
    lines := σ.lines ++ [(handOut σ.stream).2.mem.read
      (handOut σ.stream).1.1 (handOut σ.stream).1.2] }

/-- `ready` does nothing on a closed stream or with a line marked. -/
theorem ready_cases {s : LogIstream} {r : Nat × LogIstream}
    (hready : camioIstreamLogReady A s = .ok r) :
    ((s.readSize ≠ 0 ∨ s.isClosed = true) ∧ r.2 = s) ∨
    (s.isClosed = false ∧ s.readSize = 0 ∧
      ∃ r', prepareNext A false s = .ok r' ∧ r.2 = r'.2) := by
  rw [camioIstreamLogReady] at hready
  by_cases hidle : s.readSize ≠ 0 ∨ s.isClosed = true
  · rw [if_pos hidle] at hready
    cases hready
    exact Or.inl ⟨hidle, rfl⟩
  · rw [if_neg hidle] at hready
    rw [not_or, not_not, Bool.not_eq_true] at hidle
    obtain ⟨r', hnext, rfl⟩ := map_eq_ok_iff.mp hready
    exact Or.inr ⟨hidle.2, hidle.1, r', hnext, rfl⟩

/-- `start_read` hands out the marked line, or looks for one first. -/
theorem startRead_cases {s : LogIstream} {r : Option (Nat × Nat) × LogIstream}
    (hread : camioIstreamLogStartRead A s = .ok r) :
    (s.isClosed = true ∧ r = (none, s)) ∨
    (s.isClosed = false ∧ s.readSize ≠ 0 ∧ r = (some (handOut s).1, (handOut s).2)) ∨
    (s.isClosed = false ∧ s.readSize = 0 ∧ ∃ r', prepareNext A true s = .ok r' ∧
      ((r'.1 = 0 ∧ r = (none, r'.2)) ∨
        (r'.1 ≠ 0 ∧ r = (some (handOut r'.2).1, (handOut r'.2).2)))) := by
  rw [camioIstreamLogStartRead] at hread
  by_cases hclosed : s.isClosed = true
  · rw [if_pos hclosed] at hread
    exact Or.inl ⟨hclosed, (Except.ok.inj hread).symm⟩
  · rw [if_neg hclosed] at hread
    rw [Bool.not_eq_true] at hclosed
    by_cases hmarked : s.readSize = 0
    · rw [if_pos hmarked] at hread
      obtain ⟨⟨n, t⟩, hnext, hr⟩ := map_eq_ok_iff.mp hread
      refine Or.inr (Or.inr ⟨hclosed, hmarked, (n, t), hnext, ?_⟩)
      dsimp only at hr
      by_cases hn : n = 0
      · rw [if_pos hn] at hr
        exact Or.inl ⟨hn, hr.symm⟩
      · rw [if_neg hn] at hr
        exact Or.inr ⟨hn, hr.symm⟩
    · rw [if_neg hmarked] at hread
      exact Or.inr (Or.inl ⟨hclosed, hmarked, (Except.ok.inj hread).symm⟩)

theorem step_ready (h : step A σ .ready = some σ') :
    ((σ.stream.readSize ≠ 0 ∨ σ.stream.isClosed = true) ∧ σ' = σ) ∨
    (σ.stream.isClosed = false ∧ σ.stream.readSize = 0 ∧
      ∃ r, prepareNext A false σ.stream = .ok r ∧ σ' = { σ with stream := r.2 }) := by
  simp only [step] at h
  cases hready : camioIstreamLogReady A σ.stream with
  | error e =>
      rw [hready] at h
      cases h
  | ok r =>
      rw [hready] at h
      obtain rfl := Option.some.inj h
      obtain ⟨hidle, hr⟩ | ⟨hopen, hmarked, r', hnext, hr⟩ := ready_cases hready
      · refine Or.inl ⟨hidle, ?_⟩
        rw [hr]
      · refine Or.inr ⟨hopen, hmarked, r', hnext, ?_⟩
        rw [hr]

theorem step_startRead (h : step A σ .startRead = some σ') :
    (σ.stream.isClosed = true ∧ σ' = σ) ∨
    (σ.stream.isClosed = false ∧ σ.stream.readSize ≠ 0 ∧ σ' = handOutLine σ) ∨
    (σ.stream.isClosed = false ∧ σ.stream.readSize = 0 ∧
      ∃ r, prepareNext A true σ.stream = .ok r ∧
        ((r.1 = 0 ∧ σ' = { σ with stream := r.2 }) ∨
          (r.1 ≠ 0 ∧ σ' = handOutLine { σ with stream := r.2 }))) := by
  simp only [step] at h
  cases hread : camioIstreamLogStartRead A σ.stream with
  | error e =>
      rw [hread] at h
      cases h
  | ok r =>
      rw [hread] at h
      obtain ⟨hclosed, rfl⟩ | ⟨hopen, hmarked, rfl⟩ | ⟨hopen, hmarked, r', hnext, hr⟩ :=
        startRead_cases hread
      · exact Or.inl ⟨hclosed, (Option.some.inj h).symm⟩
      · exact Or.inr (Or.inl ⟨hopen, hmarked, (Option.some.inj h).symm⟩)
      · refine Or.inr (Or.inr ⟨hopen, hmarked, r', hnext, ?_⟩)
        rcases hr with ⟨hn, rfl⟩ | ⟨hn, rfl⟩
        · exact Or.inl ⟨hn, (Option.some.inj h).symm⟩
        · exact Or.inr ⟨hn, (Option.some.inj h).symm⟩

/-- A closed stream stays as it is. -/
theorem step_of_closed {e : Event} (hclosed : σ.stream.isClosed = true)
    (h : step A σ e = some σ') : σ' = σ := by
  cases e with
  | ready =>
      rcases step_ready h with ⟨-, h⟩ | ⟨hopen, -⟩
      · exact h
      · exact absurd (hopen.symm.trans hclosed) Bool.false_ne_true
  | startRead =>
      rcases step_startRead h with ⟨-, h⟩ | ⟨hopen, -⟩ | ⟨hopen, -⟩
      · exact h
      · exact absurd (hopen.symm.trans hclosed) Bool.false_ne_true
      · exact absurd (hopen.symm.trans hclosed) Bool.false_ne_true
  | endRead => exact (Option.some.inj h).symm

/-- Lines that were handed out stay so. -/
theorem step_lines {e : Event} (h : step A σ e = some σ') : σ.lines <+: σ'.lines := by
  cases e with
  | ready =>
      rcases step_ready h with ⟨-, rfl⟩ | ⟨-, -, r, -, rfl⟩
      · exact List.prefix_rfl
      · exact List.prefix_rfl
  | startRead =>
      rcases step_startRead h with ⟨-, rfl⟩ | ⟨-, -, rfl⟩ | ⟨-, -, r, -, ⟨-, rfl⟩ | ⟨-, rfl⟩⟩
      · exact List.prefix_rfl
      · exact List.prefix_append _ _
      · exact List.prefix_rfl
      · exact List.prefix_append _ _
  | endRead =>
      obtain rfl := Option.some.inj h
      exact List.prefix_rfl

end Steps

/-! ## Marked lines -/

/-- A size marked in pending bytes with these bytes behind them in the file. -/
abbrev Marking := (pending stream : List UInt8) → (size : Nat) → Prop

variable {A : Allocator} {blocking : Bool} {s t : LogIstream}

/-- The size that `e` gives the line at the start of the data. -/
def DataLine (e : LineEnd) : Marking := fun pending _ n => e pending = some n

/-- The size that `e` gives the line at the start of all bytes that are left. -/
def RestLine (e : LineEnd) : Marking := fun pending stream n => e (pending ++ stream) = some n

/-- If the search finds a line in `t`, it lies within the data and is marked by `M`. -/
def Marks (M : Marking) (t : LogIstream) : Prop :=
  ∀ k, t.pending.findIdx? isTerminator = some k →
    lineSize t k ≤ t.lineBufferCount ∧ M t.pending t.fd.stream (lineSize t k)

/-- A buffer in which a marked line lies within the data. -/
structure Sound (M : Marking) (s : LogIstream) : Prop extends Fits s where
  readSize_le : s.readSize ≤ s.lineBufferCount
  marked : s.readSize ≠ 0 → s.isClosed = false ∧ M s.pending s.fd.stream s.readSize

variable {M : Marking}

theorem Sound.looking (h : Sound M s) (hclosed : s.isClosed = false) (hread : s.readSize = 0) :
    Looking s :=
  { h with isOpen := hclosed, readSize := hread }

theorem Looking.sound (h : Looking s) : Sound M s :=
  { h with
    readSize_le := by rw [h.readSize]; exact Nat.zero_le _
    marked := fun hne => absurd h.readSize hne }

theorem lineSize_ne_zero (s : LogIstream) (k : Nat) : lineSize s k ≠ 0 := by
  rw [lineSize]
  split <;> omega

/-- `prepare_next` keeps the caller's bytes; it returns 0 iff it marks no line; and it
    closes the stream only when no line is left. -/
theorem prepareNext_sound {r : Nat × LogIstream} (h : Looking s)
    (hmarks : ∀ t, Searches A blocking s t → Marks M t)
    (hnext : prepareNext A blocking s = .ok r) :
    Sound M r.2 ∧ r.2.rest = s.rest ∧ r.1 = r.2.readSize ∧
      (r.2.isClosed = true → s.rest.findIdx? isTerminator = none) ∧
      (blocking = true → r.2.readSize = 0 → r.2.isClosed = true) := by
  cases prepareNext_outcome h hnext with
  | found t k hsearch ht hrest hscan =>
      -- the only outcome with a line marked, and the one `hmarks` speaks of
      obtain ⟨hle, hM⟩ := hmarks t hsearch k hscan
      refine ⟨{ ht with readSize_le := hle, marked := fun _ => ⟨ht.isOpen, hM⟩ }, hrest, rfl,
        fun hclosed => ?_, fun _ hzero => absurd hzero (lineSize_ne_zero t k)⟩
      exact absurd (ht.isOpen.symm.trans hclosed) Bool.false_ne_true
  | blocked s' hblock hs' hrest =>
      refine ⟨hs'.sound, hrest, hs'.readSize.symm, fun hclosed => ?_, fun hblock' => ?_⟩
      · exact absurd (hs'.isOpen.symm.trans hclosed) Bool.false_ne_true
      · exact absurd (hblock.symm.trans hblock') Bool.false_ne_true
  | eof s' hfits hread hclosed hrest hnone =>
      refine ⟨{ hfits with
        readSize_le := by rw [hread]; exact Nat.zero_le _
        marked := fun hne => absurd hread hne }, hrest, hread.symm, fun _ => hnone,
        fun _ _ => hclosed⟩

theorem Searched.looking {e : Event} (h : Searched A s e t) (hs : Sound M s) :
    Looking t ∧ t.rest = s.rest := by
  cases e with
  | ready =>
      obtain ⟨hclosed, hread, hsearches⟩ := h
      exact hsearches.looking (hs.looking hclosed hread)
  | startRead =>
      obtain ⟨hclosed, hread, hsearches⟩ := h
      exact hsearches.looking (hs.looking hclosed hread)
  | endRead => exact h.elim

/-- A marked line is the beginning of the caller's bytes. -/
theorem Sound.line_eq (h : Sound M s) (hread : s.readSize ≠ 0) :
    (handOut s).2.mem.read (handOut s).1.1 (handOut s).1.2
      = s.rest.take (s.readSize - 1) := by
  have hle := h.readSize_le
  have hdata := h.data
  have hhead := h.head
  have hlt := h.size_lt
  have hsize : sizeSub s.readSize 1 = s.readSize - 1 := sizeSub_of_le (by omega) (by omega)
  simp only [Log.handOut, hsize]
  rw [LogIstream.rest,
    List.take_append_of_le_length (by rw [LogIstream.pending_length]; omega), LogIstream.pending,
    Mem.read_take _ _ (by omega)]

/-- Handing the line out takes it off. -/
theorem Sound.handOut (h : Sound M s) (hread : s.readSize ≠ 0) :
    Looking (handOut s).2 ∧ (handOut s).2.rest = s.rest.drop s.readSize := by
  have hle := h.readSize_le
  have hdata := h.data
  have hhead := h.head
  have hlt := h.size_lt
  have hcount : sizeSub s.lineBufferCount s.readSize = s.lineBufferCount - s.readSize :=
    sizeSub_of_le hle (by omega)
  constructor
  -- the rest of the data still lies in the buffer
  · refine { h with
      head := ?_, data := ?_, isOpen := (h.marked hread).1, readSize := rfl } <;>
    simp only [Log.handOut, hcount] <;> omega
  -- and it is what was behind the line
  · simp only [LogIstream.rest, LogIstream.pending, Log.handOut, hcount]
    rw [List.drop_append_of_le_length (by rw [Mem.read_length]; exact hle), Mem.read_drop _ _ hle]

/-- The stream in which the search of `t` has marked its line. -/
def mark (t : LogIstream) (k : Nat) : LogIstream := { t with readSize := lineSize t k }

/-- A step with a search that finds a line leaves that line marked, or handed out. -/
theorem step_of_searched {σ σ' : Session} {e : Event} {k : Nat} (h : Sound M σ.stream)
    (hsearched : Searched A σ.stream e t) (hscan : t.pending.findIdx? isTerminator = some k)
    (hstep : step A σ e = some σ') :
    σ' = { σ with stream := mark t k } ∨ σ' = handOutLine { σ with stream := mark t k } := by
  cases e with
  | endRead => exact hsearched.elim
  | ready =>
      obtain ⟨hclosed, hread, hsearches⟩ := hsearched
      rcases step_ready hstep with ⟨hidle, -⟩ | ⟨-, -, r, hnext, rfl⟩
      · rcases hidle with hidle | hidle
        · exact absurd hread hidle
        · exact absurd (hclosed.symm.trans hidle) Bool.false_ne_true
      · rw [prepareNext_of_searches (h.looking hclosed hread) hnext hsearches hscan]
        exact Or.inl rfl
  | startRead =>
      obtain ⟨hclosed, hread, hsearches⟩ := hsearched
      rcases step_startRead hstep with ⟨hidle, -⟩ | ⟨-, hidle, -⟩ | ⟨-, -, r, hnext, hr⟩
      · exact absurd (hclosed.symm.trans hidle) Bool.false_ne_true
      · exact absurd hread hidle
      · rw [prepareNext_of_searches (h.looking hclosed hread) hnext hsearches hscan] at hr
        rcases hr with ⟨hzero, -⟩ | ⟨-, rfl⟩
        · exact absurd hzero (lineSize_ne_zero t k)
        · exact Or.inr rfl

/-! ## Runs -/

section Runs

/-- A property of the lines handed out and of the bytes that are left. -/
abbrev History := (lines : List (List UInt8)) → (rest : List UInt8) → Prop

/-- A line marked by `M` extends `G`. -/
def Extends (M : Marking) (G : History) : Prop :=
  ∀ lines pending stream n, G lines (pending ++ stream) → M pending stream n → n ≠ 0 →
    n ≤ pending.length →
    G (lines ++ [(pending ++ stream).take (n - 1)]) ((pending ++ stream).drop n)

variable {G : History}

/-- The invariant: `M` marks lines, `G` holds of the lines handed out and of the bytes
    that are left, and a closed stream has no line left. -/
structure Inv (M : Marking) (G : History) (σ : Session) : Prop where
  sound : Sound M σ.stream
  lines : G σ.lines σ.stream.rest
  closed : σ.stream.isClosed = true → σ.stream.rest.findIdx? isTerminator = none

variable {σ σ' : Session}

theorem looking_opened (p : Nat) (mem : Mem) (fd : ReadFd) : Looking (opened p mem fd) := by
  constructor
  case toFits =>
    constructor <;> simp only [opened, camioIstreamLogConstruct, istreamBuffInit] <;> omega
  case isOpen => rfl
  case readSize => rfl

theorem inv_init (p : Nat) (mem : Mem) (fd : ReadFd) (hG : G [] fd.stream) :
    Inv M G (init p mem fd) where
  sound := (looking_opened p mem fd).sound
  lines := hG
  closed := nofun

/-- Handing a marked line out keeps the invariant. -/
theorem Inv.handOutLine (hG : Extends M G) (hsound : Sound M σ.stream)
    (hlines : G σ.lines σ.stream.rest) (hread : σ.stream.readSize ≠ 0) :
    Inv M G (handOutLine σ) := by
  obtain ⟨hlooking, hrest⟩ := hsound.handOut hread
  refine ⟨hlooking.sound, ?_, fun hclosed => ?_⟩
  -- the line is what `M` marked at the front of the bytes that were left
  · simp only [Log.handOutLine]
    rw [hsound.line_eq hread, hrest]
    exact hG _ _ _ _ hlines (hsound.marked hread).2 hread
      (by rw [LogIstream.pending_length]; exact hsound.readSize_le)
  · exact absurd (hlooking.isOpen.symm.trans hclosed) Bool.false_ne_true

/-- So does looking for the next line. -/
theorem Inv.prepareNext {r : Nat × LogIstream} (h : Inv M G σ)
    (hclosed : σ.stream.isClosed = false) (hread : σ.stream.readSize = 0)
    (hmarks : ∀ t, Searches A blocking σ.stream t → Marks M t)
    (hnext : prepareNext A blocking σ.stream = .ok r) :
    Inv M G { σ with stream := r.2 } ∧ r.1 = r.2.readSize := by
  obtain ⟨hsound, hrest, hsize, hend, -⟩ :=
    prepareNext_sound (h.sound.looking hclosed hread) hmarks hnext
  refine ⟨⟨hsound, ?_, fun hclosed' => ?_⟩, hsize⟩
  · show G σ.lines r.2.rest
    rw [hrest]
    exact h.lines
  · show r.2.rest.findIdx? isTerminator = none
    rw [hrest]
    exact hend hclosed'

/-- Every step whose searches mark by `M` keeps the invariant. -/
theorem Inv.step {e : Event} (hG : Extends M G) (h : Inv M G σ)
    (hmarks : AtSearches A (Marks M) σ e) (hstep : step A σ e = some σ') : Inv M G σ' := by
  cases e with
  | ready =>
      rcases step_ready hstep with ⟨-, rfl⟩ | ⟨hclosed, hread, r, hnext, rfl⟩
      · exact h
      · exact (h.prepareNext hclosed hread (fun t ht => hmarks t ⟨hclosed, hread, ht⟩) hnext).1
  | startRead =>
      rcases step_startRead hstep with ⟨-, rfl⟩ | ⟨-, hread, rfl⟩ | ⟨hclosed, hread, r, hnext, hr⟩
      · exact h
      · exact Inv.handOutLine hG h.sound h.lines hread
      · obtain ⟨hinv, hsize⟩ :=
          h.prepareNext hclosed hread (fun t ht => hmarks t ⟨hclosed, hread, ht⟩) hnext
        rcases hr with ⟨-, rfl⟩ | ⟨hne, rfl⟩
        · exact hinv
        · exact Inv.handOutLine hG hinv.sound hinv.lines (hsize ▸ hne)
  | endRead =>
      cases hstep
      exact h

/-- So does every run. -/
theorem inv_of_run {p : Nat} {mem : Mem} {fd : ReadFd} {es : List Event}
    (hG : Extends M G) (hG0 : G [] fd.stream)
    (hmarks : Along (step A) (AtSearches A (Marks M)) (init p mem fd) es)
    (hrun : run (step A) (init p mem fd) es = some σ) : Inv M G σ :=
  run_invariant_along (Inv M G) (fun _ _ _ h hP hstep => Inv.step hG h hP hstep)
    (inv_init p mem fd hG0) hmarks hrun

/-- `start_read` hands a line out or finds the end of the file. -/
theorem Inv.startRead_progress (h : Inv M G σ) (hmarks : AtSearches A (Marks M) σ .startRead)
    (hstep : Log.step A σ .startRead = some σ') :
    σ'.stream.isClosed = true ∨ σ'.lines.length = σ.lines.length + 1 := by
  rcases step_startRead hstep with ⟨hclosed, rfl⟩ | ⟨-, -, rfl⟩ | ⟨hclosed, hread, r, hnext, hr⟩
  · exact Or.inl hclosed
  · exact Or.inr List.length_append
  · obtain ⟨-, -, hsize, -, hend⟩ := prepareNext_sound (h.sound.looking hclosed hread)
      (fun t ht => hmarks t ⟨hclosed, hread, ht⟩) hnext
    rcases hr with ⟨hzero, rfl⟩ | ⟨-, rfl⟩
    · exact Or.inl (hend rfl (hsize.symm.trans hzero))
    · exact Or.inr List.length_append

/-- A run closes the stream or hands out a line with every `start_read`. -/
theorem Inv.lines_of_run {τ : Session} {es : List Event} (hG : Extends M G) (h : Inv M G σ)
    (hmarks : Along (Log.step A) (AtSearches A (Marks M)) σ es)
    (hrun : run (Log.step A) σ es = some τ) :
    τ.stream.isClosed = true ∨ σ.lines.length + es.count .startRead ≤ τ.lines.length := by
  induction es generalizing σ with
  | nil =>
      rw [run_nil, Option.some.injEq] at hrun
      exact Or.inr (by rw [hrun, List.count_nil, Nat.add_zero])
  | cons e es ih =>
      obtain ⟨m, hm, hrest⟩ := run_cons_eq_some.mp hrun
      rcases ih (h.step hG hmarks.1 hm) (hmarks.2 m hm) hrest with hclosed | hle
      · exact Or.inl hclosed
      · have hmono := (step_lines hm).length_le
        by_cases he : e = .startRead
        · subst he
          rw [List.count_cons_self]
          rcases h.startRead_progress hmarks.1 hm with hclosed | hone
          · -- the stream is closed already, and no step changes it any more
            have hstay := run_invariant (fun σ => σ.stream.isClosed = true)
              (fun s e s' hs hstep => by rw [step_of_closed hs hstep]; exact hs) hclosed hrest
            exact Or.inl hstay
          · exact Or.inr (by omega)
        · rw [List.count_cons_of_ne he]
          exact Or.inr (by omega)

end Runs

end Camio.Log
