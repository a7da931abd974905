/-
  Camio.Istreams.Stable

  `camio_istream.h` promises that `end_read` returns 0 if the bytes that `start_read`
  has handed out are unchanged.  The log, raw and udp streams always return 0.

  Between the two calls a `ready` may look for more data.  The raw and udp streams have
  one buffer and receive the next datagram over the bytes that were handed out; the log
  stream reads over them when all its data is used up, or moves unread data there.  In
  runs without that the promise holds.
-/

import Camio.Datagram.Delivery
import Camio.Log.Frame

namespace Camio.Istreams

open Camio.Lib

/-- `camio_istream_t`, with the functions of the log, raw and udp streams behind it. -/
inductive CamioIstream where
  | log (s : Log.LogIstream)
  | raw (s : Datagram.DatagramIstream)
  | udp (s : Datagram.DatagramIstream)

namespace CamioIstream

def mem : CamioIstream → Mem
  | .log s => s.mem
  | .raw s => s.mem
  | .udp s => s.mem

/-- `none` if the call ends the program. -/
def ready (A : Allocator) : CamioIstream → Option (Nat × CamioIstream)
  | .log s => (Log.camioIstreamLogReady A s).toOption.map fun (r, s) => (r, .log s)
  | .raw s => (Datagram.camioIstreamRawReady s).toOption.join.map fun (r, s) => (r, .raw s)
  | .udp s => (Datagram.camioIstreamUdpReady s).toOption.join.map fun (r, s) => (r, .udp s)

/-- `none` if the call ends the program or waits for ever. -/
def startRead (A : Allocator) : CamioIstream → Option (Option (Nat × Nat) × CamioIstream)
  | .log s => (Log.camioIstreamLogStartRead A s).toOption.map fun (r, s) => (r, .log s)
  | .raw s => (Datagram.camioIstreamRawStartRead s).toOption.join.map fun (r, s) => (r, .raw s)
  | .udp s => (Datagram.camioIstreamUdpStartRead s).toOption.join.map fun (r, s) => (r, .udp s)

def endRead : CamioIstream → Nat × CamioIstream
  | .log s => ((Log.camioIstreamLogEndRead s).1, .log (Log.camioIstreamLogEndRead s).2)
  | .raw s => ((Datagram.camioIstreamRawEndRead s).1, .raw (Datagram.camioIstreamRawEndRead s).2)
  | .udp s => ((Datagram.camioIstreamUdpEndRead s).1, .udp (Datagram.camioIstreamUdpEndRead s).2)

end CamioIstream

/-- The calls. -/
inductive Event where
  | ready
  | startRead
  | endRead
deriving DecidableEq

def step (A : Allocator) (s : CamioIstream) : Event → Option CamioIstream
  | .ready => (s.ready A).map Prod.snd
  | .startRead => (s.startRead A).map Prod.snd
  | .endRead => some s.endRead.2

/-- A stream that has just been opened. -/
inductive Opened : CamioIstream → Prop where
  | log (p : Nat) (mem : Mem) (fd : ReadFd) : Opened (.log (Log.opened p mem fd))
  | raw (p : Nat) (mem : Mem) (pageSize : ℕ+) (fd : Socket) :
      Opened (.raw (Datagram.opened p mem pageSize fd))
  | udp (p : Nat) (mem : Mem) (pageSize : ℕ+) (fd : Socket) :
      Opened (.udp (Datagram.opened p mem pageSize fd))

/-- The next `ready` receives a datagram of at least one byte. -/
def Receives (s : Datagram.DatagramIstream) : Prop :=
  s.isClosed = false ∧ s.bytesRead = 0 ∧
    ∃ bytes, s.fd.turns.head? = some (.datagram bytes) ∧ bytes ≠ []

/-- The call is not a `ready` that puts other data over the range. -/
def Undisturbed (A : Allocator) (ptr size : Nat) (s : CamioIstream) (e : Event) : Prop :=
  e = .ready → size ≠ 0 →
    match s with
    | .log s => ∀ t, Log.Searched A s .ready t → Log.Spares ptr size t
    | .raw s => ¬ Receives s
    | .udp s => ¬ Receives s

/-! ## What `ready` does to the buffer -/

section Calls

variable {A : Allocator} {kind : Datagram.Kind} {s s' : CamioIstream}

/-- A `ready` that receives nothing leaves the memory as it was. -/
theorem datagramReady_mem {s : Datagram.DatagramIstream} {n : Nat}
    {s' : Datagram.DatagramIstream} (h : ¬ Receives s)
    (hready : Datagram.datagramReady kind s = .ok (some (n, s'))) : s'.mem = s.mem := by
  by_cases hidle : s.bytesRead ≠ 0 ∨ s.isClosed = true
  · rw [Datagram.datagramReady, if_pos hidle] at hready
    cases hready
    rfl
  · rw [not_or, not_not, Bool.not_eq_true] at hidle
    by_cases hblock : Datagram.WouldBlock s
    · rw [Datagram.ready_of_wouldBlock hblock] at hready
      cases kind with
      | raw =>
          cases hready
          rfl
      | udp => cases hready
    · rcases @Datagram.ready_of_not_wouldBlock kind s hidle.2 hidle.1 hblock with
        ⟨bytes, turns, hturns, heq⟩ | ⟨-, e, herror⟩
      · have hempty : bytes = [] := by
          by_contra hne
          exact h ⟨hidle.2, hidle.1, bytes, by rw [hturns]; rfl, hne⟩
        rw [heq, hempty] at hready
        cases hready
        simp only [List.take_nil, Mem.write_nil]
      · rw [herror] at hready
        cases hready

/-- The buffer of a log stream is well laid. -/
def Laid : CamioIstream → Prop
  | .log s => Log.Laid s
  | _ => True

theorem Opened.laid (h : Opened s) : Laid s := by
  cases h with
  | log p mem fd => exact Log.laid_opened p mem fd
  | raw p mem pageSize fd => trivial
  | udp p mem pageSize fd => trivial

/-- The calls of a log stream in terms of its own functions. -/
theorem log_ready_eq_some {s : Log.LogIstream} {r : Nat × CamioIstream}
    (h : (CamioIstream.log s).ready A = some r) :
    ∃ n t, Log.camioIstreamLogReady A s = .ok (n, t) ∧ r = (n, .log t) := by
  obtain ⟨⟨n, t⟩, hready, rfl⟩ := Option.map_eq_some_iff.mp h
  cases hcall : Log.camioIstreamLogReady A s with
  | error e =>
      rw [hcall] at hready
      cases hready
  | ok r =>
      rw [hcall] at hready
      cases hready
      exact ⟨n, t, rfl, rfl⟩

theorem log_startRead_eq_some {s : Log.LogIstream} {r : Option (Nat × Nat) × CamioIstream}
    (h : (CamioIstream.log s).startRead A = some r) :
    ∃ line t, Log.camioIstreamLogStartRead A s = .ok (line, t) ∧ r = (line, .log t) := by
  obtain ⟨⟨line, t⟩, hread, rfl⟩ := Option.map_eq_some_iff.mp h
  cases hcall : Log.camioIstreamLogStartRead A s with
  | error e =>
      rw [hcall] at hread
      cases hread
  | ok r =>
      rw [hcall] at hread
      cases hread
      exact ⟨line, t, rfl, rfl⟩

theorem datagram_eq_some {α β : Type} {c : Call α} {f : α → β} {b : β}
    (h : c.toOption.join.map f = some b) : ∃ a, c = .ok (some a) ∧ b = f a := by
  obtain ⟨a, hjoin, rfl⟩ := Option.map_eq_some_iff.mp h
  cases c with
  | error e => cases hjoin
  | ok a' =>
      cases a' with
      | none => cases hjoin
      | some a' =>
          cases hjoin
          exact ⟨a, rfl, rfl⟩

theorem startRead_laid {line : Option (Nat × Nat)} (h : Laid s)
    (hread : s.startRead A = some (line, s')) : Laid s' := by
  cases s with
  | log s =>
      obtain ⟨_, t, hcall, heq⟩ := log_startRead_eq_some hread
      cases heq
      exact Log.startRead_laid h hcall
  | raw s =>
      obtain ⟨a, -, heq⟩ := datagram_eq_some hread
      cases heq
      trivial
  | udp s =>
      obtain ⟨a, -, heq⟩ := datagram_eq_some hread
      cases heq
      trivial

theorem Laid.step {e : Event} (h : Laid s) (hstep : step A s e = some s') : Laid s' := by
  cases e with
  | ready =>
      obtain ⟨⟨n, t⟩, hready, rfl⟩ := Option.map_eq_some_iff.mp hstep
      cases s with
      | log s =>
          obtain ⟨n, t, hcall, heq⟩ := log_ready_eq_some hready
          cases heq
          exact Log.ready_laid h hcall
      | raw s =>
          obtain ⟨a, -, heq⟩ := datagram_eq_some hready
          cases heq
          trivial
      | udp s =>
          obtain ⟨a, -, heq⟩ := datagram_eq_some hready
          cases heq
          trivial
  | startRead =>
      obtain ⟨⟨line, t⟩, hread, rfl⟩ := Option.map_eq_some_iff.mp hstep
      exact startRead_laid h hread
  | endRead =>
      obtain rfl := Option.some.inj hstep
      cases s <;> exact h

/-- A call that does not disturb the range leaves its bytes as they were. -/
theorem step_undisturbed {e : Event} {ptr size : Nat} (h : Laid s) (he : e ≠ .startRead)
    (hun : Undisturbed A ptr size s e) (hstep : Istreams.step A s e = some s') :
    s'.mem.read ptr size = s.mem.read ptr size := by
  by_cases hsize : size = 0
  · rw [hsize, Mem.read_zero, Mem.read_zero]
  cases e with
  | startRead => exact absurd rfl he
  | endRead =>
      obtain rfl := Option.some.inj hstep
      cases s <;> rfl
  | ready =>
      obtain ⟨⟨n, t⟩, hready, rfl⟩ := Option.map_eq_some_iff.mp hstep
      have hun := hun rfl hsize
      cases s with
      | log s =>
          obtain ⟨n, t, hcall, heq⟩ := log_ready_eq_some hready
          cases heq
          exact Log.ready_spares h hun hcall
      | raw s =>
          obtain ⟨⟨n, t⟩, hcall, heq⟩ := datagram_eq_some hready
          cases heq
          exact congrArg (Mem.read · ptr size) (datagramReady_mem hun hcall)
      | udp s =>
          obtain ⟨⟨n, t⟩, hcall, heq⟩ := datagram_eq_some hready
          cases heq
          exact congrArg (Mem.read · ptr size) (datagramReady_mem hun hcall)

end Calls

/-! ## Runs -/

section Runs

variable {A : Allocator} {s₀ σ s τ : CamioIstream} {es es' : List Event}

theorem laid_of_run (h : Opened s₀) (hrun : run (step A) s₀ es = some σ) : Laid σ :=
  run_invariant Laid (fun _ _ _ h hstep => h.step hstep) h.laid hrun

/-- In every run: whatever calls follow a `start_read`, as long as no `ready` among them puts
    other data over the bytes it has handed out, these are unchanged wherever `end_read` is
    called and returns 0. -/
theorem held_bytes_kept {line : Nat × Nat} (hopened : Opened s₀)
    (hrun : run (step A) s₀ es = some σ) (hread : σ.startRead A = some (some line, s))
    (hes' : ∀ e ∈ es', e ≠ .startRead)
    (hun : Along (step A) (Undisturbed A line.1 line.2) s es')
    (hrun' : run (step A) s es' = some τ) :
    τ.endRead = (0, τ) ∧ τ.mem.read line.1 line.2 = s.mem.read line.1 line.2 := by
  refine ⟨by cases τ <;> rfl, ?_⟩
  have hlaid : Laid s := startRead_laid (laid_of_run hopened hrun) hread
  have hcalls : Along (step A) (fun _ e => e ≠ .startRead) s es' :=
    along_of_forall fun _ e he => hes' e he
  have hinv := run_invariant_along
    (fun σ => Laid σ ∧ σ.mem.read line.1 line.2 = s.mem.read line.1 line.2)
    (fun σ e σ' h hP hstep => ⟨h.1.step hstep, (step_undisturbed h.1 hP.2 hP.1 hstep).trans h.2⟩)
    ⟨hlaid, rfl⟩ (hun.and hcalls) hrun'
  exact hinv.2

end Runs

/-- A log stream whose first of two lines, of one byte each, has been handed out. -/
def firstOfTwo : Log.LogIstream :=
  { Log.opened 64 (fun _ => 0) ⟨[], []⟩ with
    mem := Mem.write (fun _ => 0) 64 [97, 10, 98, 10], lineBufferCount := 2, dataHeadPtr := 66 }

theorem held_bytes_kept_log :
    ∃ s τ, (CamioIstream.log (Log.opened 64 (fun _ => 0) ⟨[97, 10, 98, 10], []⟩)).startRead
        .inPlace = some (some (64, 1), s) ∧
      run (step .inPlace) s [.ready, .endRead] = some τ ∧ s.mem.read 64 1 = [97] ∧
      τ.endRead = (0, τ) ∧ τ.mem.read 64 1 = s.mem.read 64 1 := by
  have hread : (CamioIstream.log (Log.opened 64 (fun _ => 0) ⟨[97, 10, 98, 10], []⟩)).startRead
      .inPlace = some (some (64, 1), .log firstOfTwo) := rfl
  -- the second line is found where it is, behind the first
  have hturn : Log.prepareTurn .inPlace false firstOfTwo
      = .ok (.found 2 { firstOfTwo with readSize := 2 }) := rfl
  have hun : Along (step .inPlace) (Undisturbed .inPlace 64 1) (.log firstOfTwo)
      [.ready, .endRead] := by
    refine .cons (fun _ _ t ht => ?_) rfl (.cons nofun rfl trivial)
    have hvisits : Log.Visits .inPlace false firstOfTwo t := ht.2.2
    rw [hvisits.eq_of_found hturn]
    refine ⟨fun x hx hx' => Or.inl (Nat.lt_of_lt_of_le hx' (by decide)), fun hnone => ?_⟩
    exact nomatch (show some 1 = none from hnone)
  exact ⟨_, _, hread, rfl, rfl,
    held_bytes_kept (.log 64 _ _) (run_nil _) hread (by simp) hun rfl⟩

/-- The bytes that a `start_read` hands out first are unchanged whatever calls follow. -/
def KeepsHeld (A : Allocator) (s₀ : CamioIstream) : Prop :=
  ∀ line s es τ, s₀.startRead A = some (some line, s) → (∀ e ∈ es, e ≠ .startRead) →
    run (step A) s es = some τ → τ.endRead.1 = 0 →
    τ.mem.read line.1 line.2 = s.mem.read line.1 line.2

/-- Two datagrams, or two lines that are read one by one, and a `ready` between
    `start_read` and `end_read`. -/
theorem held_bytes_change :
    ¬ KeepsHeld .inPlace
        (.log (Log.opened 64 (fun _ => 0) ⟨[97, 10, 98, 10], [.give 2, .give 2]⟩)) ∧
      ¬ KeepsHeld .inPlace
        (.raw (Datagram.opened 64 (fun _ => 0) 4096 ⟨true, [.datagram [1], .datagram [2]]⟩)) ∧
      ¬ KeepsHeld .inPlace
        (.udp (Datagram.opened 64 (fun _ => 0) 4096 ⟨true, [.datagram [1], .datagram [2]]⟩)) := by
  refine ⟨fun h => ?_, fun h => ?_, fun h => ?_⟩
  · have hkept := h (64, 1) _ [.ready] _ rfl (by simp) rfl rfl
    exact absurd (show ([98] : List UInt8) = [97] from hkept) (by decide)
  · have hkept := h (64, 1) _ [.ready] _ rfl (by simp) rfl rfl
    exact absurd (show ([2] : List UInt8) = [1] from hkept) (by decide)
  · have hkept := h (64, 1) _ [.ready] _ rfl (by simp) rfl rfl
    exact absurd (show ([2] : List UInt8) = [1] from hkept) (by decide)

end Camio.Istreams
