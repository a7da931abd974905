/-
  Camio.Datagram.Drained

  No datagram gets stuck between the two ends of a link: what is on its way can always arrive,
  and what has arrived can always be read.
-/

import Camio.Datagram.Link

namespace Camio.Datagram

open Camio.Lib

section Draining

variable {A : Allocator} {kind : Kind} {size : Nat} {σ : Link} {ρ : Session}

/-- How many datagrams the reader has not handed out yet. -/
def Session.left (ρ : Session) : Nat :=
  (if ρ.stream.bytesRead = 0 then 0 else 1) + ρ.stream.fd.turns.length

/-- A `start_read` with something left neither waits nor fails, and leaves less. -/
theorem startRead_progress (hopen : ρ.stream.isClosed = false) (hexit : ρ.exit = none)
    (honly : OnlyDatagrams ρ.stream.fd) (hleft : ρ.left ≠ 0) :
    ∃ ρ', step kind ρ .startRead = some ρ' ∧ ρ'.exit = none ∧ ρ'.left < ρ.left := by
  have hnot : ¬ ρ.stream.isClosed = true := by simp [hopen]
  rw [step_running hexit, call]
  simp only [datagramStartRead, if_neg hnot]
  by_cases hnone : ρ.stream.bytesRead = 0
  · rw [Session.left, if_pos hnone] at hleft
    cases hturns : ρ.stream.fd.turns with
    | nil => simp [hturns] at hleft
    | cons turn turns =>
        obtain ⟨bytes, rfl⟩ := honly turn (by simp [hturns])
        have hnext : prepareNext kind ρ.stream true
            = .ok (some ((bytes.take ρ.stream.bufferSize).length, { ρ.stream with
              mem := ρ.stream.mem.write ρ.stream.buffer (bytes.take ρ.stream.bufferSize)
              fd := { nonblocking := false, turns := turns }
              bytesRead := (bytes.take ρ.stream.bufferSize).length })) := by
          rw [prepareNext, if_neg (not_not_intro hnone), Socket.recv, setFdBlocking]
          simp [hturns]
        rw [if_pos hnone, hnext]
        dsimp only [Except.map, Option.map]
        by_cases hzero : (bytes.take ρ.stream.bufferSize).length = 0
        · rw [if_pos hzero]
          refine ⟨_, rfl, hexit, ?_⟩
          simp only [Session.left, if_pos hnone, if_pos hzero, hturns, List.length_cons]
          omega
        · rw [if_neg hzero]
          refine ⟨_, rfl, hexit, ?_⟩
          simp only [Session.left, if_pos hnone, hturns, List.length_cons, handOut, if_pos]
          omega
  · rw [if_neg hnone]
    refine ⟨_, rfl, hexit, ?_⟩
    simp only [Session.left, if_neg hnone, handOut, if_pos]
    omega

/-- What has arrived is handed out by reading on. -/
theorem read_drains {lossless : Prop} (n : Nat) (h : Conveys size lossless σ)
    (hexit : σ.reader.exit = none) (hn : σ.reader.left ≤ n) :
    ∃ more τ, run (linkStep A kind) σ more = some τ ∧ LinkEvent.lose ∉ more ∧
      τ.reader.left = 0 ∧ τ.flight = σ.flight ∧ τ.writer = σ.writer := by
  induction n generalizing σ with
  | zero => exact ⟨[], σ, rfl, by simp, Nat.le_zero.mp hn, rfl, rfl⟩
  | succ n ih =>
      by_cases hleft : σ.reader.left = 0
      · exact ⟨[], σ, rfl, by simp, hleft, rfl, rfl⟩
      · obtain ⟨ρ', hstep, hexit', hless⟩ :=
          @startRead_progress kind _ h.isOpen hexit h.only hleft
        have hlink : linkStep A kind σ (.read .startRead) = some { σ with reader := ρ' } := by
          rw [linkStep, hstep, Option.map_some]
        have hkeeps : lossless → LinkEvent.read .startRead ≠ .lose := fun _ => by simp
        obtain ⟨more, τ, hrun, hnone, hτ, hflight, hwriter⟩ :=
          ih (h.step hkeeps hlink) hexit' (by dsimp only; omega)
        refine ⟨.read .startRead :: more, τ, run_cons_eq_some.mpr ⟨_, hlink, hrun⟩, ?_, hτ, hflight,
          hwriter⟩
        simp [hnone]

/-- What is on its way may arrive. -/
theorem flight_arrives {lossless : Prop} (flight : List (List UInt8))
    (hflight : σ.flight = flight) (h : Conveys size lossless σ) :
    ∃ more τ, run (linkStep A kind) σ more = some τ ∧ LinkEvent.lose ∉ more ∧ τ.flight = [] ∧
      τ.writer = σ.writer ∧ τ.reader.exit = σ.reader.exit ∧ Conveys size lossless τ := by
  induction flight generalizing σ with
  | nil => exact ⟨[], σ, rfl, by simp, hflight, rfl, rfl, h⟩
  | cons bytes flight ih =>
      have hlink : linkStep A kind σ .arrive
          = some { σ with flight := flight, reader := σ.reader.receive bytes } := by
        rw [linkStep, hflight]
      have hkeeps : lossless → LinkEvent.arrive ≠ .lose := fun _ => by simp
      obtain ⟨more, τ, hrun, hnone, hτ, hwriter, hexit, hconveys⟩ :=
        ih rfl (h.step hkeeps hlink)
      refine ⟨.arrive :: more, τ, run_cons_eq_some.mpr ⟨_, hlink, hrun⟩, ?_, hτ, hwriter, hexit,
        hconveys⟩
      simp [hnone]

end Draining

/-- However far both ends have got without a loss, as long as the reader runs all messages that
    were sent can still be handed out to it. -/
theorem link_drains {A : Allocator} {kind : Kind} {p q : Nat} {mem mem' : Mem} {pageSize : ℕ+}
    {maxSize : Nat} {turns : List SendTurn} {σ : Link} {events : List LinkEvent}
    (hrun : run (linkStep A kind) (linkInit p q mem mem' pageSize maxSize turns) events = some σ)
    (hlose : LinkEvent.lose ∉ events) (hexit : σ.reader.exit = none) :
    ∃ more τ, run (linkStep A kind) σ more = some τ ∧
      τ.reader.delivered = messages (pageSize * 1024) σ.writer.fd.sent := by
  obtain ⟨more₁, σ₁, hrun₁, hlose₁, hflight₁, hwriter₁, hexit₁, hconveys₁⟩ :=
    @flight_arrives A kind _ σ _ _ rfl (conveys_of_run hrun)
  obtain ⟨more₂, τ, hrun₂, hlose₂, hleft, hflight₂, hwriter₂⟩ :=
    @read_drains A kind _ σ₁ _ _ hconveys₁ (hexit₁.trans hexit) (Nat.le_refl _)
  refine ⟨more₁ ++ more₂, τ, run_trans hrun₁ hrun₂, ?_⟩
  have hall : LinkEvent.lose ∉ events ++ (more₁ ++ more₂) := by simp [hlose, hlose₁, hlose₂]
  have hτ := (link_conveys (run_trans hrun (run_trans hrun₁ hrun₂))).2 hall
  -- with nothing left, everything that was sent has been handed out
  have hread : τ.reader.stream.bytesRead = 0 := by
    rw [Session.left] at hleft
    split at hleft
    · assumption
    · omega
  have hturns : τ.reader.stream.fd.turns = [] := by
    rw [Session.left] at hleft
    exact List.length_eq_zero_iff.mp (by omega)
  rw [hflight₂, hflight₁, pending, if_pos hread, coming, hturns, hwriter₂, hwriter₁] at hτ
  simpa [received, messages] using hτ

/-- A message that has arrived while the reader holds another. -/
theorem link_drains_demo :
    ∃ σ more τ, run (linkStep .inPlace .udp)
        (linkInit 64 128 (fun _ => 0) (fun _ => 0) 4096 1500 [])
        [.write (.assignWrite (some (Mem.ofBytes [1])) 1), .write (.endWrite 1), .arrive,
          .read .ready, .write (.assignWrite (some (Mem.ofBytes [2])) 1), .write (.endWrite 1)]
        = some σ ∧
      run (linkStep .inPlace .udp) σ more = some τ ∧ τ.reader.delivered = [[1], [2]] := by
  have hrun : run (linkStep .inPlace .udp)
      (linkInit 64 128 (fun _ => 0) (fun _ => 0) 4096 1500 [])
      [.write (.assignWrite (some (Mem.ofBytes [1])) 1), .write (.endWrite 1), .arrive,
        .read .ready, .write (.assignWrite (some (Mem.ofBytes [2])) 1), .write (.endWrite 1)]
      = some _ := rfl
  obtain ⟨more, τ, hmore, hdelivered⟩ := link_drains hrun (by simp) rfl
  exact ⟨_, more, τ, hrun, hmore, hdelivered⟩

end Camio.Datagram
