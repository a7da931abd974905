/-
  Camio.Cat.Main

  `camio_cat.c`: the program that "concatenates one or more inputs, into one or more
  outputs".  It waits for an input with its selector, reads a message from it and writes it
  to every output; an input that has nothing to read any more is removed.

  The streams are whatever their function pointers make of them, so inputs are of any type
  `σ` and outputs of any type `τ`, with the functions of `camio_istream_t` and
  `camio_ostream_t`.  The selector holds the inputs by their place in `istreams`.
-/

import Camio.Lib.Except
import Camio.Lib.Run
import Camio.Selector.System

namespace Camio.Cat

open Camio.Lib Camio.Selector

/-! ## The streams -/

/-- How the program ends where it should go on: an error exit, a call that does not return,
    an access out of bounds (or a division by zero). -/
inductive Halt where
  | exit (e : ErrorExit)
  | waiting
  | fault
deriving DecidableEq

/-- What `start_read` leaves: the memory behind `*out`, unless that is `NULL`, and the number
    of bytes it returns. -/
structure Handed where
  out : Option Mem
  len : Nat

/-- The bytes that are handed out. -/
def Handed.message (h : Handed) : List UInt8 :=
  match h.out with
  | some buffer => buffer.read 0 h.len
  | none => []

/-- The functions of a `camio_istream_t` with private data of type `σ`. -/
structure IstreamCalls (σ : Type _) where
  ready : σ → Except Halt (Nat × σ)
  startRead : σ → Except Halt (Handed × σ)
  endRead : σ → (freeBuff : Option Nat) → Except Halt (Nat × σ)

/-- The functions of a `camio_ostream_t` with private data of type `τ`.  `store` is a store
    behind a pointer that `start_write` has returned. -/
structure OstreamCalls (τ : Type _) where
  canAssignWrite : τ → Nat
  assignWrite : τ → (buffer : Option Mem) → (len : Nat) → Except Halt τ
  startWrite : τ → (len : Nat) → Except Halt (Option Nat × τ)
  store : τ → (ptr : Nat) → List UInt8 → τ
  endWrite : τ → (len : Nat) → Except Halt (Option Nat × τ)

/-! ## Waiting for an input -/

/-- What is up to the surroundings while `select` waits: for how many turns its loop goes on,
    and what `poll` reports. -/
structure Wait where
  fuel : Nat
  poll : Option (Nat → Bool)

section Select

variable {σ : Type _}

/-- The input at a place is asked whether it is ready. -/
def askReady (I : IstreamCalls σ) (istreams : List σ) (place : Nat) :
    Except Halt (Nat × List σ) :=
  match istreams[place]? with
  | none => .error .fault
  | some s => (I.ready s).map fun (r, s) => (r, istreams.set place s)

/-- The `while(1)` loop of the spin and the seq selector from entry `i` on: the entry it ends
    at, its index, and the inputs. -/
def selectLoop (I : IstreamCalls σ) (t : Streams Nat) :
    (fuel i : Nat) → List σ → Except Halt ((Nat × Nat) × List σ)
  | 0, _, _ => .error .waiting
  | fuel + 1, i, istreams =>
      if i < t.streamCount then
        match t.slot i with
        | some (index, place) =>
            (askReady I istreams place).bind fun (r, istreams) =>
              if r ≠ 0 then .ok ((i, index), istreams)
              else selectLoop I t fuel (i + 1) istreams
        | none => selectLoop I t fuel (i + 1) istreams
      else selectLoop I t fuel 0 istreams

/-- `selector->select(selector)`. -/
def select (I : IstreamCalls σ) (w : Wait) (sel : CamioSelector Nat) (istreams : List σ) :
    Except Halt (Nat × CamioSelector Nat × List σ) :=
  match sel with
  | .spin s =>
      if s.streamCount = 0 then .error .fault
      else
        (selectLoop I s.toStreams w.fuel ((s.last + 1) % s.streamCount) istreams).map
          fun ((i, index), istreams) => (index, .spin { s with last := i }, istreams)
  | .seq s =>
      (selectLoop I s.toStreams w.fuel 0 istreams).map
        fun ((_, index), istreams) => (index, .seq s, istreams)
  | .poll s =>
      match camioSelectorPollSelect s w.poll with
      | .error e => .error (.exit e)
      | .ok (.returned index s) => .ok (index, .poll s, istreams)
      | .ok .waiting => .error .waiting
      | .ok .fault => .error .fault

end Select

/-! ## Writing to the outputs -/

section Write

variable {σ τ : Type _}

/-- `memcpy` of the bytes handed out, to where an output wants them. -/
def copyOut (O : OstreamCalls τ) (out : τ) (outBuff : Nat) (inBuff : Option Mem) (len : Nat) :
    Except Halt τ :=
  match inBuff with
  | none => .error .fault
  | some buffer => .ok (O.store out outBuff (buffer.read 0 len))

/-- An output is given the message: `in_buff` afterwards, and the output, unless it had no
    buffer for the message. -/
def giveMessage (O : OstreamCalls τ) (out : τ) (inBuff : Option Mem) (len : Nat) :
    Except Halt (Option Mem × τ × Bool) :=
  if O.canAssignWrite out ≠ 0 then
    (O.assignWrite out inBuff len).map fun out => (none, out, true)
  else
    (O.startWrite out len).bind fun
      | (none, out) => .ok (inBuff, out, false)
      | (some outBuff, out) =>
          (copyOut O out outBuff inBuff len).map fun out => (inBuff, out, true)

/-- The loop over the outputs. -/
def writeAll (I : IstreamCalls σ) (O : OstreamCalls τ) (len : Nat) :
    (ostreams : List τ) → (inBuff : Option Mem) → σ → Except Halt (List τ × σ)
  | [], _, s => .ok ([], s)
  | out :: outs, inBuff, s =>
      (giveMessage O out inBuff len).bind fun
        -- "Could not get an output buffer for output %i"
        | (inBuff, out, false) =>
            (writeAll I O len outs inBuff s).map fun (outs, s) => (out :: outs, s)
        | (inBuff, out, true) =>
            (O.endWrite out len).bind fun (freeBuff, out) =>
              -- an overrun is only reported
              (I.endRead s freeBuff).bind fun (_, s) =>
                (writeAll I O len outs inBuff s).map fun (outs, s) => (out :: outs, s)

end Write

/-! ## The main loop -/

/-- The variables of `main`. -/
structure CamioCat (σ τ : Type _) where
  selector : CamioSelector Nat
  istreams : List σ
  ostreams : List τ

section Main

variable {σ τ : Type _}

/-- The inputs from `i` on are inserted; whether that worked is not looked at. -/
def insertInputs (fd : Nat → Int) :
    (left i : Nat) → CamioSelector Nat → Exit (CamioSelector Nat)
  | 0, _, sel => .ok sel
  | left + 1, i, sel =>
      (sel.insert fd (some i) i).bind fun (_, sel) => insertInputs fd left (i + 1) sel

/-- `main` up to its loop, where the streams can be opened.  `fd` are the descriptors of the
    inputs. -/
def start (fd : Nat → Int) (sel : CamioSelector Nat) (istreams : List σ) (ostreams : List τ) :
    Exit (CamioCat σ τ) :=
  (insertInputs fd istreams.length 0 sel).map fun sel =>
    { selector := sel, istreams := istreams, ostreams := ostreams }

/-- A turn of the loop: the input that was read, and what it handed out. -/
def turn (I : IstreamCalls σ) (O : OstreamCalls τ) (w : Wait) (c : CamioCat σ τ) :
    Except Halt ((Nat × Handed) × CamioCat σ τ) :=
  (select I w c.selector c.istreams).bind fun (which, sel, istreams) =>
    match istreams[which]? with
    | none => .error .fault
    | some s =>
        (I.startRead s).bind fun (h, s) =>
          if h.len = 0 then
            .ok ((which, h), { c with
              selector := (sel.remove which).2, istreams := istreams.set which s })
          else
            (writeAll I O h.len c.ostreams h.out s).map fun (outs, s) =>
              ((which, h), { selector := sel, istreams := istreams.set which s, ostreams := outs })

/-- The program and what it has read so far, each message with its input. -/
structure Session (σ τ : Type _) where
  cat : CamioCat σ τ
  read : List (Nat × Handed)

/-- The loop goes on while the selector holds an input. -/
def step (I : IstreamCalls σ) (O : OstreamCalls τ) (s : Session σ τ) (w : Wait) :
    Option (Session σ τ) :=
  if s.cat.selector.count = 0 then none
  else
    match turn I O w s.cat with
    | .error _ => none
    | .ok (r, c) => some { cat := c, read := s.read ++ [r] }

end Main

end Camio.Cat
