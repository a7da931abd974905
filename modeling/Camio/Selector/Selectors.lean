/-
  Camio.Selector.Selectors

  `camio_selector_spin.c`, `camio_selector_seq.c`, `camio_selector_poll.c`: three ways
  to wait for the next of up to 32 streams that has something to read.

  The three keep the same array of streams and insert into it, count it and remove
  from it alike; they differ in `select`, and the poll selector keeps a descriptor
  for each stream beside.  Streams are of any type `S`.  When a stream is ready is up
  to its surroundings: `ready` says what a stream answers if it is asked in a turn of
  the loop, and `poll` which descriptors `poll` reports.
-/

import Camio.Errors
import Camio.Lib.Heap
import Camio.Lib.SlotMap

namespace Camio.Selector

open Camio.Lib

/-- `CAMIO_SELECTOR_SPIN_MAX_STREAMS`, and those of the other two. -/
abbrev maxStreams : Nat := 32

/-- `~0` -/
def noIndex : Nat := 2 ^ 64 - 1

/-- An element of `streams`; a `NULL` stream is `none`. -/
structure Entry (S : Type _) where
  istream : Option S
  index : Nat
deriving DecidableEq

/-- The fields that the three selectors share. -/
structure Streams (S : Type _) where
  streams : Vector (Entry S) maxStreams
  streamCount : Nat
  streamAvail : Nat

variable {S : Type _}

/-- The index and the stream in entry `i`, unless the stream is `NULL`. -/
def Streams.slot (t : Streams S) (i : Nat) : Option (Nat × S) :=
  t.streams[i]?.bind fun e => e.istream.map fun s => (e.index, s)

/-- No streams, and all entries zero. -/
def emptyStreams : Streams S :=
  { streams := Vector.replicate maxStreams { istream := none, index := 0 }
    streamCount := 0, streamAvail := 0 }

/-- `insert`, where there is an entry left. -/
def fillEntry (t : Streams S) (s : S) (index : Nat) : Streams S :=
  { streams := t.streams.setIfInBounds t.streamCount { istream := some s, index := index }
    streamCount := t.streamCount + 1
    streamAvail := (t.streamAvail + 1) % 2 ^ 64 }

/-- `insert`: what it returns, and the streams. -/
def insertStream (t : Streams S) (istream : Option S) (index : Nat) : Exit (Int × Streams S) :=
  match istream with
  | none => eprintfExit .nullPtr "No istream supplied\n"
  | some s =>
      if t.streamCount ≥ maxStreams then .ok (-1, t)
      else .ok (0, fillEntry t s index)

/-- The first of all entries that carries the index. -/
def findIndex (t : Streams S) (index : Nat) : Option (Fin maxStreams) :=
  (List.finRange maxStreams).find? fun i => t.streams[i].index = index

/-- `remove`, where the loop has found the index in entry `i`. -/
def clearEntry (t : Streams S) (i : Fin maxStreams) : Streams S :=
  { t with
    streams := t.streams.set i { t.streams[i] with istream := none }
    streamAvail := sizeSub t.streamAvail 1 }

/-- What `remove` returns where the loop has not found the index. -/
def notFound (index : Nat) : Int := if index ≥ maxStreams then -1 else 0

section Entries

variable {t : Streams S} {index : Nat}

/-- The entry that is found carries the index. -/
theorem findIndex_some {i : Fin maxStreams} (h : findIndex t index = some i) :
    t.streams[i].index = index := by
  have hfound := List.find?_some h
  exact of_decide_eq_true hfound

theorem slot_of_lt {i : Nat} (h : i < maxStreams) :
    t.slot i = t.streams[i].istream.map fun s => (t.streams[i].index, s) := by
  rw [Streams.slot, Vector.getElem?_eq_getElem h, Option.bind_some]

theorem slot_of_ge {i : Nat} (h : maxStreams ≤ i) : t.slot i = none := by
  rw [Streams.slot, Vector.getElem?_eq_none h, Option.bind_none]

/-- The index of a stream is found, if not in its own entry. -/
theorem findIndex_of_slot {i : Nat} {s : S} (h : t.slot i = some (index, s)) :
    ∃ j, findIndex t index = some j := by
  by_cases hi : i < maxStreams
  · rw [slot_of_lt hi, Option.map_eq_some_iff] at h
    obtain ⟨s', -, hs'⟩ := h
    rw [Prod.mk.injEq] at hs'
    apply Option.ne_none_iff_exists'.mp
    intro hnone
    have hne := List.find?_eq_none.mp hnone ⟨i, hi⟩ (List.mem_finRange _)
    exact hne (decide_eq_true hs'.1)
  · rw [slot_of_ge (Nat.le_of_not_lt hi)] at h
    cases h

theorem slot_fillEntry (h : t.streamCount < maxStreams) (s : S) :
    (fillEntry t s index).slot = Function.update t.slot t.streamCount (some (index, s)) := by
  funext i
  by_cases hi : i = t.streamCount
  · subst hi
    rw [Function.update_self, Streams.slot, fillEntry, Vector.getElem?_setIfInBounds_self_of_lt h]
    rfl
  · rw [Function.update_of_ne hi, Streams.slot, Streams.slot, fillEntry,
      Vector.getElem?_setIfInBounds_ne (Ne.symm hi)]

theorem slot_clearEntry (i : Fin maxStreams) :
    (clearEntry t i).slot = Function.update t.slot i.val none := by
  funext j
  by_cases hj : j = i.val
  · subst hj
    rw [Function.update_self, Streams.slot, clearEntry, Vector.getElem?_set_self i.isLt]
    rfl
  · rw [Function.update_of_ne hj, Streams.slot, Streams.slot, clearEntry,
      Vector.getElem?_set_ne i.isLt (Ne.symm hj)]

theorem slot_emptyStreams (i : Nat) : (emptyStreams : Streams S).slot i = none := by
  by_cases hi : i < maxStreams
  · rw [slot_of_lt hi]
    simp only [emptyStreams, Vector.getElem_replicate, Option.map_none]
  · exact slot_of_ge (Nat.le_of_not_lt hi)

end Entries

/-- `select` returned the index of an entry, is still waiting, or divided by zero. -/
inductive Selected (σ : Type _) where
  | returned (index : Nat) (s : σ)
  | waiting
  | fault

/-- The `while(1)` loop of the spin and the seq selector from entry `i` on, for at most
    `fuel` turns: the entry it ends at, and its index. -/
def selectLoop (t : Streams S) (ready : Nat → S → Bool) : (fuel turn i : Nat) → Option (Nat × Nat)
  | 0, _, _ => none
  | fuel + 1, turn, i =>
      if i < t.streamCount then
        match t.slot i with
        | some (index, istream) =>
            if ready turn istream then some (i, index)
            else selectLoop t ready fuel (turn + 1) (i + 1)
        | none => selectLoop t ready fuel (turn + 1) (i + 1)
      else selectLoop t ready fuel (turn + 1) 0

/-! ## The spin selector -/

/-- `camio_selector_spin_t`. -/
structure SelectorSpin (S : Type _) extends Streams S where
  last : Nat

/-- `camio_selector_spin_construct`. -/
def camioSelectorSpinConstruct : SelectorSpin S := { emptyStreams with last := 0 }

/-- `camio_selector_spin_insert`. -/
def camioSelectorSpinInsert (s : SelectorSpin S) (istream : Option S) (index : Nat) :
    Exit (Int × SelectorSpin S) :=
  (insertStream s.toStreams istream index).map fun (r, t) => (r, { s with toStreams := t })

/-- `camio_selector_spin_count`. -/
def camioSelectorSpinCount (s : SelectorSpin S) : Nat := s.streamAvail

/-- `camio_selector_spin_remove`. -/
def camioSelectorSpinRemove (s : SelectorSpin S) (index : Nat) : Int × SelectorSpin S :=
  match findIndex s.toStreams index with
  | some i => (0, { s with toStreams := clearEntry s.toStreams i })
  | none => (notFound index, s)

/-- `camio_selector_spin_select`: "Start from the next stream to avoid starvation". -/
def camioSelectorSpinSelect (s : SelectorSpin S) (ready : Nat → S → Bool) (fuel : Nat) :
    Selected (SelectorSpin S) :=
  if s.streamCount = 0 then .fault
  else
    match selectLoop s.toStreams ready fuel 0 ((s.last + 1) % s.streamCount) with
    | some (i, index) => .returned index { s with last := i }
    | none => .waiting

/-! ## The seq selector -/

/-- `camio_selector_seq_t`. -/
structure SelectorSeq (S : Type _) extends Streams S

/-- `camio_selector_seq_construct`. -/
def camioSelectorSeqConstruct : SelectorSeq S := { emptyStreams with }

/-- `camio_selector_seq_insert`. -/
def camioSelectorSeqInsert (s : SelectorSeq S) (istream : Option S) (index : Nat) :
    Exit (Int × SelectorSeq S) :=
  (insertStream s.toStreams istream index).map fun (r, t) => (r, { s with toStreams := t })

/-- `camio_selector_seq_count`. -/
def camioSelectorSeqCount (s : SelectorSeq S) : Nat := s.streamAvail

/-- `camio_selector_seq_remove`. -/
def camioSelectorSeqRemove (s : SelectorSeq S) (index : Nat) : Int × SelectorSeq S :=
  match findIndex s.toStreams index with
  | some i => (0, { s with toStreams := clearEntry s.toStreams i })
  | none => (notFound index, s)

/-- `camio_selector_seq_select`: "Start from zero every time to ensure starvation". -/
def camioSelectorSeqSelect (s : SelectorSeq S) (ready : Nat → S → Bool) (fuel : Nat) :
    Selected (SelectorSeq S) :=
  match selectLoop s.toStreams ready fuel 0 0 with
  | some (_, index) => .returned index s
  | none => .waiting

/-! ## The poll selector -/

/-- `struct pollfd`, with the bit `POLLIN` of `events` and `revents`. -/
structure PollFd where
  fd : Int
  events : Bool
  revents : Bool
deriving DecidableEq

/-- `camio_selector_poll_t`. -/
structure SelectorPoll (S : Type _) extends Streams S where
  last : Nat
  fds : Vector PollFd maxStreams

/-- `camio_selector_poll_construct`, which leaves `fds` as `malloc` returned it. -/
def camioSelectorPollConstruct (fds : Vector PollFd maxStreams) : SelectorPoll S :=
  { emptyStreams with last := 0, fds := fds }

/-- `camio_selector_poll_insert`; `fd` is the descriptor of a stream. -/
def camioSelectorPollInsert (fd : S → Int) (s : SelectorPoll S) (istream : Option S)
    (index : Nat) : Exit (Int × SelectorPoll S) :=
  (insertStream s.toStreams istream index).map fun (r, t) =>
    match istream with
    | some stream =>
        if r = 0 then (r, { s with
          toStreams := t
          fds := s.fds.mapIdx fun i f =>
            if i = s.streamCount then { f with fd := fd stream, events := true } else f })
        else (r, s)
    | none => (r, s)

/-- `camio_selector_poll_count`. -/
def camioSelectorPollCount (s : SelectorPoll S) : Nat := s.streamAvail

/-- `camio_selector_poll_remove`. -/
def camioSelectorPollRemove (s : SelectorPoll S) (index : Nat) : Int × SelectorPoll S :=
  match findIndex s.toStreams index with
  | some i => (0, { s with
      toStreams := clearEntry s.toStreams i
      fds := s.fds.set i { s.fds[i] with fd := -1 } })
  | none => (notFound index, s)

/-- The loop of `camio_selector_poll_select` over `n` entries from `i` on. -/
def pollScan (s : SelectorPoll S) : (n i : Nat) → Option (Nat × Nat)
  | 0, _ => none
  | n + 1, i =>
      match s.slot i, s.fds[i]? with
      | some (index, _), some f =>
          if f.fd ≠ -1 ∧ f.revents then some (i, index) else pollScan s n (i + 1)
      | _, _ => pollScan s n (i + 1)

/-- What `poll` reports for the first `stream_count` descriptors. -/
def pollReport (s : SelectorPoll S) (revents : Nat → Bool) : SelectorPoll S :=
  { s with fds := s.fds.mapIdx fun i f =>
      if i < s.streamCount then { f with revents := revents i } else f }

/-- `camio_selector_poll_select`; `poll` is `none` if `poll` fails. -/
def camioSelectorPollSelect (s : SelectorPoll S) (poll : Option (Nat → Bool)) :
    Exit (Selected (SelectorPoll S)) :=
  match poll with
  | none => eprintfExit .fileRead "Poll failed with error =%s"
  | some revents =>
      let s := pollReport s revents
      if s.streamCount = 0 then .ok .fault
      else
        let first := (s.last + 1) % s.streamCount -- "to avoid starvation"
        match pollScan s (s.streamCount - first) first with
        | some (i, index) => .ok (.returned index { s with last := i })
        | none => .ok (.returned noIndex s) -- "Unreachable"

end Camio.Selector
