/-
  Camio.Descr.Parse

  `camio_descr.c`: stream descriptions
  `protocol[:query][,opt_name1=value][,opt_name2=value][...]`.

  The parser moves `head_ptr`/`tail_ptr` over the description string; here they
  are indices into a `CStr`, and a character read behind the terminator is the
  fault `outOfBounds`.  Option nodes are allocated on `heap`; `opt_head` and
  `next` are positions in it, `none` standing for `NULL`.  Allocations succeed.
-/

import Camio.Errors
import Camio.Lib.CStr

namespace Camio.Descr

open Camio.Lib

/-- `struct camio_opt_t`. -/
structure CamioOpt where
  name : Option (List UInt8)
  value : Option (List UInt8)
  next : Option Nat
deriving DecidableEq, Repr

/-- `camio_descr_t`, with the option nodes allocated for it. -/
structure CamioDescr where
  protocol : Option (List UInt8)
  query : Option (List UInt8)
  optHead : Option Nat
  heap : List CamioOpt
deriving DecidableEq, Repr

/-- Why the parser does not return `CAMIO_ERR_NONE`. -/
inductive ParseFault where
  | exit (e : ErrorExit)
  | outOfBounds
deriving DecidableEq, Repr

/-- `camio_descr_construct`. -/
def camioDescrConstruct : CamioDescr :=
  { protocol := none, query := none, optHead := none, heap := [] }

abbrev colon : UInt8 := 58
abbrev comma : UInt8 := 44
abbrev equals : UInt8 := 61

/-- Stop characters of the protocol scan. -/
def stopProtocol (c : UInt8) : Bool := c == colon || c == comma || c == 0

/-- Stop characters of the query and option value scans. -/
def stopComma (c : UInt8) : Bool := c == comma || c == 0

/-- Stop characters of the option name scan. -/
def stopEquals (c : UInt8) : Bool := c == equals || c == 0

/-- Allocate an option node, make it the list head if there is none yet, and
    point the previous node at it. -/
def linkOpt (d : CamioDescr) (prev : Option Nat) (opt : CamioOpt) : CamioDescr :=
  let heap :=
    match prev with
    | none => d.heap
    | some p => d.heap.modify p fun n => { n with next := some d.heap.length }
  { d with
    optHead := d.optHead.or (some d.heap.length)
    heap := heap ++ [opt] }

/-- `if(opt) opt->next = NULL`. -/
def terminateOpts (d : CamioDescr) (opt : Option Nat) : CamioDescr :=
  match opt with
  | none => d
  | some p => { d with heap := d.heap.modify p fun n => { n with next := none } }

/-- The `while(1)` loop of `parse_options`, `head` standing on a `','` or on the
    terminator.  `prev` is the node of the previous turn.  Every turn moves
    `head` forward, so the length of the string is enough fuel. -/
def parseOptions (s : CStr) :
    Nat → Nat → CamioDescr → Option Nat → Except ParseFault (CamioDescr × Option Nat)
  | 0, _, _, _ => .error .outOfBounds
  | fuel + 1, head, d, prev =>
      match s.charAt head with
      | none => .error .outOfBounds
      | some c =>
        if c = 0 then .ok (d, prev) -- at the end of the options list
        else
          match s.scan stopEquals (s.length + 1) (head + 1) with
          | none => .error .outOfBounds
          | some eq =>
            if s.charAt eq = some 0 then
              .error (.exit ⟨.incompleteOpt, "Unexpected end of option string \"%s\"\n"⟩)
            else
              match s.scan stopComma (s.length + 1) (eq + 1) with
              | none => .error .outOfBounds
              | some stop =>
                let opt := d.heap.length
                let d := linkOpt d prev
                  { name := some (s.slice (head + 1) eq)
                    value := some (s.slice (eq + 1) stop)
                    next := none }
                if s.charAt stop = some 0 then .ok (d, some opt)
                else parseOptions s fuel stop d (some opt)

/-- The label `parse_options` and what follows it. -/
def parseOptionList (s : CStr) (head : Nat) (d : CamioDescr) :
    Except ParseFault CamioDescr :=
  match parseOptions s (s.length + 1) head d none with
  | .error e => .error e
  | .ok (d, opt) => .ok (terminateOpts d opt)

/-- `camio_descr_parse`; `.ok` is the return value `CAMIO_ERR_NONE`. -/
def camioDescrParse (s : CStr) (outDescr : Option CamioDescr) :
    Except ParseFault CamioDescr :=
  match outDescr with
  | none => .error (.exit ⟨.nullPtr, "No output struct supplied\n"⟩)
  | some d =>
    if s.charAt 0 = some 0 then
      .error (.exit ⟨.incompleteOpt, "Unexpected end of description string \"%s\"\n"⟩)
    else
      match s.scan stopProtocol (s.length + 1) 0 with
      | none => .error .outOfBounds
      | some head =>
        let d := { d with protocol := some (s.slice 0 head) }
        if s.charAt head = some 0 then .ok d -- there is nothing left to parse
        else if s.charAt head = some comma then parseOptionList s head d
        else
          match s.scan stopComma (s.length + 1) (head + 1) with
          | none => .error .outOfBounds
          | some stop =>
            parseOptionList s stop { d with query := some (s.slice (head + 1) stop) }

/-- Follow `next` from a node on and collect names and values. -/
def walkOpts (heap : List CamioOpt) :
    Nat → Option Nat → List (Option (List UInt8) × Option (List UInt8))
  | 0, _ => []
  | _ + 1, none => []
  | fuel + 1, some p =>
      match heap[p]? with
      | none => []
      | some n => (n.name, n.value) :: walkOpts heap fuel n.next

/-- The option list that hangs off `opt_head`. -/
def CamioDescr.options (d : CamioDescr) : List (Option (List UInt8) × Option (List UInt8)) :=
  walkOpts d.heap d.heap.length d.optHead

/-- With a query, a stream's check for one passes. -/
theorem CamioDescr.not_isNone_query {d : CamioDescr} (h : d.query.isSome) :
    ¬ d.query.isNone = true := by
  rw [Option.isNone_iff_eq_none]
  exact Option.isSome_iff_ne_none.mp h

end Camio.Descr
