/-
  Camio.Options.Parse

  `camio_options.c`: registering options, and parsing a command line.

  `opts` is the list of the options in the order in which they were added; `opts.count` is
  its length, and `opts.help` the variable of the last one once `camio_options_parse` has
  added it.  An option character is never `EOF`.
-/

import Camio.Lib.Except
import Camio.Lib.Getopt
import Camio.Options.Argument

namespace Camio.Options

open Camio.Lib Camio.Parsing Camio.Types

variable {F : Type} [Double F]

/-! ## Registering -/

/-- `camio_options_t` -/
structure CamioOptions (F : Type) where
  optDefs : List (OptDef F)
  unlimitedSet : Bool

/-- `opts` before the first option is added. -/
def CamioOptions.empty : CamioOptions F := { optDefs := [], unlimitedSet := false }

/-- The type of an option with its default value, of a list that of its first element. -/
inductive Default (F : Type) where
  | one (v : Value F)
  | many (v : Value F)
  | unknown (type : CamioType)

def Default.type : Default F → CamioType
  | .one v => .one v.elem
  | .many v => .many v.elem
  | .unknown type => type

/-- The arguments of `camio_options_add`. -/
structure Registration (F : Type) where
  mode : Mode
  shortStr : OptionChar
  longStr : CStr
  dflt : Default F

/-- What is checked of an option before it is populated. -/
def checkMode (unlimitedSet : Bool) (mode : Mode) (type : CamioType) : Except Stop Bool :=
  if mode = .flag ∧ type ≠ .one .bool then
    .error (.exit ⟨.none, "Flag options must be used with type CAMIO_BOOL\n"⟩)
  else if mode = .unlimited then
    if unlimitedSet then
      .error (.exit ⟨.none, "Unlimited options can only be used once!\n"⟩)
    else if isListType type then .ok true
    else .error (.exit ⟨.none,
      "Unlimited options must be used with a list type variable eg camio_list(string)\n"⟩)
  else .ok unlimitedSet

/-- The variable with its default value, which is the first element of a list. -/
def populate (A : BlockAllocator (Value F)) (option : UInt8) : Default F → Except Stop (Var F)
  | .one v => .ok (.one v)
  | .many v =>
      match listOf A v.elem.listName (fun _ => none) 512 [v] with
      | .ok s => .ok (.many v.elem s)
      | .error (.exit e) => .error (.exit e)
      | .error .wildStore => .error (.wild option)
  | .unknown _ => .error (.exit ⟨.none, "Unknown type %lu for option %s\n"⟩)

/-- The option that is added, once it is populated. -/
def Registration.optDef (r : Registration F) (var : Var F) : OptDef F :=
  { mode := r.mode, var := var, shortStr := r.shortStr, longStr := r.longStr, found := 0 }

/-- `camio_options_add`, where there is memory for the option itself. -/
def camioOptionsAdd (A : BlockAllocator (Value F)) (opts : CamioOptions F) (r : Registration F) :
    Except Stop (CamioOptions F) :=
  (checkMode opts.unlimitedSet r.mode r.dflt.type).bind fun unlimitedSet =>
    (populate A r.shortStr.byte r.dflt).map fun var =>
      { optDefs := opts.optDefs ++ [r.optDef var], unlimitedSet := unlimitedSet }

/-- Several options, one after the other. -/
def addOptions (A : BlockAllocator (Value F)) :
    CamioOptions F → List (Registration F) → Except Stop (CamioOptions F)
  | opts, [] => .ok opts
  | opts, r :: rs => (camioOptionsAdd A opts r).bind fun opts => addOptions A opts rs

/-- The option that `camio_options_parse` adds. -/
def helpOption : Registration F where
  mode := .flag
  shortStr := ⟨ch 'h', by decide, by decide, by decide, by decide⟩
  longStr := ⟨[ch 'h', ch 'e', ch 'l', ch 'p'], by decide⟩
  dflt := .one (.bool 0)

/-! ## The tables of `getopt_long` -/

/-- `!` of an `int`. -/
def cNot (v : Int) : Int := if v = 0 then 1 else 0

/-- `!` of the variable of a flag, which is one of an `int`. -/
def Var.cNot : Var F → Int
  | .one (.bool v) => Options.cNot v
  | _ => 0

/-- `generate_unix_opts`, from the `i`-th option on, with `used` characters in the string of
    1024 characters. -/
def generateUnixOpts : List (OptDef F) → (i used : Nat) →
    Except Stop (List UInt8 × List LongOption)
  | [], _, _ => .ok ([], [])
  | d :: ds, i, used =>
      -- the string is full: what follows gets no entry
      if 1024 ≤ used then .ok ([], [])
      else if d.mode = .flag then
        (generateUnixOpts ds (i + 1) (used + 1)).map fun (shortOpts, longOpts) =>
          (d.shortStr.byte :: shortOpts, ⟨d.longStr, false, some i, d.var.cNot⟩ :: longOpts)
      -- the colon would be stored behind the string
      else if 1024 ≤ used + 1 then .error (.wild d.shortStr.byte)
      else
        (generateUnixOpts ds (i + 1) (used + 2)).map fun (shortOpts, longOpts) =>
          (d.shortStr.byte :: ch ':' :: shortOpts,
            ⟨d.longStr, true, none, d.shortStr.byte.toNat⟩ :: longOpts)

/-! ## Parsing -/

/-- Store in the variable of a flag. -/
def OptDef.setFlag (d : OptDef F) (v : Int) : OptDef F := { d with var := .one (.bool v) }

/-- An `int` in a `char`. -/
def toChar (v : Int) : UInt8 := UInt8.ofInt v

/-- What a call of `getopt_long` returns, with what it has stored where `flag` points. -/
def returned (longOpts : List LongOption) (ds : List (OptDef F)) : Found → UInt8 × List (OptDef F)
  | .short c _ => (c, ds)
  | .unknown => (ch '?', ds)
  | .long index _ =>
      match longOpts[index]? with
      | none => (ch '?', ds)
      | some o =>
          -- 0 is returned where a variable has been stored in
          match o.flag with
          | none => (toChar o.val, ds)
          | some i => (0, ds.modify i (·.setFlag o.val))

/-- `optarg` after the call. -/
def optarg : Found → Option CStr
  | .short _ arg => arg
  | .long _ arg => arg
  | .unknown => none

/-- `opts.help` -/
def help (ds : List (OptDef F)) : Bool := ds.getLast?.any fun d => d.var.cNot = 0

/-- The error of an option that is given twice and takes one value. -/
def onlyOneInstance : String :=
  "Option --%s (-%c), only one instance expected but multiple found.\n"

/-- What `process_option` does with the option of the character. -/
def processFound (A : BlockAllocator (Value F)) (d : OptDef F) (arg : Option CStr) :
    Except Stop (OptDef F) :=
  let d := { d with found := d.found + 1 }
  if d.found > 1 ∧ isListType d.var.type = false then
    .error (d.usage onlyOneInstance)
  -- "invert the default value", though it may have been stored in already
  else if d.mode = .flag then .ok (d.setFlag d.var.cNot)
  else parseArgument A d arg

/-- `process_option` -/
def processOption (A : BlockAllocator (Value F)) (c : UInt8) (arg : Option CStr) :
    List (OptDef F) → Except Stop (List (OptDef F))
  | [] => .ok []
  | d :: ds =>
      if d.shortStr.byte = c then (processFound A d arg).map (· :: ds)
      else (processOption A c arg ds).map (d :: ·)

/-- What `camio_options_parse` does with one call of `getopt_long`. -/
def optionStep (A : BlockAllocator (Value F)) (longOpts : List LongOption) (found : Found)
    (ds : List (OptDef F)) : Except Stop (List (OptDef F)) :=
  let (c, ds) := returned longOpts ds found
  if c = ch 'h' ∨ help ds then .error (.usage none)
  else if c = ch '?' then
    .error (.usage (some ⟨"Unknown option or missing argument \"%s\"\n", none⟩))
  else processOption A c (optarg found) ds

/-- The loop of `camio_options_parse` over the calls of `getopt_long`. -/
def optionLoop (A : BlockAllocator (Value F)) (longOpts : List LongOption) :
    List Found → List (OptDef F) → Except Stop (List (OptDef F))
  | [], ds => .ok ds
  | found :: calls, ds => (optionStep A longOpts found ds).bind (optionLoop A longOpts calls)

/-- The loop over the remaining parameters, on the option that takes them. -/
def operandLoop (A : BlockAllocator (Value F)) :
    List CStr → OptDef F → Except Stop (OptDef F)
  | [], d => .ok d
  | arg :: args, d =>
      (parseArgument A { d with found := d.found + 1 } (some arg)).bind (operandLoop A args)

/-- The remaining parameters go to the first unlimited option. -/
def processOperands (A : BlockAllocator (Value F)) (args : List CStr) :
    List (OptDef F) → Except Stop (List (OptDef F))
  | [] => .error (.usage (some ⟨"Unknown option %s\n", none⟩))
  | d :: ds =>
      if d.mode = .unlimited then (operandLoop A args d).map (· :: ds)
      else (processOperands A args ds).map (d :: ·)

/-- The required options have been supplied. -/
def checkRequired (ds : List (OptDef F)) : Except Stop (List (OptDef F)) :=
  match ds.find? fun d => d.mode = .required ∧ d.found < 1 with
  | none => .ok ds
  | some d => .error (d.usage "Option --%s (-%c) is required but not supplied\n")

/-- What `camio_options_parse` works on: the options with the help option, the table of long
    options, and the command line as `getopt_long` divides it. -/
structure CommandLine (F : Type) where
  optDefs : List (OptDef F)
  longOpts : List LongOption
  tokens : List Token

/-- The preparations of `camio_options_parse`. -/
def commandLine (A : BlockAllocator (Value F)) (posixlyCorrect : Bool) (opts : CamioOptions F)
    (argv : List CStr) : Except Stop (CommandLine F) :=
  (camioOptionsAdd A opts helpOption).bind fun opts =>
    (generateUnixOpts opts.optDefs 0 0).map fun (shortOpts, longOpts) =>
      { optDefs := opts.optDefs, longOpts := longOpts
        tokens := Getopt.scan ⟨shortOpts, longOpts, posixlyCorrect⟩ argv.tail }

/-- The loops of `camio_options_parse`, and its last check. -/
def parseCommandLine (A : BlockAllocator (Value F)) (line : CommandLine F) :
    Except Stop (List (OptDef F)) :=
  ((optionLoop A line.longOpts (options line.tokens) line.optDefs).bind fun ds =>
    if operands line.tokens = [] then .ok ds
    else processOperands A (operands line.tokens) ds).bind checkRequired

/-- `camio_options_parse` -/
def camioOptionsParse (A : BlockAllocator (Value F)) (posixlyCorrect : Bool)
    (opts : CamioOptions F) (argv : List CStr) : Except Stop (List (OptDef F)) :=
  (commandLine A posixlyCorrect opts argv).bind (parseCommandLine A)

end Camio.Options
