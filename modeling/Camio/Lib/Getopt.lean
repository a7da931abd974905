/-
  Camio.Lib.Getopt

  The options of a command line, as GNU `getopt_long` takes them from `argv`.

  `scan` divides the elements of `argv` into options with their arguments and operands, in
  the order in which they stand.  The successive calls of `getopt_long` return the options in
  this order, and it moves the operands behind them.  It stops at the first operand if the
  option characters begin with `'+'` or the environment asks for it; option characters that
  begin with `'-'` are not modelled.
-/

import Camio.Lib.CStr

namespace Camio.Lib

/-- The rest of a string behind its first `n` characters. -/
def CStr.drop (s : CStr) (n : Nat) : CStr :=
  ⟨s.bytes.drop n, fun h => s.noNul (List.mem_of_mem_drop h)⟩

/-- `struct option`.  A flag is the number of the variable that is pointed to. -/
structure LongOption where
  name : CStr
  hasArg : Bool
  flag : Option Nat
  val : Int

/-- What `getopt_long` is given, and whether it stops at the first operand. -/
structure Getopt where
  optstring : List UInt8
  longopts : List LongOption
  posixlyCorrect : Bool

/-- What a call finds: an option character, a long option by its index, or neither. -/
inductive Found where
  | short (c : UInt8) (optarg : Option CStr)
  | long (index : Nat) (optarg : Option CStr)
  | unknown

/-- A part of the command line. -/
inductive Token where
  | option (found : Found)
  | operand (arg : CStr)

/-- An element of `argv`: what is found in it, and the option that the next element is the
    argument of. -/
structure Element where
  found : List Found
  waiting : Option (Option CStr → Found)

def hyphen : UInt8 := 45

def colon : UInt8 := 58

def equalsSign : UInt8 := 61

def plus : UInt8 := 43

namespace Getopt

/-- The option characters, with a colon behind those that take an argument. -/
def characters (g : Getopt) : List UInt8 :=
  if g.optstring.head? = some plus then g.optstring.tail else g.optstring

/-- Whether the option takes an argument; `none` if there is no such option. -/
def takesArg (g : Getopt) (c : UInt8) : Option Bool :=
  if c = colon then none
  else
    match g.characters.dropWhile (· ≠ c) with
    | [] => none
    | _ :: rest => some (rest.head? = some colon)

/-- The option characters of an element, from its `n`-th character on. -/
def cluster (g : Getopt) (arg : CStr) : (n : Nat) → List UInt8 → Element
  | _, [] => ⟨[], none⟩
  | n, c :: cs =>
      match g.takesArg c with
      | some true =>
          -- the rest of the element is the argument, if there is a rest
          if cs = [] then ⟨[], some (.short c)⟩
          else ⟨[.short c (some (arg.drop (n + 1)))], none⟩
      | some false =>
          let rest := g.cluster arg (n + 1) cs
          ⟨.short c none :: rest.found, rest.waiting⟩
      | none =>
          let rest := g.cluster arg (n + 1) cs
          ⟨.unknown :: rest.found, rest.waiting⟩

/-- The index of the long option with this name, or with the only name that begins so. -/
def findLong (g : Getopt) (name : List UInt8) : Option Nat :=
  match g.longopts.findIdx? (·.name.bytes = name) with
  | some i => some i
  | none =>
      -- an abbreviation, unless it is ambiguous
      match (g.longopts.filter (name.isPrefixOf ·.name.bytes)).length with
      | 1 => g.longopts.findIdx? (name.isPrefixOf ·.name.bytes)
      | _ => none

/-- An element that begins with two hyphens. -/
def longElement (g : Getopt) (arg : CStr) : Element :=
  let body := arg.bytes.drop 2
  let name := body.takeWhile (· ≠ equalsSign)
  let value := if name = body then none else some (arg.drop (2 + name.length + 1))
  match g.findLong name with
  | none => ⟨[.unknown], none⟩
  | some i =>
      match g.longopts[i]?.map (·.hasArg), value with
      | some true, some value => ⟨[.long i (some value)], none⟩
      | some true, none => ⟨[], some (.long i)⟩
      | some false, none => ⟨[.long i none], none⟩
      | _, _ => ⟨[.unknown], none⟩

/-- The element is one of options. -/
def isOption (arg : CStr) : Bool := arg.bytes.head? = some hyphen ∧ arg.bytes ≠ [hyphen]

def element (g : Getopt) (arg : CStr) : Element :=
  if arg.bytes[1]? = some hyphen then g.longElement arg else g.cluster arg 1 (arg.bytes.drop 1)

/-- The elements of `argv` behind the name of the program. -/
def scan (g : Getopt) : List CStr → List Token
  | [] => []
  | arg :: args =>
      -- `--` itself is passed over
      if arg.bytes = [hyphen, hyphen] then args.map .operand
      else if isOption arg then
        match (g.element arg).waiting, args with
        | none, args => (g.element arg).found.map .option ++ scan g args
        -- the argument is missing
        | some _, [] => (g.element arg).found.map .option ++ [.option .unknown]
        | some option, next :: args =>
            (g.element arg).found.map .option ++ .option (option (some next)) :: scan g args
      else if g.posixlyCorrect ∨ g.optstring.head? = some plus then (arg :: args).map .operand
      else .operand arg :: scan g args

end Getopt

/-- What the calls of `getopt_long` find, one after the other. -/
def options (tokens : List Token) : List Found :=
  tokens.filterMap fun
    | .option found => some found
    | .operand _ => none

/-- The elements of `argv` from `optind` on, when no option is left. -/
def operands (tokens : List Token) : List CStr :=
  tokens.filterMap fun
    | .option _ => none
    | .operand arg => some arg

end Camio.Lib
