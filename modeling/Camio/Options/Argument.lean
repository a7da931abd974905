/-
  Camio.Options.Argument

  `camio_options.c`: the options, and what their arguments are read as.

  The type of an option and its variable are one datum here, so they always agree.  A list
  has a heap of its own.  `print_usage` ends the program, as do the exits of the lists.
-/

import Camio.Parsing.Acceptance
import Camio.Types.Lists

namespace Camio.Options

open Camio.Lib Camio.Parsing Camio.Types

/-- The types of single values. -/
inductive Elem where
  | bool
  | uint64
  | int64
  | string
  | double
deriving DecidableEq

/-- `camio_types_e`, the list types by their elements. -/
inductive CamioType where
  | noType
  | one (elem : Elem)
  | many (elem : Elem)
  | istream
  | ostream
deriving DecidableEq

/-- The name that the list functions of the type have. -/
def Elem.listName : Elem → ListName
  | .bool => .bool
  | .uint64 => .uint64
  | .int64 => .int64
  | .string => .string
  | .double => .double

variable {F : Type} [Double F]

/-- A value of any type. -/
inductive Value (F : Type) where
  | bool (v : Int)
  | uint64 (v : Nat)
  | int64 (v : Int)
  | string (v : CStr)
  | double (v : F)

def Value.elem : Value F → Elem
  | .bool _ => .bool
  | .uint64 _ => .uint64
  | .int64 _ => .int64
  | .string _ => .string
  | .double _ => .double

/-- The variable of an option: a value, or a list. -/
inductive Var (F : Type) where
  | one (v : Value F)
  | many (elem : Elem) (list : CamioList × Heap (Value F))

def Var.elem : Var F → Elem
  | .one v => v.elem
  | .many elem _ => elem

def Var.type : Var F → CamioType
  | .one v => .one v.elem
  | .many elem _ => .many elem

/-- `camio_options_mode_e` -/
inductive Mode where
  | required
  | optional
  | unlimited
  | flag
deriving DecidableEq

/-- A character that may stand for an option: a visible one, and neither `'-'` nor `':'` nor
    `';'`. -/
structure OptionChar where
  byte : UInt8
  visible : 33 ≤ byte.toNat ∧ byte.toNat ≤ 126
  ne_hyphen : byte ≠ ch '-'
  ne_colon : byte ≠ ch ':'
  ne_semicolon : byte ≠ ch ';'

/-- `camio_options_opt_t`, less its description. -/
structure OptDef (F : Type) where
  mode : Mode
  var : Var F
  shortStr : OptionChar
  longStr : CStr
  found : Nat

/-- The arguments of `print_usage`: its format string, and the option that it is about. -/
structure UsageError where
  format : String
  option : Option UInt8
deriving DecidableEq

/-- Why a function does not return: `print_usage` (of `NULL`, if there is no error), an
    error exit, or an access out of bounds on behalf of an option. -/
inductive Stop where
  | usage (error : Option UsageError)
  | exit (e : ErrorExit)
  | wild (option : UInt8)
deriving DecidableEq

/-- `print_usage` of an error of this option. -/
def OptDef.usage (d : OptDef F) (format : String) : Stop :=
  .usage (some ⟨format, some d.shortStr.byte⟩)

/-- `is_list_type` -/
def isListType (type : CamioType) : Bool :=
  type = .many .bool ∨ type = .many .int64 ∨ type = .many .string ∨ type = .many .uint64

/-- `parse_bool`; `none` where it would read behind the terminator. -/
def parseBool (s : CStr) (i : Nat) : Option (NumResult F) :=
  match s.scan (fun c => !isWhite c) (s.length + 1) i with
  | none => none
  | some i => (s.charAt i).map fun c =>
      if c = 0 then .noType
      else if c = ch '1' ∨ c = ch 'T' ∨ c = ch 't' then .int64 1
      else if c = ch '0' ∨ c = ch 'F' ∨ c = ch 'f' then .int64 0
      else .noType

/-- The member `val_int` of a union that holds `val_uint`. -/
def intOfUint (v : Nat) : Int := (v : Int).bmod (2 ^ 64)

/-- An `int64_t` of what the number parser has returned. -/
def int64Of (d : OptDef F) : NumResult F → Except Stop (Value F)
  -- only the type is promoted, the member is not converted
  | .uint64 v => .ok (.int64 (intOfUint v))
  | .int64 v => .ok (.int64 v)
  | _ => .error (d.usage "Option --%s (-%c) Expected argument of type INT64 but \"%s\" found\n")

/-- A `uint64_t`. -/
def uint64Of (d : OptDef F) : NumResult F → Except Stop (Value F)
  | .uint64 v => .ok (.uint64 v)
  | _ => .error (d.usage "Option  --%s (-%c) Expected argument of type UINT64 but \"%s\" found\n")

/-- A `double`.  The branch for `CAMIO_INT64` tests for `CAMIO_UINT64` once more, and a list
    is given the member `val_dble`, whatever the union holds. -/
def doubleOf (d : OptDef F) : NumResult F → Except Stop (Value F)
  | .double v => .ok (.double v)
  | .uint64 v =>
      match d.var with
      | .one _ => .ok (.double (Double.ofInt (intOfUint v)))
      | .many _ _ => .ok (.double (Double.ofBits v))
  | _ => .error (d.usage "Option --%s (-%c) Expected argument of type DOUBLE but \"%s\" found\n")

/-- An `int` of what `parse_bool` has returned. -/
def boolOf (d : OptDef F) : NumResult F → Except Stop (Value F)
  | .int64 v => .ok (.bool v)
  | _ => .error (d.usage "Option --%s (-%c) Expected argument of type BOOL but \"%s\" found\n")

/-- What the cases that call a parser have in common. -/
def readResult (d : OptDef F) (optarg : Option CStr) (noArgument : String)
    (parse : CStr → Option (NumResult F)) (convert : NumResult F → Except Stop (Value F)) :
    Except Stop (Value F) :=
  match optarg with
  | none => .error (d.usage noArgument)
  | some arg =>
      match parse arg with
      -- the parser has left the argument
      | none => .error (.wild d.shortStr.byte)
      | some r => convert r

/-- The value that `parse_argument` assigns, or adds to a list. -/
def readArgument (d : OptDef F) (optarg : Option CStr) : Except Stop (Value F) :=
  match d.var.elem with
  | .int64 =>
      readResult d optarg "Option --%s (-%c) Expected argument of type INT64 but none found.\n"
        (parseNumber · 0 F) (int64Of d)
  | .uint64 =>
      readResult d optarg "Option  --%s (-%c) Expected argument of type UINT64 but none found.\n"
        (parseNumber · 0 F) (uint64Of d)
  | .double =>
      readResult d optarg "Option --%s (-%c) Expected argument of type DOUBLE but none found.\n"
        (parseNumber · 0 F) (doubleOf d)
  | .bool =>
      readResult d optarg "Option --%s (-%c) Expected argument of type BOOL but none found.\n"
        (parseBool · 0) (boolOf d)
  | .string =>
      match optarg with
      | none =>
          .error (d.usage "Option --%s (-%c) Expected argument of type STRING but none found.\n")
      | some arg => .ok (.string arg)

/-- A call of a list function, made for an option. -/
def OptDef.listCall {α : Type} (d : OptDef F) : Except ListFault α → Except Stop α
  | .ok a => .ok a
  | .error (.exit e) => .error (.exit e)
  | .error .wildStore => .error (.wild d.shortStr.byte)

/-- Assign the value, or add it to the list.  A list of strings is emptied before the first
    one that is found is added. -/
def storeArgument (A : BlockAllocator (Value F)) (d : OptDef F) (v : Value F) :
    Except Stop (OptDef F) :=
  match d.var with
  | .one _ => .ok { d with var := .one v }
  | .many elem (list, h) =>
      -- the default value is removed here, and in no other case
      let list := if elem = .string ∧ d.found = 1 then { list with count := 0 } else list
      (d.listCall (camioListAdd A elem.listName (list, h) v)).map fun s =>
        { d with var := .many elem s }

/-- `parse_argument` -/
def parseArgument (A : BlockAllocator (Value F)) (d : OptDef F) (optarg : Option CStr) :
    Except Stop (OptDef F) :=
  (readArgument d optarg).bind (storeArgument A d)

end Camio.Options
