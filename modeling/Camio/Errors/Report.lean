/-
  Camio.Errors.Report

  `_eprintf_exit` of `camio_errors.c`, which `eprintf_exit` and `wprintf` call: it puts a
  header in front of the caller's format and prints the two as one format.

  The block for them has room for both texts, but not for the terminator that `strcpy`
  stores behind the second.
-/

import Camio.Errors
import Camio.Lib.Printf

namespace Camio

open Camio.Lib

/-- `CAMIO_ERR` -/
def camioErr : Int := 0

/-- `CAMIO_WARN` -/
def camioWarn : Int := 1

/-- `CAMIO_DBG` -/
def camioDbg : Int := 2

/-- The numbers `CAMIO_ERR_*`. -/
def CamioErr.number : CamioErr → Nat
  | .none => 0x00
  | .nullPtr => 0x01
  | .incompleteOpt => 0x02
  | .unknownOpt => 0x03
  | .fileOpen => 0x04
  | .fileRead => 0x05
  | .notImpl => 0x0A
  | .ioctl => 0x0B
  | .socket => 0x0C
  | .bind => 0x0D
  | .rcv => 0x0E
  | .send => 0x0F
  | .fileWrite => 0x12
  | .sockOpt => 0x13

/-- `camio_error_to_str` -/
def camioErrorToStr (camioErr : Nat) : CStr :=
  match camioErr with
  | 0x00 => lit "no error"
  | 0x01 => lit "null pointer"
  | 0x02 => lit "incomplete option"
  | 0x03 => lit "unknown option"
  | 0x04 => lit "open file"
  | 0x05 => lit "read file"
  | 0x06 => lit "file flags"
  | 0x07 => lit "unknown istream"
  | 0x08 => lit "unknown ostream"
  | 0x09 => lit "unknown iostream"
  | 0x0A => lit "not implemented"
  | 0x0B => lit "ioctl fail"
  | 0x0C => lit "socket fail"
  | 0x0D => lit "bind fail"
  | 0x0E => lit "receive fail"
  | 0x0F => lit "send fail"
  | 0x10 => lit "lseek file"
  | 0x11 => lit "mmap fail"
  | 0x12 => lit "write file"
  | 0x13 => lit "set socket option"
  | 0x14 => lit "buffer overrun"
  | 0x15 => lit "streams overrun"
  | 0x16 => lit "unknown selector"
  | 0x17 => lit "unknown clock"
  | 0x18 => lit "not an ERF"
  | _ => lit "UNKNOWN ERROR CODE"

/-- `err_txt`.  The text chosen first, "Error" for `CAMIO_ERR`, is overwritten. -/
def errTxt (errType : Int) : CStr := if errType = camioDbg then lit "Debug" else lit "Warning"

/-- The header: `"Fe2+ %s (0x%02X) [%s:%d] <%s>: "` with its arguments.  The error number is
    an `int` that `camio_error_to_str` takes as a `uint64_t`. -/
def errHeader (errType errorNo lineNo : Int) (file : CStr) : CStr :=
  printed [.text (lit "Fe2+ "), .str (errTxt errType), .text (lit " (0x"), .hex errorNo,
    .text (lit ") ["), .str file, .text (lit ":"), .int lineNo, .text (lit "] <"),
    .str (camioErrorToStr (errorNo % 2 ^ 64).toNat), .text (lit ">: ")]

/-- What `_eprintf_exit` has done when it prints: the block it has allocated at
    `fullFormat`, its stores into it, and the memory behind them. -/
structure Report where
  fullFormat : Nat
  size : Nat
  stores : List Store
  mem : Mem

/-- How a call of `_eprintf_exit` ends: whether it ends the program, and the report, if there
    is memory for one. -/
structure Reported where
  exits : Bool
  report : Option Report

/-- `_eprintf_exit`.  `block` is what `malloc` returned, `cut` what `sprintf` stores of a
    header whose length is no `int`. -/
def _eprintfExit (errType errorNo lineNo : Int) (file format : CStr) (block : Option Nat)
    (cut : List UInt8) (m : Mem) : Reported :=
  let header := errHeader errType errorNo lineNo file
  let errStrFullLen := printfResult header
  match block with
  | none => { exits := true, report := none } -- "Catch the double fault"
  | some fullFormat =>
      let stores : List Store :=
        [{ offset := 0, bytes := if errStrFullLen < 0 then cut else strcpyBytes header },
          { offset := errStrFullLen, bytes := strcpyBytes format }]
      { exits := errType = camioErr
        report := some
          { fullFormat := fullFormat
            size := ((errStrFullLen + format.length) % 2 ^ 64).toNat
            stores := stores
            mem := stores.foldl (fun m s => m.store fullFormat s) m } }

/-- `eprintf_exit` does not return, as `eprintfExit` has it. -/
theorem _eprintfExit_exits (errorNo lineNo : Int) (file format : CStr) (block : Option Nat)
    (cut : List UInt8) (m : Mem) :
    (_eprintfExit camioErr errorNo lineNo file format block cut m).exits = true := by
  cases block with
  | none => rfl
  | some fullFormat => rfl

/-- `wprintf` returns, unless there is no memory for its text. -/
theorem _eprintfExit_warn (errorNo lineNo : Int) (file format : CStr) (block : Option Nat)
    (cut : List UInt8) (m : Mem) :
    (_eprintfExit camioWarn errorNo lineNo file format block cut m).exits = block.isNone := by
  cases block with
  | none => rfl
  | some fullFormat => rfl

/-- "REMEMBER to update camio_error_to_str as well." -/
theorem camioErrorToStr_number (e : CamioErr) :
    (camioErrorToStr e.number).bytes ≠ (lit "UNKNOWN ERROR CODE").bytes := by
  cases e <;> decide

/-! ## What is printed, and where it is stored -/

/-- What is to be true of a report: all its stores lie inside the block, and what is then
    used as a format is the header with the caller's format behind it. -/
structure Report.Sound (r : Report) (header format : CStr) : Prop where
  inside : ∀ s ∈ r.stores, s.Inside r.size
  text : HoldsString r.mem r.fullFormat (header.append format)

section Reporting

variable {errType errorNo lineNo : Int} {file format : CStr} {fullFormat : Nat} {cut : List UInt8}
  {m : Mem} {r : Report}

theorem printfResult_of_lt {text : CStr} (h : text.length < 2 ^ 31) :
    printfResult text = text.length := if_pos h

/-- The terminator behind the caller's format is not inside the block. -/
theorem strcpy_not_inside (errStrFullLen : Int) (format : CStr) :
    ¬ Store.Inside ⟨errStrFullLen, strcpyBytes format⟩
      ((errStrFullLen + format.length) % 2 ^ 64).toNat := by
  intro h
  -- it is the last byte stored
  have hterminator : format.length < (strcpyBytes format).length := by
    rw [strcpyBytes_length]
    exact Nat.lt_succ_self _
  obtain ⟨hnonneg, hlt⟩ := h format.length hterminator
  dsimp only at hnonneg hlt
  omega

/-- A header whose length is an `int` is followed by the caller's format. -/
theorem report_text (hint : (errHeader errType errorNo lineNo file).length < 2 ^ 31)
    (h : (_eprintfExit errType errorNo lineNo file format (some fullFormat) cut m).report
      = some r) :
    HoldsString r.mem r.fullFormat ((errHeader errType errorNo lineNo file).append format) := by
  have hlen := printfResult_of_lt hint
  obtain rfl := Option.some.inj h
  dsimp only [List.foldl]
  rw [hlen, if_neg (by omega)]
  exact holdsString_append m fullFormat _ format

/-- One byte more, and all stores would be inside. -/
theorem report_inside_succ (hint : (errHeader errType errorNo lineNo file).length < 2 ^ 31)
    (hsize : (errHeader errType errorNo lineNo file).length + format.length < 2 ^ 64)
    (h : (_eprintfExit errType errorNo lineNo file format (some fullFormat) cut m).report
      = some r) :
    ∀ s ∈ r.stores, s.Inside (r.size + 1) := by
  have hlen := printfResult_of_lt hint
  obtain rfl := Option.some.inj h
  dsimp only
  rw [hlen, if_neg (by omega)]
  have hheader := strcpyBytes_length (errHeader errType errorNo lineNo file)
  have hformat := strcpyBytes_length format
  refine List.forall_mem_cons.mpr ⟨?_, List.forall_mem_singleton.mpr ?_⟩
  · intro i hi
    dsimp only at hi ⊢
    omega
  · intro i hi
    dsimp only at hi ⊢
    omega

/-- Whatever the report, unless there is no memory for it, a store leaves the block. -/
theorem report_sound_iff (errType errorNo lineNo : Int) (file format : CStr)
    (block : Option Nat) (cut : List UInt8) (m : Mem) :
    (∀ r, (_eprintfExit errType errorNo lineNo file format block cut m).report = some r →
      r.Sound (errHeader errType errorNo lineNo file) format) ↔ block = none := by
  cases block with
  | none => exact iff_of_true (fun r h => absurd h.symm (Option.some_ne_none r)) rfl
  | some fullFormat =>
      refine iff_of_false (fun h => ?_) (Option.some_ne_none fullFormat)
      have hsound := h _ rfl
      exact strcpy_not_inside _ format
        (hsound.inside _ (List.mem_cons_of_mem _ List.mem_cons_self))

end Reporting

/-- `eprintf_exit(CAMIO_ERR_NULL_PTR, "x")` in line 1 of a file `f`. -/
theorem report_sound_fails_x :
    ¬ ∀ (errType errorNo lineNo : Int) (file format : CStr) (fullFormat : Nat)
      (cut : List UInt8) (m : Mem) (r : Report),
      (_eprintfExit errType errorNo lineNo file format (some fullFormat) cut m).report = some r →
        r.Sound (errHeader errType errorNo lineNo file) format := by
  intro hall
  have hsound := hall camioErr 1 1 (lit "f") (lit "x") 4096 [] (fun _ => 0) _ rfl
  exact strcpy_not_inside _ (lit "x")
    (hsound.inside _ (List.mem_cons_of_mem _ List.mem_cons_self))

end Camio
