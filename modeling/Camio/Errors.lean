/-
  Camio.Errors

  The error reporting of `camio_errors.h`: `eprintf_exit` prints a message and
  ends the process, so a function that can reach it returns in `Exit`.  The
  warnings of `wprintf` print and return; they leave no trace in the model.
-/

namespace Camio

/-- The error numbers `CAMIO_ERR_*` that the modelled functions exit with. -/
inductive CamioErr where
  | none
  | nullPtr
  | incompleteOpt
  | unknownOpt
  | fileOpen
  | fileRead
  | notImpl
  | ioctl
  | socket
  | bind
  | rcv
  | send
  | fileWrite
  | sockOpt
deriving DecidableEq, Repr

/-- The arguments of an `eprintf_exit` call: error number and format string. -/
structure ErrorExit where
  errNo : CamioErr
  format : String
deriving DecidableEq, Repr

/-- The result of a function that may end the process. -/
abbrev Exit (α : Type _) := Except ErrorExit α

/-- The result of a call that may end the process, and that is `none` while it waits. -/
abbrev Call (α : Type _) := Exit (Option α)

/-- `eprintf_exit` does not return. -/
def eprintfExit {α : Type _} (errNo : CamioErr) (format : String) : Exit α :=
  .error ⟨errNo, format⟩

end Camio
