/-! # Faults of files

* `FileFault`: why a file cannot be used.
* `FileFault.message`: its wording, with the number that the system gives it.
-/

namespace TrnComputer
set_option autoImplicit false

/-- Why a file cannot be used. -/
inductive FileFault
  | missing
  /-- The device fails. -/
  | unavailable
  /-- There is nothing at the other end of the device. -/
  | unconnected
  | denied
  | notADirectory
  | isADirectory
  | noSpace
  | nameTooLong
  | notText
  deriving DecidableEq, Repr

def FileFault.message : FileFault → String
  | missing => "No such file or directory (os error 2)"
  | unavailable => "Input/output error (os error 5)"
  | unconnected => "No such device or address (os error 6)"
  | denied => "Permission denied (os error 13)"
  | notADirectory => "Not a directory (os error 20)"
  | isADirectory => "Is a directory (os error 21)"
  | noSpace => "No space left on device (os error 28)"
  | nameTooLong => "File name too long (os error 36)"
  | notText => "stream did not contain valid UTF-8"

end TrnComputer
