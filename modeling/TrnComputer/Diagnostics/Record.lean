import TrnComputer.Diagnostics.Level

/-! # Diagnostic records

The parts of the program report what they do as records: a level, a message, and fields by name.
The field `stage` tells which part a record comes from.
-/

namespace TrnComputer
set_option autoImplicit false

/-- One report. -/
structure Record where
  level : Level
  message : String
  fields : List (String × String)
  deriving DecidableEq, Repr

namespace Record

def ofStage (stage : String) (level : Level) (message : String)
    (fields : List (String × String)) : Record :=
  ⟨level, message, ("stage", stage) :: fields⟩

end Record

end TrnComputer
