/-! # Levels of diagnostic records

The levels from the gravest to the finest, with their names in settings and their tags on records.
-/

namespace TrnComputer
set_option autoImplicit false

/-- How much a record matters. -/
inductive Level
  | critical | error | warning | info | debug | trace
  deriving DecidableEq, Repr, Inhabited

namespace Level

def all : List Level := [critical, error, warning, info, debug, trace]

def name : Level → String
  | critical => "critical"
  | error => "error"
  | warning => "warning"
  | info => "info"
  | debug => "debug"
  | trace => "trace"

def tag (level : Level) : String := level.name.toUpper

def ofName? (text : String) : Option Level := all.find? (·.name == text)

theorem ofName?_name (level : Level) : ofName? level.name = some level := by
  cases level <;> decide

/-- The level that a text names in either case. A warning may be called `warn`. -/
def read? (text : String) : Option Level :=
  let lower := text.toLower
  if lower == "warn" then some warning else ofName? lower

end Level

end TrnComputer
