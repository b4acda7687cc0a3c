import TrnComputer.CommandLine.Script
import TrnComputer.Control.Controller

/-! # What commands show

Words are shown in binary and as signed numbers. Registers are shown as lines, or as an object of
fields.
-/

namespace TrnComputer
set_option autoImplicit false

namespace Presentation

/-- A word in 20 binary digits, at the least, and as a signed number. -/
def word (value : Nat) : String :=
  Word.toBinary value 20 ++ " (" ++ Text.signedDecimal (Word.toInt value) ++ ")"

def address (value : Nat) : String :=
  String.ofList (Text.alignLeft ' ' 5 (Text.numeral 10 value))

def flag (b : Bool) : String := if b then "1" else "0"

def registerLines (r : Registers) : List String :=
  [s!"Clock: {Text.decimal r.clock}",
    s!"A:  {word r.a}",
    s!"X:  {word r.x}",
    s!"BR: {word r.br}",
    s!"IR: {word r.ir}",
    s!"PC: {address r.pc} SP: {address r.sp} I: {address r.i} AR: {Text.decimal r.ar}",
    s!"V={flag r.v} Z={flag r.z} S={flag r.s} H={flag r.h}"]

/-- Registers as an object. The phase is a text, all else are numbers and truth values. -/
def registerObject (r : Registers) : String :=
  JsonValue.renderFields (r.entries.map fun (name, value) =>
    (name, if name == "f" then "\"" ++ value ++ "\"" else value))

def lines : List String → Script Unit
  | [] => .done ()
  | text :: rest => .print (text ++ "\n") (lines rest)

def outputLine (value : Nat) : String := s!"📤 OUT {word value}"

def failure (text : String) : String := s!"❌ {text}"

def warning (text : String) : String := s!"⚠️  {text}"

def ending : Except MachineError Termination → String
  | .ok .halted => "State: halted"
  | .ok .interrupted => "State: interrupted"
  | .ok .cycleLimit => "State: cycle limit reached"
  | .error cause => s!"State: error ({cause.message})"

end Presentation

/-! ## Failures -/

def failureStatus : Nat := 1

/-- The state of a command between two turns: a session, or the exit status. -/
inductive Progress (σ : Type)
  | going (session : σ)
  | ended (status : Nat)

def failWith {σ : Type} (text : String) : Script (Progress σ) :=
  .complain (Presentation.failure text) (.done (.ended failureStatus))

end TrnComputer
