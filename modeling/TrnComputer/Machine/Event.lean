import TrnComputer.Instruction.Operation
import TrnComputer.Machine.Movement
import TrnComputer.Memory

/-! # Events and errors of the machine

* `Event`: what a listener is told.
* `LogLine`: the written form of a movement.
* `Fault`, `MachineError`: why the machine stops, and why it does not go.
-/

namespace TrnComputer
set_option autoImplicit false

/-! ## Events -/

/-- What the machine reports while it works. -/
inductive Event
  | cell (address value : Nat) (access : Access)
  | register (register : Register) (value : Nat) (access : Access)
  /-- A phase begins. -/
  | tick (clock : Nat)
  /-- A value moves. -/
  | moved (clock : Nat) (movement : Movement) (value : Nat)
  | output (value : Nat)
  | inputRequested
  | stopped (message : String)
  | halted
  deriving DecidableEq, Repr

/-- A line of the log: when, what, and the value. -/
structure LogLine where
  clock : Nat
  description : String
  value : String
  deriving DecidableEq, Repr

/-- The text of a line: the clock to the right in six places, the description to the left in
twenty-four. -/
def LogLine.render (line : LogLine) : String :=
  let clock := Text.alignRight ' ' 6 (Text.numeral 10 line.clock)
  let description := Text.alignLeft ' ' 24 line.description.toList
  String.ofList ('[' :: clock ++ ']' :: ' ' :: description ++ ' ' :: line.value.toList)

def Movement.logLine (movement : Movement) (clock value : Nat) : LogLine :=
  ⟨clock, movement.description, Word.toBinary value movement.width⟩

/-! ## Errors -/

/-- Whether the machine can go on. -/
inductive Status
  | running | halted | faulted
  deriving DecidableEq, Repr, Inhabited

def Status.name : Status → String
  | running => "Running"
  | halted => "Halted"
  | faulted => "Error"

/-- Why an instruction cannot be carried out. -/
inductive Fault
  | memory (e : OutOfBounds)
  | decode (e : DecodeError)
  deriving DecidableEq, Repr

def Fault.message : Fault → String
  | memory e => e.message
  | decode e => e.message

/-- Why a step fails. -/
inductive MachineError
  /-- The machine had stopped before. -/
  | notRunning (status : Status)
  | fault (cause : Fault)
  deriving DecidableEq, Repr

def MachineError.message : MachineError → String
  | notRunning status => s!"CPU not running: {status.name}"
  | fault cause => cause.message

end TrnComputer
