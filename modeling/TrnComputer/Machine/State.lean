import TrnComputer.Machine.Event
import TrnComputer.Machine.Microcode

/-! # The machine

* `Machine`: registers, memory and what lies between micro-steps.
* `Machine.transfer`: puts a value into a register and reports it.
* `MicroOp.perform`: carries out a micro-operation.

Every function that changes the machine gives the events of the change beside the new machine.
-/

namespace TrnComputer
set_option autoImplicit false

/-- The state of the computer. -/
structure Machine where
  registers : Registers := .zero
  memory : Memory
  status : Status := .running
  /-- The last addition that was watched overflowed. It is shown in V when the instruction ends. -/
  overflow : Bool := false
  /-- A value from outside that no instruction has taken. -/
  input : Option Nat := none
  /-- An instruction waits for a value. -/
  awaitsInput : Bool := false
  /-- The current phase has begun. -/
  phaseOpen : Bool := false
  deriving DecidableEq, Repr

namespace Machine

def ofMemory (memory : Memory) : Machine := { memory }

/-- The machine with its memory and all else as before the first step. -/
def reset (m : Machine) : Machine := ofMemory m.memory

/-- The machine with a value for the next input, of which the low 20 bits count. -/
def supply (m : Machine) (value : Nat) : Machine :=
  { m with input := some (Word.significant value) }

/-- No phase has begun and not ended. -/
def atBoundary (m : Machine) : Bool := !m.phaseOpen

/-- The machine after a register is set, without a report. -/
def setRegister (m : Machine) (register : Register) (value : Nat) : Machine :=
  { m with registers := m.registers.set register value }

/-! ## Reports of registers -/

/-- The events of a register that has taken a value from a source. -/
def movedEvents (m : Machine) (target : Register) (manner : Manner) (source : Source)
    (value : Nat) : List Event :=
  [.register target value manner.access,
    .moved m.registers.clock (.toRegister target source) value]

def move (m : Machine) (target : Register) (manner : Manner) (source : Source) (value : Nat) :
    Machine × List Event :=
  let taken := manner.cut target value
  (m.setRegister target taken, m.movedEvents target manner source taken)

/-- Puts the value of an expression into a register. -/
def transfer (m : Machine) (target : Register) (manner : Manner) (e : Expression) :
    Machine × List Event :=
  m.move target manner (.expression e) (e.value m.registers)

def observation (m : Machine) (register : Register) : Event :=
  .register register (m.registers.get register) .read

end Machine

/-! ## Micro-operations -/

/-- Why a micro-step ends before its last micro-operation. -/
inductive Stop
  | awaitsInput
  | fault (cause : Fault)
  deriving DecidableEq, Repr

namespace MicroOp

/-- Puts the cell that AR points at into the buffer. -/
def performRead (m : Machine) : Machine × List Event × Option Stop :=
  match m.memory.read m.registers.ar with
  | .error e => (m, [], some (.fault (.memory e)))
  | .ok value =>
    let (moved, events) := m.move .br .load .cell value
    (moved, .cell m.registers.ar value .read :: events, none)

/-- Puts the low 20 bits of the buffer into the cell that AR points at. -/
def performWrite (m : Machine) : Machine × List Event × Option Stop :=
  let value := Word.significant m.registers.br
  let observed := m.observation .br
  match m.memory.write m.registers.ar value with
  | .error e => (m, [observed], some (.fault (.memory e)))
  | .ok memory =>
    ({ m with memory },
      [observed, .cell m.registers.ar value .write, .moved m.registers.clock .toCell value], none)

/-- Puts the supplied value into the buffer. Without one the machine waits, and asks for a value
unless it has asked before. -/
def performInput (m : Machine) : Machine × List Event × Option Stop :=
  match m.input with
  | some value =>
    let (moved, events) :=
      { m with input := none, awaitsInput := false }.move .br .load .input value
    (moved, events, none)
  | none =>
    ({ m with awaitsInput := true }, if m.awaitsInput then [] else [.inputRequested],
      some .awaitsInput)

/-- Shifts accumulator and extension. Both halves come from the values before the shift. -/
def performShiftPair (m : Machine) (direction : Direction) : Machine × List Event :=
  let low := Expression.pairLow direction
  let (m', high) := m.transfer .a .modify (.pairHigh direction)
  let (m', rest) := m'.move .x .modify (.expression low) (low.value m.registers)
  (m', high ++ rest)

def performHalt (m : Machine) : Machine × List Event :=
  let (m, events) := m.move .h .load (.constant 1) 1
  ({ m with status := .halted }, events ++ [.halted])

def perform (m : Machine) : MicroOp → Machine × List Event × Option Stop
  | .observe register => (m, [m.observation register], none)
  | .transfer target manner e =>
    let (m, events) := m.transfer target manner e
    (m, events, none)
  | .shiftPair direction =>
    let (m, events) := performShiftPair m direction
    (m, events, none)
  | .watch addend =>
    ({ m with overflow := Word.addOverflows m.registers.a (addend.value m.registers) }, [], none)
  | .forgetOverflow => ({ m with overflow := false }, [], none)
  | .readCell => performRead m
  | .writeCell => performWrite m
  | .takeInput => performInput m
  | .output => (m, [.output m.registers.br], none)
  | .halt =>
    let (m, events) := performHalt m
    (m, events, none)

def performAll (m : Machine) : List MicroOp → Machine × List Event × Option Stop
  | [] => (m, [], none)
  | op :: rest =>
    match perform m op with
    | (m, events, some stop) => (m, events, some stop)
    | (m, events, none) =>
      let (m, more, stop) := performAll m rest
      (m, events ++ more, stop)

end MicroOp

namespace Machine

def summary (m : Machine) : String :=
  Text.account "Cpu"
    [("state", m.status.name), ("regs", m.registers.summary), ("mem", m.memory.summary)]

end Machine

end TrnComputer
