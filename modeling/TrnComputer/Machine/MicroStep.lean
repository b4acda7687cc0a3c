import TrnComputer.Instruction.Code
import TrnComputer.Machine.Report
import TrnComputer.Machine.State

/-! # Micro-steps

`Machine.microStep` does one micro-step: it opens the phase if none is open, carries out the
micro-operations that SC points at, and then counts SC up or closes the phase. Between two
micro-steps the machine stands still, so whoever drives it may wait there.
-/

namespace TrnComputer
set_option autoImplicit false

/-- How a micro-step ends. -/
inductive Tick
  /-- There is more to do. -/
  | proceeds
  /-- The instruction waits for a value from outside. -/
  | awaitsInput
  | halted
  deriving DecidableEq, Repr

/-- What a micro-step, or several in a row, leave behind. -/
structure Activity where
  machine : Machine
  result : Except MachineError Tick
  events : List Event
  reports : List MachineReport

/-! ## Phases -/

/-- What follows the last micro-step of a phase. -/
inductive Closing
  /-- Indexing, the reading of an address, or execution, as the modifiers ask. -/
  | afterFetch
  /-- The reading of an address, or execution, as the modifiers ask. -/
  | afterIndexed
  | afterIndirect
  /-- The next instruction, after the flags are set anew if asked for. -/
  | nextInstruction (setsFlags : Bool)
  deriving DecidableEq, Repr

namespace Machine

/-- The micro-steps of the current phase, and what follows them. -/
def phaseSteps (m : Machine) : Except DecodeError (List (List MicroOp) × Closing) :=
  match m.registers.f with
  | .fetch => .ok (Microcode.fetch, .afterFetch)
  | .indexed => .ok (Microcode.indexed, .afterIndexed)
  | .indirect => .ok (Microcode.indirect, .afterIndirect)
  | .execute =>
    match Instruction.decode m.registers.ir with
    | .error e => .error e
    | .ok i =>
      .ok (Microcode.execute m.registers i.operation, .nextInstruction (i.operation != .ret))

/-- Opens the phase if none is open, and counts it. -/
def openPhase (m : Machine) : Machine × List Event :=
  if m.phaseOpen then (m, [])
  else
    let clock := m.registers.clock + 1
    ({ m with phaseOpen := true, registers := { m.registers with clock } }, [.tick clock])

def count (m : Machine) (sc : Nat) : Machine × List Event :=
  if m.registers.sc = sc % 4 then (m, [])
  else (m.setRegister .sc sc, [.register .sc (sc % 4) .inPlace])

/-- Sets the phase selector, or a flag, and reports a change. -/
def assign (m : Machine) (register : Register) (value : Nat) : Machine × List Event :=
  if m.registers.get register = value then (m, [])
  else m.move register .load (.constant value) value

def enter (m : Machine) (next : Phase) : Machine × List Event :=
  let (m, counted) := m.count 0
  let (m, selected) := m.assign .f next.code
  ({ m with phaseOpen := false }, counted ++ selected)

/-- Sets the flags anew: Z and S by the accumulator, V by the watched overflow. -/
def updateFlags (m : Machine) : Machine × List Event :=
  let a := Word.significant m.registers.a
  let (m, zero) := m.assign .z (a == 0).toNat
  let (m, sign) := m.assign .s (Word.isNegative a).toNat
  let (m, overflow) := m.assign .v m.overflow.toNat
  (m, zero ++ sign ++ overflow)

def close (m : Machine) : Closing → Machine × List Event
  | .afterFetch =>
    let ir := m.registers.ir
    m.enter (if Word.isIndexed ir then .indexed
      else if Word.isIndirect ir then .indirect else .execute)
  | .afterIndexed =>
    m.enter (if Word.isIndirect m.registers.ir then .indirect else .execute)
  | .afterIndirect => m.enter .execute
  | .nextInstruction setsFlags =>
    let (m, entered) := m.enter .fetch
    if setsFlags then
      let (m, flags) := m.updateFlags
      (m, entered ++ flags)
    else (m, entered)

/-! ## One micro-step -/

/-- Stops the machine for a fault. -/
def fail (m : Machine) (cause : Fault) (events : List Event) (reports : List MachineReport) :
    Activity :=
  let report := .stopped m.registers.clock m.registers.pc cause
  ⟨{ m with status := .faulted }, .error (.fault cause), events ++ [.stopped cause.message],
    reports ++ [report]⟩

/-- The report that an instruction begins to be carried out. -/
def beginReports (m : Machine) : List MachineReport :=
  if m.registers.f = .execute ∧ m.registers.sc = 0 then
    [.execute m.registers.clock m.registers.pc m.registers.ir]
  else []

/-- Carries out the micro-operations of the step, then counts on or closes the phase. -/
def stepPhaseOpen (m : Machine) (steps : List (List MicroOp)) (closing : Closing)
    (opening : List Event) : Activity :=
  let sc := m.registers.sc
  let reports := m.beginReports
  match MicroOp.performAll m (Microcode.stepAt steps sc) with
  | (m, events, some .awaitsInput) => ⟨m, .ok .awaitsInput, opening ++ events, reports⟩
  | (m, events, some (.fault cause)) => m.fail cause (opening ++ events) reports
  | (m, events, none) =>
    if m.status = .halted then
      ⟨m, .ok .halted, opening ++ events,
        reports ++ [.halted m.registers.clock m.registers.pc]⟩
    else
      let (m, ending) := if sc + 1 < steps.length then m.count (sc + 1) else m.close closing
      ⟨m, .ok .proceeds, opening ++ events ++ ending, reports⟩

def microStep (m : Machine) : Activity :=
  if m.status = .running then
    let (m, opening) := m.openPhase
    match m.phaseSteps with
    | .error e => m.fail (.decode e) opening []
    | .ok (steps, closing) => m.stepPhaseOpen steps closing opening
  else ⟨m, .error (.notRunning m.status), [], []⟩

end Machine

end TrnComputer
