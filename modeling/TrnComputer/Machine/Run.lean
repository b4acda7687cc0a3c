import TrnComputer.Machine.MicroStep

/-! # Runs of the machine

* `Machine.goOn`: micro-steps in a row, up to a number of them.
* `Machine.stepPhase`, `Machine.stepInstruction`: to the end of a phase and of an instruction.
* `Machine.run`: until the machine stops or waits.
* `Machine.runLimited`: the same, for a limited number of phases.
* `Machine.history`: micro-steps one by one.
-/

namespace TrnComputer
set_option autoImplicit false

namespace Machine

/-- Does micro-steps, at most `fuel`, as long as they proceed, up to the first after which `done`
holds. -/
def goOn (done : Machine → Bool) (events : List Event) (reports : List MachineReport) :
    Nat → Machine → Activity
  | 0, m => ⟨m, .ok .proceeds, events, reports⟩
  | fuel + 1, m =>
    let step := m.microStep
    let events := step.events.reverse ++ events
    let reports := step.reports.reverse ++ reports
    match step.result with
    | .ok .proceeds =>
      if done step.machine then ⟨step.machine, .ok .proceeds, events, reports⟩
      else goOn done events reports fuel step.machine
    | result => ⟨step.machine, result, events, reports⟩

/-- Does micro-steps, with events and reports in the order of time. -/
def runUntil (done : Machine → Bool) (fuel : Nat) (m : Machine) : Activity :=
  let activity := goOn done [] [] fuel m
  { activity with events := activity.events.reverse, reports := activity.reports.reverse }

/-- No instruction has begun and not ended. -/
def atInstruction (m : Machine) : Bool := m.atBoundary && m.registers.f = .fetch

/-- Does micro-steps to the end of the phase. A phase has at most four. -/
def stepPhase (m : Machine) : Activity := m.runUntil atBoundary 4

/-- Does micro-steps to the end of the instruction. An instruction has at most ten. -/
def stepInstruction (m : Machine) : Activity := m.runUntil atInstruction 10

/-- Does micro-steps until the machine stops or waits, at most `fuel`. The result `proceeds` says
that it does neither in time. -/
def run (fuel : Nat) (m : Machine) : Activity := m.runUntil (fun _ => false) fuel

/-- The phases that a limited run may begin have been begun, and the last of them has ended. -/
def reached (limit : Nat) (m : Machine) : Bool := m.atBoundary && limit ≤ m.registers.clock

/-- Does micro-steps until the machine stops or waits, for at most `phases` phases and the one
that has begun already. A phase has at most four micro-steps. -/
def runLimited (phases : Nat) (m : Machine) : Activity :=
  let limit := m.registers.clock + phases
  if m.reached limit then ⟨m, .ok .proceeds, [], []⟩
  else m.runUntil (reached limit) (4 * phases + 4)

/-- The micro-steps, at most `fuel`, up to the first that does not proceed. -/
def history : Nat → Machine → List Activity
  | 0, _ => []
  | fuel + 1, m =>
    let step := m.microStep
    match step.result with
    | .ok .proceeds => step :: history fuel step.machine
    | _ => [step]

end Machine

end TrnComputer
