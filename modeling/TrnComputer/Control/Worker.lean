import TrnComputer.Control.Panel
import TrnComputer.Machine.Run

/-! # The worker

The worker drives a machine, one micro-step after the other, and looks at the panel between them.

* `Point`: where the worker stands. Each point but the last is followed by one indivisible move.
* `Worker.move?`: the next move, if the worker is not blocked.

A worker that is held at the checkpoint, or starved of input, looks at the panel again only after
it has been woken. After an input value arrives the micro-step is repeated without a checkpoint.
-/

namespace TrnComputer
set_option autoImplicit false

/-! ## Endings and reports -/

/-- How a run ends without an error. -/
inductive Termination
  | halted
  /-- The run was interrupted at a phase boundary. -/
  | interrupted
  /-- The permitted number of phases has been begun and ended. -/
  | cycleLimit
  deriving DecidableEq, Repr

def Termination.name : Termination → String
  | halted => "Halted"
  | interrupted => "Interrupted"
  | cycleLimit => "CycleLimit"

/-- What controller and worker report for diagnosis. -/
inductive ControlReport
  | loaded (cells : Nat)
  | started (delay : Nat)
  | interrupted (clock : Nat)
  | finished (termination : Termination) (clock : Nat)
  | failed (cause : MachineError)
  | machine (report : MachineReport)
  deriving DecidableEq, Repr

def ControlReport.stage : String := "control"

def ControlReport.record : ControlReport → Record
  | loaded cells => .ofStage stage .debug "program loaded" [("cells", Text.decimal cells)]
  | started delay => .ofStage stage .info "execution started" [("delay_ms", Text.decimal delay)]
  | interrupted clock => .ofStage stage .debug "interrupted" [("clock", Text.decimal clock)]
  | finished termination clock =>
    .ofStage stage .info "execution finished"
      [("termination", termination.name), ("clock", Text.decimal clock)]
  | failed cause => .ofStage stage .warning "execution failed" [("error", cause.message)]
  | machine report => report.record stage

/-! ## Listeners -/

/-- Someone who is told of every event, with what was told so far, the last first. -/
structure Listener where
  id : Nat
  heard : List Event := []
  deriving DecidableEq, Repr

def Listener.events (l : Listener) : List Event := l.heard.reverse

def Listener.hear (l : Listener) (events : List Event) : Listener :=
  { l with heard := events.reverse ++ l.heard }

theorem Listener.events_hear (l : Listener) (events : List Event) :
    (l.hear events).events = l.events ++ events := by
  simp [Listener.events, Listener.hear]

/-! ## The worker -/

/-- Where the worker stands. -/
inductive Point
  /-- In front of the checkpoint. -/
  | checkpoint
  /-- Held at the checkpoint. -/
  | held (woken : Bool)
  /-- Past the checkpoint, before the test for interruption. -/
  | boundary
  /-- After that test, before the test for the limit and the micro-step. -/
  | ready
  /-- Before a look into the input slot. -/
  | reading
  /-- Waiting for the input slot to be filled. -/
  | starved (woken : Bool)
  | finished (result : Except MachineError Termination)

/-- Whoever carries out a run. -/
structure Worker where
  machine : Machine
  limit : Option Nat
  listeners : List Listener
  point : Point := .checkpoint

/-- What a move leaves behind, with the events and the reports of it. -/
structure Move where
  panel : Panel
  worker : Worker
  events : List Event := []
  reports : List ControlReport := []

namespace Worker

def isFinished (w : Worker) : Bool :=
  match w.point with
  | .finished _ => true
  | _ => false

def wakeHeld (w : Worker) : Worker :=
  match w.point with
  | .held _ => { w with point := .held true }
  | _ => w

def wakeStarved (w : Worker) : Worker :=
  match w.point with
  | .starved _ => { w with point := .starved true }
  | _ => w

def limitReached (w : Worker) : Bool :=
  w.machine.atBoundary && w.limit.any (· ≤ w.machine.registers.clock)

def pointAfter : Except MachineError Tick → Point
  | .ok .proceeds => .checkpoint
  | .ok .awaitsInput => .reading
  | .ok .halted => .finished (.ok .halted)
  | .error e => .finished (.error e)

def drive (p : Panel) (w : Worker) : Move :=
  let step := w.machine.microStep
  { panel := p
    worker :=
      { w with
        machine := step.machine
        listeners := w.listeners.map (·.hear step.events)
        point := pointAfter step.result }
    events := step.events
    reports := step.reports.map .machine }

def pass (p : Panel) (w : Worker) : Move :=
  if p.mayPass then { panel := p.pass, worker := { w with point := .boundary } }
  else { panel := p, worker := { w with point := .held false } }

def takeInput (p : Panel) (w : Worker) : Move :=
  match p.slot.value? with
  | some value =>
    { panel := p.takeSlot
      worker := { w with machine := w.machine.supply value, point := .boundary } }
  | none => { panel := p, worker := { w with point := .starved false } }

/-- Ends the run at a phase boundary if it is interrupted. -/
def testInterruption (p : Panel) (w : Worker) : Move :=
  if w.machine.atBoundary && p.interrupted then
    { panel := p
      worker := { w with point := .finished (.ok .interrupted) }
      reports := [.interrupted w.machine.registers.clock] }
  else { panel := p, worker := { w with point := .ready } }

/-- Ends the run at the limit or does a micro-step. -/
def work (p : Panel) (w : Worker) : Move :=
  if w.limitReached then { panel := p, worker := { w with point := .finished (.ok .cycleLimit) } }
  else w.drive p

/-- The next move of the worker. There is none while it is blocked and after it has finished. -/
def move? (p : Panel) (w : Worker) : Option Move :=
  match w.point with
  | .checkpoint | .held true => some (w.pass p)
  | .boundary => some (w.testInterruption p)
  | .ready => some (w.work p)
  | .reading | .starved true => some (w.takeInput p)
  | .held false | .starved false | .finished _ => none

end Worker

end TrnComputer
