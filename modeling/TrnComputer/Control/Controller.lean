import TrnComputer.Control.Worker
import TrnComputer.Settings

/-! # The controller

A controller runs a loaded program by a worker and steers it by the panel. All calls may come
between any two moves of the worker.

* `load`, `start`, `wait`: the life of a run.
* `pause`, `resume`, `step`, `setInput`, `setDelay`, `requestInterruption`: steering.
* `move?`, `settle`: the worker's part.

Listeners go to the worker when a run starts and come back when it has been waited for. A call that
may be refused gives the controller back beside its result.
-/

namespace TrnComputer
set_option autoImplicit false

/-- Why a call is refused. -/
inductive ControlError
  | nothingLoaded
  | alreadyRunning
  | notStarted
  deriving DecidableEq, Repr

def ControlError.message : ControlError → String
  | nothingLoaded => "no program loaded"
  | alreadyRunning => "execution already started"
  | notStarted => "execution not started"

/-- What is left of a run. -/
structure Outcome where
  machine : Machine
  result : Except MachineError Termination

/-- The controller with its panel and its worker. -/
structure Controller where
  panel : Panel
  limit : Option Nat
  program : Option Memory := none
  listeners : List Listener := []
  worker : Option Worker := none
  /-- The reports so far, the last first. -/
  journal : List ControlReport := []

namespace Controller

def ofSettings (s : Settings) : Controller :=
  { panel := { paused := s.startPaused, delay := s.delay }, limit := s.maxCycles }

def report (c : Controller) (r : ControlReport) : Controller :=
  { c with journal := r :: c.journal }

def isRunning (c : Controller) : Bool := c.worker.any (!·.isFinished)

/-! ## The life of a run -/

def load (c : Controller) (memory : Memory) : Controller × Except ControlError Unit :=
  if c.worker.isSome then (c, .error .alreadyRunning)
  else ({ c with program := some memory }.report (.loaded memory.size), .ok ())

/-- Adds a listener. It hears the runs that start from now on. -/
def addListener (c : Controller) (id : Nat) : Controller :=
  { c with listeners := c.listeners ++ [{ id }] }

def start (c : Controller) : Controller × Except ControlError Unit :=
  if c.worker.isSome then (c, .error .alreadyRunning)
  else match c.program with
    | none => (c, .error .nothingLoaded)
    | some memory =>
      let worker : Worker :=
        { machine := .ofMemory memory, limit := c.limit, listeners := c.listeners }
      let c := { c with panel := c.panel.renew, program := none, listeners := [], worker }
      (c.report (.started c.panel.delay), .ok ())

def outcomeReport (o : Outcome) : ControlReport :=
  match o.result with
  | .ok termination => .finished termination o.machine.registers.clock
  | .error cause => .failed cause

/-- Takes back the machine and the listeners of a run that has finished. While it has not, the
caller blocks, which is the result `none`. -/
def wait (c : Controller) : Controller × Except ControlError (Option Outcome) :=
  match c.worker with
  | none => (c, .error .notStarted)
  | some w =>
    match w.point with
    | .finished result =>
      let outcome : Outcome := ⟨w.machine, result⟩
      let c := { c with worker := none, listeners := c.listeners ++ w.listeners }
      (c.report (outcomeReport outcome), .ok (some outcome))
    | _ => (c, .ok none)

/-! ## Steering -/

def wakeHeld (c : Controller) : Controller := { c with worker := c.worker.map Worker.wakeHeld }

def wakeStarved (c : Controller) : Controller :=
  { c with worker := c.worker.map Worker.wakeStarved }

def pause (c : Controller) : Controller := { c with panel := c.panel.pause }

def resume (c : Controller) : Controller := { c with panel := c.panel.resume }.wakeHeld

/-- Grants a micro-step. The result tells whether the controller is paused; otherwise nothing is
done. -/
def step (c : Controller) : Controller × Bool :=
  match c.panel.grant with
  | (panel, true) => ({ c with panel }.wakeHeld, true)
  | (_, false) => (c, false)

def setInput (c : Controller) (value : Nat) : Controller :=
  { c with panel := c.panel.supply value }.wakeStarved

def setDelay (c : Controller) (delay : Nat) : Controller :=
  { c with panel := { c.panel with delay } }

/-- The first part of an interruption: the flag. -/
def raiseFlag (c : Controller) : Controller := { c with panel := c.panel.interrupt }

/-- The last part of an interruption: a value for an instruction that waits for one. -/
def offerPlaceholder (c : Controller) : Controller :=
  { c with panel := c.panel.offerPlaceholder }.wakeStarved

/-- Asks the worker to end at the next phase boundary, and frees it from all that blocks it. -/
def requestInterruption (c : Controller) : Controller :=
  c.raiseFlag.wakeHeld.offerPlaceholder

/-! ## The worker's part -/

/-- Lets the worker make its next move. The result has the events of it. -/
def move? (c : Controller) : Option (Controller × List Event) :=
  match c.worker with
  | none => none
  | some w =>
    match w.move? c.panel with
    | none => none
    | some m =>
      let journal := m.reports.reverse ++ c.journal
      some ({ c with panel := m.panel, worker := some m.worker, journal }, m.events)

/-- Whether the worker can make a move. -/
def canMove (c : Controller) : Bool := c.move?.isSome

/-- Lets the worker make moves, at most `fuel`, until it is blocked or has finished. -/
def settle : Nat → Controller → Controller
  | 0, c => c
  | fuel + 1, c =>
    match c.move? with
    | none => c
    | some (c, _) => settle fuel c

/-- All listeners, those of the run that is under way last. -/
def allListeners (c : Controller) : List Listener :=
  c.listeners ++ (c.worker.map (·.listeners)).getD []

/-- How long the worker rests before its next move, in milliseconds. -/
def restDue (c : Controller) : Nat :=
  match c.worker with
  | some { point := .checkpoint, .. } => c.panel.delay
  | _ => 0

def summary (c : Controller) : String :=
  Text.account "Controller"
    [("loaded", Text.truth c.program.isSome), ("running", Text.truth c.isRunning),
      ("paused", Text.truth c.panel.paused), ("delay_ms", Text.decimal c.panel.delay)]

end Controller

end TrnComputer
