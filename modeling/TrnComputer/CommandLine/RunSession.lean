import TrnComputer.CommandLine.Program

/-! # Running a program

A session runs a program to its end. It shows what the program hands out, and gives it values: first
those on the command line, then lines that are asked for. A line that is no number is passed over.
When no value is left, the run is interrupted.

* `RunSession.turn`: one move of the worker, or one line.
-/

namespace TrnComputer
set_option autoImplicit false

/-- A run that is under way. -/
structure RunSession where
  controller : Controller
  /-- Values from the command line that have not been given. -/
  inputs : List Int
  /-- Whether every movement of data is shown. -/
  trace : Bool
  /-- Whether the registers are shown as an object, too. -/
  json : Bool
  /-- Whether the program waits for a line. -/
  asking : Bool := false

namespace RunSession

def give (s : RunSession) (value : Int) : RunSession :=
  { s with controller := s.controller.setInput (inputWord value), asking := false }

def answer (s : RunSession) : Event → Script RunSession
  | .output value => .print (Presentation.outputLine value ++ "\n") (.done s)
  | .inputRequested =>
    match s.inputs with
    | value :: inputs => .done ({ s with inputs }.give value)
    | [] => .done { s with asking := true }
  | .moved clock movement value =>
    if s.trace then .print ((movement.logLine clock value).render ++ "\n") (.done s) else .done s
  | .stopped message => .complain (Presentation.failure message) (.done s)
  | _ => .done s

def answerAll (s : RunSession) : List Event → Script RunSession
  | [] => .done s
  | event :: rest => (s.answer event).bind fun s => s.answerAll rest

def ask (s : RunSession) : Script RunSession :=
  .print "⌨️  INP> " <| .readLine false fun
    | .line text =>
      let trimmed := Text.trim text.toList
      match Text.readLiteral? trimmed with
      | some value => .done (s.give value)
      | none =>
        .complain (Presentation.warning s!"Not a number: {String.ofList trimmed}") (.done s)
    | .over =>
      .complain (Presentation.warning "No more input, stopping")
        (.done { s with controller := s.controller.requestInterruption, asking := false })
    | .notYet => .done s

def conclude (s : RunSession) (o : Outcome) : Script Nat := do
  Presentation.lines
    (["", "━━━ Result ━━━", Presentation.ending o.result] ++
      Presentation.registerLines o.machine.registers ++
      (if s.json then [Presentation.registerObject o.machine.registers] else []))
  match o.result with
  | .ok .cycleLimit =>
    Presentation.lines
      ["", Presentation.warning "Reached max cycles limit. Use --max-cycles to increase."]
    return 0
  | .ok _ => return 0
  | .error _ => return failureStatus

/-- One turn: a line if one is needed, else a move of the worker, else the outcome. A run that is
paused cannot go on: then time goes by. -/
def turn (s : RunSession) : Script (Progress RunSession) :=
  if s.asking then s.ask.bind fun s => .done (.going s)
  else match s.controller.move? with
    | some (controller, events) => do
      Script.pause s.controller.restDue
      let s ← ({ s with controller } : RunSession).answerAll events
      return .going s
    | none =>
      match s.controller.wait.2 with
      | .ok (some outcome) => do
        let status ← s.conclude outcome
        return .ended status
      | .ok none => .rest 50 (.done (.going s))
      | .error e => failWith e.message

def begin (program : String) (settings : Settings) (trace json : Bool) (inputs : List Int) :
    Script (Progress RunSession) := do
  Script.printLine s!"🔧 Running: {program}"
  match ← loadProgram program with
  | none => return .ended failureStatus
  | some memory =>
    match startProgram settings memory with
    | .error e => failWith s!"Failed to start: {e.message}"
    | .ok controller =>
      Presentation.lines ["", "━━━ Execution ━━━"]
      return .going { controller, inputs, trace, json }

end RunSession

end TrnComputer
