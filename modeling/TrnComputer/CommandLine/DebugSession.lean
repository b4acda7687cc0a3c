import TrnComputer.CommandLine.Program

/-! # Stepping through a program

A session begins paused and obeys commands, one a line: `s` grants a micro-step, `c` continues, `p`
pauses, `i` gives a value, `d` sets the delay, `q` quits. It ends when there are no more lines, and
when the program is seen to have finished after a command.

* `DebugSession.turn`: one line, or one move of the worker.
-/

namespace TrnComputer
set_option autoImplicit false

/-- A program that is stepped through. -/
structure DebugSession where
  controller : Controller
  /-- No more commands are obeyed. -/
  closing : Bool := false

namespace DebugSession

def eventLine? : Event → Option String
  | .moved clock movement value => some (movement.logLine clock value).render
  | .output value => some (Presentation.outputLine value)
  | .inputRequested => some "⌨️  INP waiting, use `i <value>`"
  | .stopped message => some (Presentation.failure message)
  | .halted => some "⏹  Halted"
  | _ => none

def call (s : DebugSession) (f : Controller → Controller) : DebugSession :=
  { s with controller := f s.controller }

def close (s : DebugSession) : DebugSession :=
  { s.call Controller.requestInterruption with closing := true }

/-- A line without its end. -/
def chomp (text : List Char) : List Char :=
  if text.getLast? = some '\n' then Text.dropFinalReturn text.dropLast else text

/-- Obeys a command. The result has the lines that are shown. -/
def obey (s : DebugSession) (line : List Char) : DebugSession × List String :=
  match (Text.words line).take 2 |>.map String.ofList with
  | [] => (s, [])
  | "s" :: _ =>
    match s.controller.step with
    | (controller, true) => ({ s with controller }, [])
    | (_, false) => (s, ["Not paused"])
  | "c" :: _ => (s.call Controller.resume, [])
  | "p" :: _ => (s.call Controller.pause, [])
  | "q" :: _ => (s.close, [])
  | ["i", number] =>
    match Text.readLiteral? number.toList with
    | some value => (s.call (·.setInput (inputWord value)), [])
    | none => (s, [s!"Not a number: {number}"])
  | ["d", number] =>
    match Text.readUnsigned? number.toList with
    | some delay => (s.call (·.setDelay delay), [])
    | none => (s, [s!"Not a delay: {number}"])
  | _ => (s, [s!"Unknown command: {String.ofList line}"])

/-- The session after a command: it closes when the program is seen to have finished. -/
def afterCommand (s : DebugSession) : DebugSession :=
  if s.controller.isRunning then s else s.close

/-- Lets the worker make a move and shows its events. -/
def advance (s : DebugSession) : Option (Script DebugSession) :=
  s.controller.move?.map fun (controller, events) => do
    Script.pause s.controller.restDue
    Presentation.lines (events.filterMap eventLine?)
    return { s with controller }

def conclude (s : DebugSession) : Script (Progress DebugSession) :=
  match s.controller.wait.2 with
  | .ok (some outcome) => do
    Presentation.lines ("" :: Presentation.registerLines outcome.machine.registers)
    return .ended 0
  | .ok none => .rest 50 (.done (.going s))
  | .error e => .complain (Presentation.failure e.message) (.done (.ended 0))

/-- One turn. Lines are waited for only while the worker cannot move. -/
def turn (s : DebugSession) : Script (Progress DebugSession) :=
  if s.closing then
    match s.advance with
    | some script => script.bind fun s => .done (.going s)
    | none => s.conclude
  else .readLine s.controller.canMove fun
    | .over => .done (.going s.close)
    | .line text =>
      let (s, shown) := s.obey (chomp text.toList)
      (Presentation.lines shown).bind fun _ => .done (.going s.afterCommand)
    | .notYet =>
      match s.advance with
      | some script => script.bind fun s => .done (.going s)
      | none => .done (.going s)

def begin (program : String) (settings : Settings) : Script (Progress DebugSession) := do
  Script.printLine s!"🔍 Loading: {program}"
  match ← loadProgram program with
  | none => return .ended failureStatus
  | some memory =>
    match startProgram { settings with startPaused := true } memory with
    | .error e => failWith s!"Failed to start: {e.message}"
    | .ok controller =>
      Presentation.lines
        ["Commands: s = step, c = continue, p = pause, q = quit",
          "          i <n> = input, d <ms> = delay"]
      return .going { controller }

end DebugSession

end TrnComputer
