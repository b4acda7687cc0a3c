import TrnComputer.CommandLine.Conversion
import TrnComputer.CommandLine.DebugSession
import TrnComputer.CommandLine.Invocation
import TrnComputer.CommandLine.RunSession
import TrnComputer.CommandLine.SelfTest

/-! # The command line as a whole

* `Session.ofArguments`: what is done first for given arguments.
* `Session.turn`: what is done next, as long as a session goes on.
* `Session.play`: all of it, in given surroundings.
-/

namespace TrnComputer
set_option autoImplicit false

/-- A command that takes many turns. -/
inductive Session
  | run (session : RunSession)
  | debug (session : DebugSession)

/-- What comes of a session is what comes of a part of it. -/
def Progress.map {σ τ : Type} (f : σ → τ) : Progress σ → Progress τ
  | going session => going (f session)
  | ended status => ended status

namespace Session

/-! ## Texts -/

def version : String := "trn-emu 0.1.0"

def banner : List String :=
  ["TRN Emulator v0.1.0", "A 20-bit teaching computer", "", "Use --help for available commands"]

def help : List String :=
  ["Usage: trn-emu [--config <CONFIG>] [--log-level <LOG_LEVEL>] [COMMAND]", "",
    "Commands:",
    "  run <PROGRAM> [-d <DELAY>] [-m <MAX_CYCLES>] [-t] [--json] [-i <INPUT>]",
    "  debug <PROGRAM> [-d <DELAY>]",
    "  asm <SOURCE> [-o <OUTPUT>]",
    "  disasm <IMAGE>",
    "  test"]

def misuseStatus : Nat := 2

/-! ## The beginning -/

/-- The settings in a file, or those that hold without one. The result is none when the file
cannot be used. -/
def loadSettings : Option String → Script (Option Settings)
  | none => .done (some {})
  | some path => .readFile path fun answer =>
    match Settings.ofFile answer with
    | .ok settings => .done (some settings)
    | .error e =>
      .complain (Presentation.failure s!"Failed to load config {path}: {e.message}") (.done none)

def conclude (command : Script Nat) : Script (Progress Session) :=
  command.bind fun status => .done (.ended status)

/-- Begins a command. Settings on the command line count more than those of the file. -/
def begin (settings : Settings) : Option Command → Script (Progress Session)
  | none => conclude do
    Presentation.lines banner
    return 0
  | some (.run program delay maxCycles trace json inputs) =>
    let settings := { settings with
      delay := delay.getD settings.delay
      maxCycles := maxCycles.or settings.maxCycles }
    (RunSession.begin program settings trace json inputs).bind fun p => .done (p.map run)
  | some (.debug program delay) =>
    let settings := { settings with delay := delay.getD settings.delay }
    (DebugSession.begin program settings).bind fun p => .done (p.map debug)
  | some (.assemble source output) => conclude (Conversion.assembleFile source output)
  | some (.disassemble image) => conclude (Conversion.disassembleFile image)
  | some .selfTest => conclude SelfTest.run

def ofArguments (arguments : List String) : Script (Progress Session) :=
  match Invocation.read arguments with
  | .error .misuse =>
    .complain "error: the arguments are not understood; try --help"
      (.done (.ended misuseStatus))
  | .error .version => conclude do
    Script.printLine version
    return 0
  | .error .help => conclude do
    Presentation.lines help
    return 0
  | .ok invocation => do
    match ← loadSettings invocation.config with
    | none => return .ended failureStatus
    | some settings =>
      let logLevel := invocation.logLevel.getD settings.logLevel
      begin { settings with logLevel } invocation.command

/-! ## The rest -/

def turn : Session → Script (Progress Session)
  | run session => session.turn.bind fun p => .done (p.map run)
  | debug session => session.turn.bind fun p => .done (p.map debug)

/-- Plays a session to its end, at most `fuel` turns. The result has the exit status, or none when
there is more to do. -/
def playOn (fuel : Nat) (s : Surroundings) (progress : Progress Session) :
    Surroundings × Option Nat :=
  match progress with
  | .ended status => (s, some status)
  | .going session =>
    match fuel with
    | 0 => (s, none)
    | fuel + 1 =>
      let (s, progress) := session.turn.play s
      playOn fuel s progress

def play (fuel : Nat) (s : Surroundings) (arguments : List String) :
    Surroundings × Option Nat :=
  let (s, progress) := (ofArguments arguments).play s
  playOn fuel s progress

end Session

end TrnComputer
