import TrnComputer.Diagnostics.Level
import TrnComputer.Text.Numeral
import TrnComputer.Text.Split

/-! # Invocations

* `Invocation`: what a command line asks for.
* `Invocation.read`: the invocation in a list of arguments.

An argument that begins with a hyphen is a switch, unless it is a hyphen alone or two hyphens came
before it. Short switches may be joined behind one hyphen, and the last of them may have its value
joined to it, with or without an equals sign; a long switch has a value joined by an equals sign.
Otherwise the value is the next argument. A switch stands once at a level, but for `--input`.
The switches `--config` and `--log-level` may stand before the command and after it: there they
count more.
-/

namespace TrnComputer
set_option autoImplicit false

/-! ## What is asked for -/

/-- A command with its settings. -/
inductive Command
  | run (program : String) (delay maxCycles : Option Nat) (trace json : Bool) (inputs : List Int)
  | debug (program : String) (delay : Option Nat)
  | assemble (source : String) (output : Option String)
  | disassemble (image : String)
  | selfTest
  deriving DecidableEq, Repr

/-- A command with what holds for every command. -/
structure Invocation where
  config : Option String := none
  logLevel : Option Level := none
  command : Option Command := none
  deriving DecidableEq, Repr

/-- What else arguments may ask for than an invocation. -/
inductive Aside
  /-- The arguments are wrong. -/
  | misuse
  /-- The version is asked for. -/
  | version
  /-- Help is asked for. -/
  | help
  deriving DecidableEq, Repr

/-! ## Switches -/

/-- The commands. -/
inductive CommandName
  | run | debug | assemble | disassemble | selfTest
  deriving DecidableEq, Repr

def CommandName.spelling : CommandName → String
  | run => "run"
  | debug => "debug"
  | assemble => "asm"
  | disassemble => "disasm"
  | selfTest => "test"

def CommandName.find? (text : String) : Option CommandName :=
  [run, debug, assemble, disassemble, selfTest].find? (·.spelling == text)

/-- The switches. -/
inductive Switch
  | config | logLevel | delay | maxCycles | trace | json | input | output | help | version
  deriving DecidableEq, Repr

namespace Switch

def long : Switch → String
  | config => "config"
  | logLevel => "log-level"
  | delay => "delay"
  | maxCycles => "max-cycles"
  | trace => "trace"
  | json => "json"
  | input => "input"
  | output => "output"
  | help => "help"
  | version => "version"

def short? : Switch → Option Char
  | config | logLevel | json => none
  | delay => some 'd'
  | maxCycles => some 'm'
  | trace => some 't'
  | input => some 'i'
  | output => some 'o'
  | help => some 'h'
  | version => some 'V'

def takesValue : Switch → Bool
  | trace | json | help | version => false
  | _ => true

/-- Whether the value may be any argument, also one that looks like a switch. -/
def takesAnything (s : Switch) : Bool := s == input

/-- The switches that may stand after a command, or before it. -/
def allowed : Option CommandName → List Switch
  | none => [config, logLevel, help, version]
  | some .run => [config, logLevel, help, delay, maxCycles, trace, json, input]
  | some .debug => [config, logLevel, help, delay]
  | some .assemble => [config, logLevel, help, output]
  | some .disassemble | some .selfTest => [config, logLevel, help]

end Switch

/-! ## Levels -/

/-- What was given at one level: before the command, or after it. -/
structure Given where
  config : Option String := none
  logLevel : Option Level := none
  delay : Option Nat := none
  maxCycles : Option Nat := none
  trace : Bool := false
  json : Bool := false
  inputs : List Int := []
  output : Option String := none
  operand : Option String := none
  deriving DecidableEq, Repr

namespace Given

/-- A value for something that has none yet. -/
def once {α : Type} (old : Option α) (new : Option α) : Option (Option α) :=
  if old.isSome || new.isNone then none else some new

/-- Numbers between commas. -/
def numbers? (text : String) : Option (List Int) :=
  (Text.split ',' text.toList).mapM Text.readSigned?

def put? (g : Given) (switch : Switch) (value : String) : Option Given :=
  match switch with
  | .config => (once g.config (some value)).map fun config => { g with config }
  | .logLevel => (once g.logLevel (Level.read? value)).map fun logLevel => { g with logLevel }
  | .delay =>
    (once g.delay (Text.readUnsigned? value.toList)).map fun delay => { g with delay }
  | .maxCycles =>
    (once g.maxCycles (Text.readUnsigned? value.toList)).map fun maxCycles =>
      { g with maxCycles }
  | .trace => if g.trace then none else some { g with trace := true }
  | .json => if g.json then none else some { g with json := true }
  | .input => (numbers? value).map fun new => { g with inputs := g.inputs ++ new }
  | .output => (once g.output (some value)).map fun output => { g with output }
  | .help | .version => none

/-- The command that a level after a command's name makes. -/
def command? (g : Given) : CommandName → Option Command
  | .run => g.operand.map fun program =>
    .run program g.delay g.maxCycles g.trace g.json g.inputs
  | .debug => g.operand.map fun program => .debug program g.delay
  | .assemble => g.operand.map fun source => .assemble source g.output
  | .disassemble => g.operand.map .disassemble
  | .selfTest => some .selfTest

end Given

/-! ## Reading -/

/-- How far the arguments have been read. -/
structure Reading where
  /-- What stands before the command. -/
  outer : Given := {}
  /-- The command, once it has been read. -/
  name : Option CommandName := none
  /-- What stands at the current level. -/
  given : Given := {}
  /-- A switch that waits for its value. -/
  pending : Option Switch := none
  /-- No more switches follow. -/
  plain : Bool := false
  deriving DecidableEq, Repr

namespace Reading

def put (r : Reading) (switch : Switch) (value : String) : Except Aside Reading :=
  match r.given.put? switch value with
  | some given => .ok { r with given, pending := none }
  | none => .error .misuse

def takeSwitch (r : Reading) (switch : Switch) (joined : Option String) :
    Except Aside Reading :=
  if switch.takesValue then
    match joined with
    | some value => r.put switch value
    | none => .ok { r with pending := some switch }
  else if joined.isSome then .error .misuse
  else match switch with
    | .help => .error .help
    | .version => .error .version
    | _ => r.put switch ""

def takeLong (r : Reading) (text : List Char) : Except Aside Reading :=
  let name := String.ofList (text.takeWhile (· != '='))
  match (Switch.allowed r.name).find? (·.long == name) with
  | none => .error .misuse
  | some switch =>
    match text.dropWhile (· != '=') with
    | [] => r.takeSwitch switch none
    | _ :: value => r.takeSwitch switch (some (String.ofList value))

/-- The value joined to a short switch. -/
def joinedValue : List Char → Option String
  | [] => none
  | '=' :: value => some (String.ofList value)
  | value => some (String.ofList value)

def takeShort (r : Reading) : List Char → Except Aside Reading
  | [] => .ok r
  | c :: rest =>
    match (Switch.allowed r.name).find? (·.short? == some c) with
    | none => .error .misuse
    | some switch =>
      if switch.takesValue then r.takeSwitch switch (joinedValue rest)
      else match r.takeSwitch switch none with
        | .error aside => .error aside
        | .ok r => takeShort r rest

/-- Takes an argument that is neither a switch nor a command. -/
def takeOperand (r : Reading) (text : String) : Except Aside Reading :=
  if r.name.isNone || r.name == some .selfTest || r.given.operand.isSome then .error .misuse
  else .ok { r with given := { r.given with operand := some text } }

def isSwitch (text : List Char) : Bool := text.head? == some '-' && text != ['-']

def take (r : Reading) (argument : String) : Except Aside Reading :=
  let text := argument.toList
  match r.pending with
  | some switch =>
    if !r.plain && (switch.takesAnything || !isSwitch text) then r.put switch argument
    else .error .misuse
  | none =>
    if r.plain then r.takeOperand argument
    else
      let command? := if r.name.isNone then CommandName.find? argument else none
      match command? with
      | some name => .ok { outer := r.given, name := some name }
      | none =>
        match text with
        | ['-', '-'] => .ok { r with plain := true }
        | '-' :: '-' :: long => r.takeLong long
        | ['-'] => r.takeOperand argument
        | '-' :: short => r.takeShort short
        | _ => r.takeOperand argument

/-- The invocation when all arguments have been read. -/
def finish (r : Reading) : Except Aside Invocation :=
  if r.pending.isSome then .error .misuse
  else
    let config := r.given.config.or r.outer.config
    let logLevel := r.given.logLevel.or r.outer.logLevel
    match r.name with
    | none => .ok { config, logLevel }
    | some name =>
      match r.given.command? name with
      | none => .error .misuse
      | some command => .ok { config, logLevel, command := some command }

/-- Whether an argument asks for help on what follows. -/
def asksHelp (r : Reading) (argument : String) : Bool :=
  argument == "help" && r.name.isNone && r.pending.isNone && !r.plain

def helpOn : List String → Aside
  | [] => .help
  | [topic] => if topic == "help" || (CommandName.find? topic).isSome then .help else .misuse
  | _ => .misuse

def takeAll (r : Reading) : List String → Except Aside Invocation
  | [] => r.finish
  | argument :: rest =>
    if r.asksHelp argument then .error (helpOn rest)
    else match r.take argument with
      | .error aside => .error aside
      | .ok r => takeAll r rest

end Reading

def Invocation.read (arguments : List String) : Except Aside Invocation :=
  Reading.takeAll {} arguments

end TrnComputer
