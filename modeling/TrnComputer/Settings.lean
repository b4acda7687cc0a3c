import TrnComputer.Diagnostics.Level
import TrnComputer.Folder
import TrnComputer.Json.Value
import TrnComputer.Text.Account

/-! # Settings

* `Settings`: how a run is done, with a value for each setting that is not given.
* `Settings.ofJson?`: the settings in a JSON value, by name or in order.
* `Settings.read`, `Settings.load`: the settings in a text and in a file.
* `Settings.render`: the settings as a text.

Settings of other names are passed over. A setting of these names stands at most once. All keys of
the object must be texts.
-/

namespace TrnComputer
set_option autoImplicit false

/-- How a run is done. -/
structure Settings where
  /-- Milliseconds to wait before a micro-step. -/
  delay : Nat := 0
  /-- Whether the run begins paused. -/
  startPaused : Bool := false
  /-- The number of phases after which a run ends. -/
  maxCycles : Option Nat := none
  logLevel : Level := .warning
  deriving DecidableEq, Repr

/-- Why there are no settings. -/
inductive SettingsError
  | file (fault : FileFault)
  | malformed
  | unknownLevel (text : String)
  deriving DecidableEq, Repr

def SettingsError.message : SettingsError → String
  | file fault => s!"I/O error: {fault.message}"
  | malformed => "invalid configuration: not a settings object"
  | unknownLevel text => s!"invalid value for log_level: {text}"

def Level.read (text : String) : Except SettingsError Level :=
  match Level.read? text with
  | some level => .ok level
  | none => .error (.unknownLevel text)

namespace Settings

/-! ## Values -/

/-- A number of 64 bits, written with digits alone. -/
def readNumber? : JsonValue → Option Nat
  | .number digits? => digits?.filter (· < 2 ^ 64)
  | _ => none

def readTruth? : JsonValue → Option Bool
  | .truth b => some b
  | _ => none

/-- A number, or null for none. -/
def readLimit? : JsonValue → Option (Option Nat)
  | .null => some none
  | v => (readNumber? v).map some

/-- A level: its name, or an object whose only key it is, with null. -/
def readLevel? : JsonValue → Option Level
  | .string text? => text?.bind Level.ofName?
  | .object [(text?, .null)] => text?.bind Level.ofName?
  | _ => none

/-! ## Fields -/

/-- The four settings. -/
inductive Field
  | delay | startPaused | maxCycles | logLevel
  deriving DecidableEq, Repr

def Field.all : List Field := [delay, startPaused, maxCycles, logLevel]

def Field.name : Field → String
  | delay => "delay_ms"
  | startPaused => "start_paused"
  | maxCycles => "max_cycles"
  | logLevel => "log_level"

def put? (s : Settings) (field : Field) (v : JsonValue) : Option Settings :=
  match field with
  | .delay => (readNumber? v).map fun delay => { s with delay }
  | .startPaused => (readTruth? v).map fun startPaused => { s with startPaused }
  | .maxCycles => (readLimit? v).map fun maxCycles => { s with maxCycles }
  | .logLevel => (readLevel? v).map fun logLevel => { s with logLevel }

def putAll? (s : Settings) : List (Field × JsonValue) → Option Settings
  | [] => some s
  | (field, v) :: rest =>
    match s.put? field v with
    | none => none
    | some s => putAll? s rest

/-- The fields of an object that are settings, if every key is a text. -/
def known? (fields : List (Option String × JsonValue)) : Option (List (Field × JsonValue)) :=
  if fields.all (·.1.isSome) then
    some (fields.filterMap fun (key, v) =>
      (Field.all.find? fun field => some field.name == key).map (·, v))
  else none

/-- The settings in a value: an object, or a list of the first few settings in their order. -/
def ofJson? : JsonValue → Option Settings
  | .list items =>
    if items.length ≤ Field.all.length then putAll? {} (Field.all.zip items) else none
  | .object fields =>
    match known? fields with
    | none => none
    | some known => if (known.map (·.1)).Nodup then putAll? {} known else none
  | _ => none

/-! ## Texts and files -/

def read (text : String) : Except SettingsError Settings :=
  match (JsonValue.read? text).bind ofJson? with
  | some settings => .ok settings
  | none => .error .malformed

/-- The settings of a text that was asked for from a file. -/
def ofFile : Except FileFault String → Except SettingsError Settings
  | .error fault => .error (.file fault)
  | .ok text => read text

def load (folder : Folder) (path : String) : Except SettingsError Settings :=
  ofFile (folder.read path)

def render (s : Settings) : String :=
  JsonValue.renderFields
    [(Field.delay.name, Text.decimal s.delay),
      (Field.startPaused.name, Text.truth s.startPaused),
      (Field.maxCycles.name, (s.maxCycles.map Text.decimal).getD "null"),
      (Field.logLevel.name, "\"" ++ s.logLevel.name ++ "\"")]

end Settings

end TrnComputer
