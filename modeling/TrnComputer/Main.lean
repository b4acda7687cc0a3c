import TrnComputer.CommandLine.Session

/-! # The program

Scripts are carried out on the real surroundings: standard streams and files. A line is read in the
background, so that a command that is busy sees it when it comes.
-/

namespace TrnComputer
set_option autoImplicit false

namespace Main

/-- The line that is being read, if any. -/
abbrev Reader := IO.Ref (Option (Task (Except IO.Error String)))

/-- The fault that an error of the system stands for. -/
def faultOf : IO.Error → FileFault
  | .noFileOrDirectory .. => .missing
  | .noSuchThing .. => .unconnected
  | .permissionDenied .. => .denied
  | .inappropriateType _ code _ => if code = 20 then .notADirectory else .isADirectory
  | .resourceExhausted .. => .noSpace
  | .invalidArgument .. => .nameTooLong
  | _ => .unavailable

def readText (path : String) : IO (Except FileFault String) := do
  try
    let handle ← IO.FS.Handle.mk path .read
    let bytes ← handle.readBinToEnd
    return match String.fromUTF8? bytes with
      | some text => .ok text
      | none => .error .notText
  catch e => return .error (faultOf e)

def writeText (path text : String) : IO (Except FileFault Unit) := do
  try
    let handle ← IO.FS.Handle.mk path .write
    handle.putStr text
    handle.flush
    return .ok ()
  catch e => return .error (faultOf e)

/-- Asks for a line. One who is busy does not wait. -/
def nextLine (reader : Reader) (busy : Bool) : IO Arrival := do
  let task ← match ← reader.get with
    | some task => pure task
    | none =>
      let task ← IO.asTask (do (← IO.getStdin).getLine) .dedicated
      reader.set (some task)
      pure task
  if busy && !(← IO.hasFinished task) then return .notYet
  match ← IO.wait task with
  | .ok text =>
    if text.isEmpty then return .over
    reader.set none
    return .line text
  | .error _ => return .over

def perform {α : Type} (reader : Reader) : Script α → IO α
  | .done result => return result
  | .print text next => do
    IO.print text
    (← IO.getStdout).flush
    perform reader next
  | .complain text next => do
    IO.eprintln text
    perform reader next
  | .readFile path next => do perform reader (next (← readText path))
  | .writeFile path text next => do perform reader (next (← writeText path text))
  | .readLine busy next => do perform reader (next (← nextLine reader busy))
  | .rest milliseconds next => do
    IO.sleep milliseconds.toUInt32
    perform reader next

/-- Takes turns until the session ends. -/
partial def playOn (reader : Reader) : Progress Session → IO UInt32
  | .ended status => return status.toUInt32
  | .going session => do playOn reader (← perform reader session.turn)

end Main

end TrnComputer

/-- Runs the program with the arguments of the command line. -/
def main (arguments : List String) : IO UInt32 := do
  let reader ← IO.mkRef none
  let progress ← TrnComputer.Main.perform reader (TrnComputer.Session.ofArguments arguments)
  TrnComputer.Main.playOn reader progress
