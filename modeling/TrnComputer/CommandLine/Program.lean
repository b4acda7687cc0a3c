import TrnComputer.Assembly.Assemble
import TrnComputer.CommandLine.Presentation
import TrnComputer.Image

/-! # Programs

* `loadProgram`: the program in a file.
* `startProgram`: a run of it.
-/

namespace TrnComputer
set_option autoImplicit false

/-- A program made ready to run, from source text or from an image. Whether it is source text is
told by the end of its path. The result is none when the program cannot be had. -/
def loadProgram (path : String) : Script (Option Memory) :=
  .readFile path fun answer =>
    if path.endsWith ".asm" then
      match answer with
      | .error fault =>
        .complain (Presentation.failure s!"Failed to read file: {fault.message}") (.done none)
      | .ok source =>
        match assemble source with
        | .error e =>
          .complain (Presentation.failure s!"Assembly error: {e.message}") (.done none)
        | .ok memory =>
          .print s!"📝 Assembled {Text.decimal memory.size} cells\n" (.done (some memory))
    else
      match Image.ofFile answer with
      | .error e =>
        .complain (Presentation.failure s!"Failed to load image: {e.message}") (.done none)
      | .ok memory =>
        .print s!"📂 Loaded {Text.decimal memory.size} cells\n" (.done (some memory))

def startProgram (settings : Settings) (memory : Memory) : Except ControlError Controller :=
  match (Controller.ofSettings settings).load memory with
  | (_, .error e) => .error e
  | (controller, .ok ()) =>
    match controller.start with
    | (_, .error e) => .error e
    | (controller, .ok ()) => .ok controller

def inputWord (value : Int) : Nat := lowBits 20 value

end TrnComputer
