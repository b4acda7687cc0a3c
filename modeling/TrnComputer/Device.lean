import TrnComputer.FileFault

/-! # Devices

A device is named like a file, and gives and takes texts like one.

* `Device.text`, `Device.accept`: what it gives, and whether it takes a text.
-/

namespace TrnComputer
set_option autoImplicit false

/-- What is used like a file and is none. -/
inductive Device
  /-- Takes everything and keeps nothing. -/
  | sink
  /-- Gives bytes without end. -/
  | source
  /-- Gives bytes without end, and has no space left. -/
  | full
  /-- A terminal to which nobody is connected. -/
  | terminal
  /-- The input of the program. -/
  | input
  /-- The output of the program. -/
  | output
  /-- The messages of the program. -/
  | messages
  deriving DecidableEq, Repr

namespace Device

/-- The text that a device holds. What comes to the input is not held by it, and a text without end
is none. -/
def text : Device → Except FileFault String
  | sink | input | output | messages => .ok ""
  | source | full => .error .unavailable
  | terminal => .error .unconnected

def accept (device : Device) (text : String) : Except FileFault Unit :=
  match device with
  | full => if text.isEmpty then .ok () else .error .noSpace
  | terminal => .error .unconnected
  | sink | source | input | output | messages => .ok ()

end Device

end TrnComputer
