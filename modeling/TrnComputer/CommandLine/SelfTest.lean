import TrnComputer.Assembly.Assemble
import TrnComputer.CommandLine.Presentation
import TrnComputer.Image

/-! # The self-test

Small programs are assembled and run, and a memory is written as an image and read again.
-/

namespace TrnComputer
set_option autoImplicit false

namespace SelfTest

/-- Something that can be checked. -/
structure Check where
  name : String
  passes : Bool

/-- Whether a program halts within ten thousand phases in a state with a property. -/
def halts (source : String) (input : Option Nat) (property : Registers → Bool) : Bool :=
  match assemble source with
  | .error _ => false
  | .ok memory =>
    let start := Machine.ofMemory memory
    let start := match input with
      | some value => start.supply value
      | none => start
    let activity := start.runLimited 10000
    match activity.result with
    | .ok .halted => property activity.machine.registers
    | _ => false

/-- Whether an image of a memory reads as that memory. -/
def readsBack (memory : Memory) : Bool :=
  match Image.decode (Image.render memory) with
  | .ok read => read == memory
  | .error _ => false

def checks : List Check :=
  [⟨"Halt instruction", halts "NAM T\nHLT\nEND" none fun r => r.h && r.clock == 2⟩,
    ⟨"Load/add/subtract",
      halts "NAM T\nLDA A\nADA B\nSUB C\nHLT\nA: CON 10\nB: CON 5\nC: CON 3\nEND" none
        fun r => r.a == 12⟩,
    ⟨"Counting loop",
      halts "NAM T\nENI 10\nLOOP: ADA ONE\nDCI\nJIG LOOP\nHLT\nONE: CON 1\nEND" none
        fun r => r.a == 3 && r.i == 7⟩,
    ⟨"Subroutine call",
      halts "NAM T\nLSP BASE\nJSR SUBR\nHLT\nSUBR: ENA 7\nRET\nBASE: CON 6\nRES 4\nEND" none
        fun r => r.a == 7 && r.sp == 6⟩,
    ⟨"Input and shift", halts "NAM T\nINP\nSHAL\nHLT\nEND" (some 21) fun r => r.a == 42⟩,
    ⟨"Memory image round-trip", readsBack (.ofList [0, 1, 0xFFFFF, 0x1234])⟩]

def Check.line (check : Check) : String :=
  check.name ++ "... " ++ if check.passes then "✓" else "✗"

/-- The lines for all checks and what they come to. -/
def report (checks : List Check) : List String :=
  let passed := checks.countP Check.passes
  let failed := checks.length - passed
  ["━━━ TRN Emulator Self-Test ━━━", ""] ++ checks.map Check.line ++
    ["", "━━━━━━━━━━━━━━━━━━━━━━━━━━━━━━",
      s!"Results: {Text.decimal passed} passed, {Text.decimal failed} failed"] ++
    if failed = 0 then ["✓ All tests passed!"] else []

def run : Script Nat := do
  Presentation.lines (report checks)
  return if checks.all Check.passes then 0 else failureStatus

end SelfTest

end TrnComputer
