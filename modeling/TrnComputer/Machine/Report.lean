import TrnComputer.Diagnostics.Record
import TrnComputer.Disassembly
import TrnComputer.Machine.Event

/-! # Diagnostic reports of the machine

The machine reports each instruction that it begins to carry out, and how it stops.
-/

namespace TrnComputer
set_option autoImplicit false

/-- What the machine reports for diagnosis, with the clock and the program counter of the time. -/
inductive MachineReport
  | execute (clock pc ir : Nat)
  | halted (clock pc : Nat)
  | stopped (clock pc : Nat) (cause : Fault)
  deriving DecidableEq, Repr

def MachineReport.record (stage : String) : MachineReport → Record
  | execute clock pc ir =>
    .ofStage stage .trace "execute"
      [("clock", Text.decimal clock), ("pc", Text.decimal pc), ("instruction", Disassembly.word ir)]
  | halted clock pc =>
    .ofStage stage .debug "halted" [("clock", Text.decimal clock), ("pc", Text.decimal pc)]
  | stopped clock pc cause =>
    .ofStage stage .error "execution stopped"
      [("clock", Text.decimal clock), ("pc", Text.decimal pc), ("error", cause.message)]

end TrnComputer
