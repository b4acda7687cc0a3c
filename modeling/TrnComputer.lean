import TrnComputer.Main
import TrnComputer.Proofs.Machine.WellFormed
import TrnComputer.Proofs.Machine.Phases
import TrnComputer.Proofs.Machine.Operations
import TrnComputer.Proofs.Machine.Instructions
import TrnComputer.Proofs.Machine.Replay
import TrnComputer.Proofs.Machine.Progress
import TrnComputer.Proofs.Control.Bare
import TrnComputer.Proofs.Control.Transparency
import TrnComputer.Proofs.Control.Soundness
import TrnComputer.Proofs.Control.Usage
import TrnComputer.Proofs.Control.Interruption
import TrnComputer.Proofs.Control.Inputs
import TrnComputer.Proofs.Control.LifeCycle
import TrnComputer.Proofs.Assembly.Drafts
import TrnComputer.Proofs.Assembly.Sources
import TrnComputer.Proofs.Assembly.Assembled
import TrnComputer.Proofs.Assembly.Overwriting
import TrnComputer.Proofs.Assembly.Rendering
import TrnComputer.Proofs.Assembly.Reassembly
import TrnComputer.Proofs.Assembly.Grammar
import TrnComputer.Proofs.Assembly.Layout
import TrnComputer.Proofs.Assembly.Bracketing
import TrnComputer.Proofs.Image.RoundTrip
import TrnComputer.Proofs.Machine.Faults
import TrnComputer.Proofs.Machine.Flags
import TrnComputer.Proofs.Machine.Alike
import TrnComputer.Proofs.Image.Files
import TrnComputer.Proofs.Assembly.Bounds
import TrnComputer.Proofs.Control.Permits
import TrnComputer.Proofs.Control.Grants
import TrnComputer.Proofs.Instruction.Encoding
import TrnComputer.Proofs.Image.Format
import TrnComputer.Proofs.Assembly.Rejection
import TrnComputer.Proofs.Machine.Stack
import TrnComputer.Proofs.Machine.Calls
import TrnComputer.Proofs.Machine.Timing
import TrnComputer.Proofs.Machine.Arithmetic
import TrnComputer.Proofs.Machine.Limits
import TrnComputer.Proofs.CommandLine.RunCommand
import TrnComputer.Proofs.Assembly.Symbols
import TrnComputer.Proofs.Image.Writing
import TrnComputer.Proofs.Assembly.Reports
import TrnComputer.Proofs.Control.ExecutionLog
