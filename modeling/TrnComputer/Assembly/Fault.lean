import TrnComputer.Assembly.SymbolTable

/-! # Assembly errors

A fault lies on a line of the source, or is found when all lines have been read: a label that is
referred to and never defined.
-/

namespace TrnComputer
set_option autoImplicit false

/-- What is wrong with a line. -/
inductive LineFault
  | unreadable (fault : SyntaxFault)
  | unknownInstruction (mnemonic : String)
  | invalidArgument (text : String)
  | missingArgument (mnemonic : String)
  | labelStartsWithDigit (label : String)
  | duplicateLabel (label : String)
  | valueOutOfRange (value : Int)
  | addressOutOfRange (address : Nat)
  /-- A statement other than `NAM` outside a program. -/
  | outsideProgram (mnemonic : String)
  /-- A program inside another one, which has the given name. -/
  | nestedProgram (name : String)
  /-- The source ends inside a program. -/
  | unclosedProgram (name : String)
  deriving DecidableEq, Repr

def LineFault.ofArgument : ArgumentFault → LineFault
  | .invalid text => invalidArgument text
  | .labelStartsWithDigit label => labelStartsWithDigit label

def LineFault.message (number : Nat) : LineFault → String
  | unreadable fault => s!"syntax error on line {Text.decimal number}: {fault.message}"
  | unknownInstruction mnemonic =>
    s!"unknown instruction on line {Text.decimal number}: {mnemonic}"
  | invalidArgument text =>
    s!"invalid argument on line {Text.decimal number}: '" ++ text ++ "'"
  | missingArgument mnemonic =>
    s!"missing argument on line {Text.decimal number}: {mnemonic} requires an argument"
  | labelStartsWithDigit label =>
    s!"label starts with a digit on line {Text.decimal number}: {label}"
  | duplicateLabel label => s!"duplicate label on line {Text.decimal number}: {label}"
  | valueOutOfRange value =>
    s!"value out of range on line {Text.decimal number}: {Text.signedDecimal value}"
  | addressOutOfRange address =>
    s!"address out of range on line {Text.decimal number}: {Text.decimal address}"
  | outsideProgram mnemonic => s!"expected NAM on line {Text.decimal number}, found {mnemonic}"
  | nestedProgram name => s!"NAM on line {Text.decimal number} inside open program {name}"
  | unclosedProgram name =>
    s!"unclosed program {name} at line {Text.decimal number}: missing END"

/-- Why a source cannot be assembled. Lines count from one. -/
inductive AssemblyError
  | line (number : Nat) (fault : LineFault)
  | undefinedLabel (label : String)
  /-- A reference to a cell that the memory lacks. -/
  | patchOutOfRange (address : Nat)
  deriving DecidableEq, Repr

namespace AssemblyError

def message : AssemblyError → String
  | line number fault => fault.message number
  | undefinedLabel label => s!"label not defined: {label}"
  | patchOutOfRange address => s!"label patch address out of range: {Text.decimal address}"

def line? : AssemblyError → Option Nat
  | line number _ => some number
  | undefinedLabel _ | patchOutOfRange _ => none

/-- The line, or -1 for an error that is found when labels are resolved. -/
def lineNumber (e : AssemblyError) : Int := e.line?.elim (-1) fun number => (number : Int)

end AssemblyError

end TrnComputer
