import TrnComputer.Assembly.Placement
import TrnComputer.Diagnostics.Record
import TrnComputer.Memory

/-! # Drafts

A draft is a memory under construction: the next address, the cells so far, the labels defined so
far, the references that wait for labels, and the program that is open.

* `Draft.perform`: carries out a placement.
* `Draft.performAll`: carries out placements until one fails.
* `Reference.patch`: a cell with the value of a reference put in.
* `Draft.link`: puts the values of all references in.
-/

namespace TrnComputer
set_option autoImplicit false

/-- A sum of labels that a cell waits for. -/
structure Reference where
  sum : LabelSum
  address : Nat
  line : Nat
  deriving DecidableEq, Repr

/-- A memory under construction. -/
structure Draft where
  cursor : Nat := 0
  memory : Memory := .empty
  symbols : SymbolTable := .empty
  references : Array Reference := #[]
  program : Option String := none

def assemblyRecord (level : Level) (message : String) (fields : List (String × String)) : Record :=
  .ofStage "assembler" level message fields

namespace Draft

/-- The draft of a source before its first line. -/
def initial : Draft := {}

/-! ## Placements -/

/-- The draft after a placement of the given line, and the record of it. -/
def perform (line : Nat) (d : Draft) : Placement → Except LineFault (Draft × Option Record)
  | .within mnemonic =>
    if d.program.isNone then .error (.outsideProgram mnemonic) else .ok (d, none)
  | .label name =>
    match d.symbols.define name d.cursor with
    | .error _ => .error (.duplicateLabel name)
    | .ok symbols =>
      .ok ({ d with symbols },
        assemblyRecord .trace "label defined"
          [("label", name), ("address", Text.decimal d.cursor)])
  | .openProgram name =>
    match d.program with
    | some outer => .error (.nestedProgram outer)
    | none =>
      if name.isEmpty then .error (.missingArgument "NAM")
      else .ok ({ d with program := some name },
        assemblyRecord .debug "program opened" [("name", name), ("line", Text.decimal line)])
  | .closeProgram => .ok ({ d with program := none }, none)
  | .reference sum =>
    .ok ({ d with references := d.references.push ⟨sum, d.cursor, line⟩ },
      assemblyRecord .trace "reference deferred"
        [("labels", String.intercalate "+" sum.labels),
          ("partial", Text.signedDecimal sum.constant),
          ("address", Text.decimal d.cursor)])
  | .word value =>
    if d.cursor < Word.addressSpace then
      .ok ({ d with memory := d.memory.store d.cursor value, cursor := d.cursor + 1 }, none)
    else .error (.addressOutOfRange d.cursor)
  | .reserve count =>
    if 0 ≤ count ∧ count ≤ Word.addressSpace - d.cursor then
      let cursor := d.cursor + count.toNat
      .ok ({ d with cursor, memory := d.memory.grow cursor }, none)
    else .error (.valueOutOfRange count)
  | .origin address =>
    if 0 ≤ address ∧ address ≤ Word.addressSpace then
      .ok ({ d with cursor := address.toNat }, none)
    else .error (.valueOutOfRange address)
  | .reject fault => .error fault

/-- Carries out placements in order, adding their records to those before. -/
def performAll (d : Draft) (records : Array Record) :
    List (Nat × Placement) → Array Record × Except AssemblyError Draft
  | [] => (records, .ok d)
  | (line, placement) :: rest =>
    match d.perform line placement with
    | .error fault => (records, .error (.line line fault))
    | .ok (d, none) => d.performAll records rest
    | .ok (d, some record) => d.performAll (records.push record) rest

end Draft

/-! ## References -/

/-- A cell with a value in its operand field. A negative value negates the whole word. -/
def Reference.patch (cell : Nat) (value : Int) : Nat :=
  let patched := cell ||| lowBits 13 value
  if value < 0 then Word.negate patched else patched

namespace Draft

/-- Puts the values of references into a memory, in order. -/
def link (symbols : SymbolTable) (memory : Memory) (records : Array Record) :
    List Reference → Array Record × Except AssemblyError Memory
  | [] => (records, .ok memory)
  | reference :: rest =>
    match symbols.resolve reference.sum with
    | .error label => (records, .error (.undefinedLabel label))
    | .ok value =>
      match memory.get? reference.address with
      | none => (records, .error (.patchOutOfRange reference.address))
      | some cell =>
        let memory := memory.store reference.address (Reference.patch cell value)
        let record := assemblyRecord .trace "reference patched"
          [("address", Text.decimal reference.address), ("value", Text.signedDecimal value),
            ("line", Text.decimal reference.line)]
        link symbols memory (records.push record) rest

end Draft

end TrnComputer
