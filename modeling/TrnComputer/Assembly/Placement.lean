import TrnComputer.Assembly.Fault
import TrnComputer.Instruction.Mnemonic
import TrnComputer.Word

/-! # Placements

What a statement does to the memory under construction is a list of placements, which depends on
the statement alone.

* `Placement`: one effect.
* `Statement.placements`: the effects of a statement.
* `placementsOfLine`: those of a source line.

A statement checks in this order: that a program is open, then its label, then its arguments.
-/

namespace TrnComputer
set_option autoImplicit false

/-- One effect of a source line. -/
inductive Placement
  /-- A program must be open for the mnemonic. -/
  | within (mnemonic : String)
  /-- The label stands for the next cell. -/
  | label (name : String)
  /-- A program begins. Its name must not be empty. -/
  | openProgram (name : String)
  /-- The open program ends. -/
  | closeProgram
  /-- The next cell waits for the value of a sum. -/
  | reference (sum : LabelSum)
  /-- The next cell holds a word. -/
  | word (value : Nat)
  /-- A number of cells is skipped. -/
  | reserve (count : Int)
  /-- The next cell is the one at an address. -/
  | origin (address : Int)
  /-- The line is wrong. -/
  | reject (fault : LineFault)
  deriving DecidableEq, Repr

def leastOperand : Int := -4096

def greatestOperand : Int := 8191

def lowBits (width : Nat) (value : Int) : Nat := (value % 2 ^ width).toNat

/-- Statements that are no machine instructions. -/
inductive Directive
  | programName | programEnd | constants | reserve | origin
  /-- Accepted, without effect. -/
  | ignored
  deriving DecidableEq, Repr

def Directive.ofMnemonic? : String → Option Directive
  | "NAM" => some programName
  | "END" => some programEnd
  | "CON" => some constants
  | "RES" => some reserve
  | "ORG" => some origin
  | "ENT" => some ignored
  | "EXT" => some ignored
  | _ => none

namespace Statement

/-- The placements of an instruction with given arguments. -/
def instructionPlacements (s : Statement) (m : Mnemonic) (arguments : Arguments) :
    List Placement :=
  let encode (field : Nat) : Placement :=
    .word (Word.pack m.opcode.code arguments.indirect s.indexed field)
  if m.opcode.takesOperand then
    match arguments.values with
    | [.literal value] =>
      if leastOperand ≤ value ∧ value ≤ greatestOperand then [encode (lowBits 13 value)]
      else [.reject (.valueOutOfRange value)]
    | [.sum sum] => [.reference sum, encode 0]
    | [] => [.reject (.missingArgument s.mnemonic)]
    | _ => [.reject (.invalidArgument s.arguments)]
  else if arguments.values.isEmpty then [encode m.subcode]
  else [.reject (.invalidArgument s.arguments)]

def constantPlacements : Argument → List Placement
  | .literal value => [.word (lowBits 20 value)]
  | .sum sum => [.reference sum, .word 0]

/-- The placement of a directive that takes one literal. -/
def literalPlacement (s : Statement) (place : Int → Placement) : Placement :=
  match Arguments.read s.arguments.toList with
  | .error fault => .reject (.ofArgument fault)
  | .ok ⟨_, [.literal value]⟩ => place value
  | .ok ⟨_, []⟩ => .reject (.missingArgument s.mnemonic)
  | .ok _ => .reject (.invalidArgument s.arguments)

def directivePlacements (s : Statement) : Directive → List Placement
  | .programName => [.openProgram s.arguments]
  | .programEnd => [.closeProgram]
  | .constants =>
    match Arguments.read s.arguments.toList with
    | .error fault => [.reject (.ofArgument fault)]
    | .ok ⟨_, []⟩ => [.reject (.missingArgument s.mnemonic)]
    | .ok ⟨_, values⟩ => values.flatMap constantPlacements
  | .reserve => [s.literalPlacement .reserve]
  | .origin => [s.literalPlacement .origin]
  | .ignored => []

/-- The placements of a statement after those of its label. No directive takes the indexed
modifier, and none but the end of a program takes the indirect one. -/
def bodyPlacements (s : Statement) : List Placement :=
  match Mnemonic.find? s.mnemonic with
  | some m =>
    match Arguments.read s.arguments.toList with
    | .error fault => [.reject (.ofArgument fault)]
    | .ok arguments => s.instructionPlacements m arguments
  | none =>
    match Directive.ofMnemonic? s.mnemonic with
    | none => [.reject (.unknownInstruction s.mnemonic)]
    | some directive =>
      let indirect := (Arguments.unwrap? s.arguments.toList).isSome
      if s.indexed || (indirect && directive != .programEnd) then
        [.reject (.invalidArgument s.arguments)]
      else s.directivePlacements directive

/-- The placements of a statement. Only `NAM` may stand outside a program. -/
def placements (s : Statement) : List Placement :=
  (if s.mnemonic = "NAM" then [] else [.within s.mnemonic]) ++
    (s.label.toList.map .label) ++ s.bodyPlacements

end Statement

def placementsOfLine (text : List Char) : List Placement :=
  match Statement.read text with
  | .error fault => [.reject (.unreadable fault)]
  | .ok none => []
  | .ok (some statement) => statement.placements

/-- The placements of a source, each with the number of its line. -/
def placementsOfSource (source : String) : List (Nat × Placement) :=
  ((Text.lines source.toList).zipIdx 1).flatMap fun (text, number) =>
    (placementsOfLine text).map (number, ·)

end TrnComputer
