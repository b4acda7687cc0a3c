import TrnComputer.Assembly.Assemble

/-! # What a source says

The meaning of a source, without the passes in which it is assembled.

* `statements`: what the lines of a source say.
* `Content`: what a statement puts into a cell. `Content.word` is the word for it, once the labels
  have their addresses.
* `Statement.Meaningful`: a statement has the arguments that its mnemonic asks for.
* `stations`: the statements with the addresses at which they start.
* `emissions`, `labels`, `reserves`: what the statements put into cells, the labels and the ends of
  the cells that are skipped.
* `lastAt`, `extent`: what is put at an address last, and how long the memory gets.
-/

namespace TrnComputer
set_option autoImplicit false

/-! ## Contents of cells -/

/-- What a statement puts into a cell. An instruction without an operand has its sub-code in the
operand field. -/
inductive Content
  | instruction (mnemonic : Mnemonic) (indirect indexed : Bool) (operand : Option Argument)
  | constant (value : Argument)
  deriving DecidableEq

def addressSum (addressOf : String → Nat) : List String → Int
  | [] => 0
  | label :: rest => addressOf label + addressSum addressOf rest

/-- The sum of the addresses of some labels and a constant, in 64 bits. -/
def LabelSum.total (addressOf : String → Nat) (sum : LabelSum) : Int :=
  (sum.constant + addressSum addressOf sum.labels).bmod (2 ^ 64)

def signedWord (value : Int) (word : Nat) : Nat :=
  if value < 0 then Word.negate word else word

namespace Content

/-- The sum of labels that a cell waits for. -/
def sum? : Content → Option LabelSum
  | instruction _ _ _ (some (.sum sum)) | constant (.sum sum) => some sum
  | _ => none

def word (addressOf : String → Nat) : Content → Nat
  | instruction m indirect indexed none =>
    Word.pack m.opcode.code indirect indexed m.subcode
  | instruction m indirect indexed (some (.literal value)) =>
    Word.pack m.opcode.code indirect indexed (lowBits 13 value)
  | instruction m indirect indexed (some (.sum sum)) =>
    signedWord (sum.total addressOf)
      (Word.pack m.opcode.code indirect indexed (lowBits 13 (sum.total addressOf)))
  | constant (.literal value) => lowBits 20 value
  | constant (.sum sum) => signedWord (sum.total addressOf) (lowBits 13 (sum.total addressOf))

end Content

/-! ## Statements -/

def statementOf? (line : List Char) : Option Statement :=
  match Statement.read line with
  | .ok s => s
  | .error _ => none

/-- What the lines of a source say. -/
def statements (source : String) : List Statement :=
  (Text.lines source.toList).filterMap statementOf?

namespace Statement

/-- What a statement puts into cells, one after the other. -/
def contents (s : Statement) : List Content :=
  match Arguments.read s.arguments.toList with
  | .error _ => []
  | .ok arguments =>
    match Mnemonic.find? s.mnemonic with
    | some m => [.instruction m arguments.indirect s.indexed arguments.values.head?]
    | none => if s.mnemonic = "CON" then arguments.values.map .constant else []

/-- The number that is the one argument of a statement. -/
def literal? (s : Statement) : Option Int :=
  match Arguments.read s.arguments.toList with
  | .ok ⟨_, [.literal value]⟩ => some value
  | _ => none

/-- The address after a statement. -/
def nextAddress (s : Statement) (address : Nat) : Nat :=
  if s.mnemonic = "RES" then address + (s.literal?.getD 0).toNat
  else if s.mnemonic = "ORG" then (s.literal?.getD 0).toNat
  else address + s.contents.length

/-- A statement is an instruction or a directive, and has the arguments that it needs. -/
def Meaningful (s : Statement) : Prop :=
  match Mnemonic.find? s.mnemonic with
  | some m =>
    ∃ arguments, Arguments.read s.arguments.toList = .ok arguments ∧
      arguments.values.length = if m.opcode.takesOperand then 1 else 0
  | none =>
    (Directive.ofMnemonic? s.mnemonic).isSome ∧
      (s.mnemonic = "CON" → s.contents ≠ []) ∧
      (s.mnemonic = "RES" ∨ s.mnemonic = "ORG" → ∃ n : Nat, s.literal? = some (n : Int))

end Statement

/-! ## The walk -/

/-- Statements with the addresses at which they start, the first at a given one. -/
def stationsFrom (address : Nat) : List Statement → List (Statement × Nat)
  | [] => []
  | s :: rest => (s, address) :: stationsFrom (s.nextAddress address) rest

def stations (source : String) : List (Statement × Nat) := stationsFrom 0 (statements source)

def placed (address : Nat) : List Content → List (Nat × Content)
  | [] => []
  | content :: rest => (address, content) :: placed (address + 1) rest

/-- What statements put into cells, in order, with the addresses of the cells. -/
def emissions (walk : List (Statement × Nat)) : List (Nat × Content) :=
  walk.flatMap fun station => placed station.2 station.1.contents

/-- The labels with the addresses of their statements. -/
def labels (walk : List (Statement × Nat)) : List (String × Nat) :=
  walk.filterMap fun station => station.1.label.map (·, station.2)

/-- The addresses after the cells that are skipped. -/
def reserves (walk : List (Statement × Nat)) : List Nat :=
  walk.filterMap fun station =>
    if station.1.mnemonic = "RES" then some (station.1.nextAddress station.2) else none

def labelAddress (walk : List (Statement × Nat)) (label : String) : Nat :=
  ((labels walk).lookup label).getD 0

/-- What is put at an address last. -/
def lastAt (address : Nat) : List (Nat × Content) → Option Content
  | [] => none
  | (other, content) :: rest =>
    (lastAt address rest).or (if other = address then some content else none)

/-- The greatest of the addresses after the cells that are filled or skipped. -/
def extent (emitted : List (Nat × Content)) (reserved : List Nat) : Nat :=
  ((emitted.map fun e : Nat × Content => e.1 + 1) ++ reserved).foldl max 0

end TrnComputer
