import TrnComputer.Assembly.Statement
import TrnComputer.Text.Numeral
import TrnComputer.Text.Split

/-! # Arguments

The arguments of a statement stand between commas; parentheses around them all ask for indirect
addressing. Each is a literal. An argument that stands alone may be a sum of labels and decimal
numbers instead.

* `LabelSum.read`: a sum.
* `Arguments.read`: the arguments of a statement.
-/

namespace TrnComputer
set_option autoImplicit false

/-- Labels, in capitals and in source order, and the total of the numbers between them. -/
structure LabelSum where
  labels : List String
  constant : Int
  deriving DecidableEq, Repr

/-- A signed 64-bit sum, which wraps around. -/
def wrappingAdd (a b : Int) : Int := (a + b).bmod (2 ^ 64)

/-- One argument. -/
inductive Argument
  | literal (value : Int)
  | sum (sum : LabelSum)
  deriving DecidableEq, Repr

/-- The arguments of a statement. -/
structure Arguments where
  indirect : Bool
  values : List Argument
  deriving DecidableEq, Repr

/-- Why arguments cannot be read. -/
inductive ArgumentFault
  | invalid (text : String)
  | labelStartsWithDigit (label : String)
  deriving DecidableEq, Repr

/-! ## Sums -/

/-- A term of a sum. -/
inductive LabelTerm
  | number (value : Int)
  | label (name : String)
  deriving DecidableEq, Repr

namespace LabelTerm

def label? : LabelTerm → Option String
  | number _ => none
  | label name => some name

def value : LabelTerm → Int
  | number value => value
  | label _ => 0

end LabelTerm

namespace LabelSum

def readTerm (whole term : List Char) : Except ArgumentFault LabelTerm :=
  match Text.readSigned? term with
  | some value => .ok (.number value)
  | none =>
    if term.head?.any Char.isDigit then .error (.labelStartsWithDigit (String.ofList term))
    else if isIdentifier term then .ok (.label (capitals term))
    else .error (.invalid (String.ofList whole))

def ofTerms (terms : List LabelTerm) : LabelSum :=
  ⟨terms.filterMap LabelTerm.label?, (terms.map LabelTerm.value).foldl wrappingAdd 0⟩

/-- Reads terms between plus signs. The first term that cannot be read decides the fault. -/
def read (text : List Char) : Except ArgumentFault LabelSum :=
  match (Text.split '+' text).mapM fun term => readTerm text (Text.trim term) with
  | .error fault => .error fault
  | .ok terms => .ok (ofTerms terms)

end LabelSum

/-! ## Argument lists -/

namespace Arguments

/-- What stands between parentheses around a whole text. -/
def unwrap? (text : List Char) : Option (List Char) :=
  if text.head? = some '(' ∧ text.getLast? = some ')' then some text.tail.dropLast else none

/-- Reads one argument. A sum must be the `sole` one and begins with neither a digit nor a dollar
sign. -/
def readOne (sole : Bool) (text : List Char) : Except ArgumentFault Argument :=
  match Text.readLiteral? text with
  | some value => .ok (.literal value)
  | none =>
    if sole && text.head?.any fun c => !c.isDigit && c != '$' then
      match LabelSum.read text with
      | .error fault => .error fault
      | .ok sum => .ok (.sum sum)
    else .error (.invalid (String.ofList text))

def read (text : List Char) : Except ArgumentFault Arguments :=
  let text := Text.trim text
  let (indirect, inner) :=
    match unwrap? text with
    | some inner => (true, Text.trim inner)
    | none => (false, text)
  if inner.isEmpty then .ok ⟨indirect, []⟩
  else
    let pieces := Text.split ',' inner
    match pieces.mapM fun piece => readOne (pieces.length == 1) (Text.trim piece) with
    | .error fault => .error fault
    | .ok values => .ok ⟨indirect, values⟩

end Arguments

end TrnComputer
