import TrnComputer.Text.Blank

/-! # Statements

A source line reads `LABEL: MNEMONIC,I ARGUMENTS // comment`, where everything but the mnemonic may
be missing.

* `Statement.read`: the statement on a line, if there is one.
* `Statement.render`: a statement as a line.

A colon ends a label when an identifier stands before it. It belongs to the arguments when several
words stand before it; one word that is no identifier is an error.
-/

namespace TrnComputer
set_option autoImplicit false

/-! ## Identifiers and comments -/

/-- Whether a text is a letter or an underscore and then letters, digits and underscores. Letters
and digits are those of ASCII. -/
def isIdentifier : List Char → Bool
  | [] => false
  | c :: rest => (c.isAlpha || c == '_') && rest.all fun d => d.isAlphanum || d == '_'

/-- A text in capitals. Letters outside ASCII stay as they are. -/
def capitals (s : List Char) : String := String.ofList (s.map Char.toUpper)

/-- A line without its comment, which starts at the first two slashes. -/
def stripComment : List Char → List Char
  | [] => []
  | '/' :: '/' :: _ => []
  | c :: rest => c :: stripComment rest

/-! ## Statements -/

/-- What a source line says. Label and mnemonic are in capitals. -/
structure Statement where
  label : Option String
  mnemonic : String
  indexed : Bool
  arguments : String
  deriving DecidableEq, Repr

/-- Why a line holds no statement. -/
inductive SyntaxFault
  | invalidLabel (text : String)
  | labelAlone (label : String)
  | noInstruction (text : String)
  | trailing (text mnemonic : String)
  deriving DecidableEq, Repr

def SyntaxFault.message : SyntaxFault → String
  | invalidLabel text => "invalid label '" ++ text ++ "'"
  | labelAlone label => s!"missing instruction after label {label}"
  | noInstruction text => "expected instruction, found '" ++ text ++ "'"
  | trailing text mnemonic => "unexpected '" ++ text ++ s!"' after {mnemonic}"

namespace Statement

/-- The label in front of a line, and what follows it. -/
def splitLabel (line : List Char) : Except SyntaxFault (Option String × List Char) :=
  match line.dropWhile (· != ':') with
  | [] => .ok (none, line)
  | _ :: rest =>
    let candidate := Text.trim (line.takeWhile (· != ':'))
    if isIdentifier candidate then .ok (some (capitals candidate), Text.trimStart rest)
    else if candidate.isEmpty || !candidate.any Text.isBlank then
      .error (.invalidLabel (String.ofList candidate))
    else .ok (none, line)

/-- Whether the modifier `,I` follows, and what follows it. -/
def splitModifier : List Char → Bool × List Char
  | ',' :: 'I' :: rest => (true, rest)
  | ',' :: 'i' :: rest => (true, rest)
  | rest => (false, rest)

def readInstruction (label : Option String) (text : List Char) : Except SyntaxFault Statement :=
  let letters := text.takeWhile Char.isAlpha
  if letters.isEmpty then
    match label with
    | some label => .error (.labelAlone label)
    | none => .error (.noInstruction (String.ofList text))
  else
    let mnemonic := capitals letters
    let (indexed, rest) := splitModifier (text.dropWhile Char.isAlpha)
    let arguments := String.ofList (Text.trim rest)
    if rest.head?.all Text.isBlank then .ok ⟨label, mnemonic, indexed, arguments⟩
    else .error (.trailing arguments mnemonic)

/-- The statement on a line. A blank line, or one with a comment alone, holds none. -/
def read (line : List Char) : Except SyntaxFault (Option Statement) :=
  let text := Text.trim (stripComment line)
  if text.isEmpty then .ok none
  else match splitLabel text with
    | .error fault => .error fault
    | .ok (label, rest) =>
      match readInstruction label rest with
      | .error fault => .error fault
      | .ok statement => .ok (some statement)

def render (s : Statement) : String :=
  (match s.label with
    | some label => label ++ ": "
    | none => "") ++
    s.mnemonic ++ (if s.indexed then ",I" else "") ++
    (if s.arguments.isEmpty then "" else " " ++ s.arguments)

end Statement

end TrnComputer
