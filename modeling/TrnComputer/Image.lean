import TrnComputer.Folder
import TrnComputer.Memory
import TrnComputer.Sink
import TrnComputer.Text.Blank

/-! # Memory images

An image is a text with a line for each cell: the address and the value, in binary digits, with a
tab between them.

* `Image.decode`: the memory of a text. Blank lines do not count, addresses may come in any order
  and may leave gaps, which read as zero, and the last line for an address wins.
* `Image.render`: the text of a memory, with 13 digits for an address and 20 for a value.
* `Image.encode`: the same text, written into a sink that may take only part of it.
* `Image.writeWithin`: the same, where there is room for so many characters.
* `Image.load`, `Image.save`: images in the files of a folder.
-/

namespace TrnComputer
set_option autoImplicit false

/-! ## Faults -/

/-- The two fields of a line. -/
inductive ImageField
  | address | value
  deriving DecidableEq, Repr

namespace ImageField

def name : ImageField → String
  | address => "address"
  | value => "value"

/-- The significant bits that can be read. -/
def maxBits : ImageField → Nat
  | address => 16
  | value => 32

end ImageField

/-- What is wrong with a line. -/
inductive ImageLineFault
  | fieldCount (found : Nat)
  | unreadable (field : ImageField) (text : String)
  | tooWide
  deriving DecidableEq, Repr

def ImageLineFault.message : ImageLineFault → String
  | fieldCount found => s!"expected 2 tab-separated fields, found {Text.decimal found}"
  | unreadable field text => "could not parse " ++ field.name ++ " '" ++ text ++ "'"
  | tooWide => "value wider than 20 bits"

/-- Why an image cannot be read or written. Lines and cells count from one. -/
inductive ImageError
  | file (fault : FileFault)
  | line (number : Nat) (fault : ImageLineFault)
  | cell (number : Nat) (refusal : Refusal)
  deriving DecidableEq, Repr

namespace ImageError

def message : ImageError → String
  | file fault => s!"I/O error: {fault.message}"
  | line number fault => s!"parse error on line {Text.decimal number}: {fault.message}"
  | cell number refusal => s!"could not write cell {Text.decimal number}: {refusal.message}"

def position? : ImageError → Option Nat
  | file _ => none
  | line number _ | cell number _ => some number

end ImageError

namespace Image

/-! ## Reading -/

/-- The number in a field: binary digits, of which those after the leading zeros fit. -/
def readField (field : ImageField) (text : List Char) : Except ImageLineFault Nat :=
  let digits := Text.trim text
  let significant := digits.dropWhile (· == '0')
  if digits.isEmpty || !(digits.all fun c => c == '0' || c == '1') ||
      field.maxBits < significant.length then
    .error (.unreadable field (String.ofList digits))
  else .ok (significant.foldl (fun n c => n * 2 + if c = '1' then 1 else 0) 0)

/-- The address and the value on a line that is not blank. -/
def readLine (text : List Char) : Except ImageLineFault (Nat × Nat) :=
  match Text.split '\t' text with
  | [first, second] =>
    match readField .address first with
    | .error fault => .error fault
    | .ok address =>
      match readField .value second with
      | .error fault => .error fault
      | .ok value => if value < 2 ^ 20 then .ok (address, value) else .error .tooWide
  | fields => .error (.fieldCount fields.length)

/-- Stores the cells of the lines from the one with the given number on. -/
def readLines (number : Nat) (memory : Memory) : List (List Char) → Except ImageError Memory
  | [] => .ok memory
  | text :: rest =>
    if Text.isAllBlank text then readLines (number + 1) memory rest
    else match readLine text with
      | .error fault => .error (.line number fault)
      | .ok (address, value) => readLines (number + 1) (memory.store address value) rest

def decode (text : String) : Except ImageError Memory :=
  readLines 1 .empty (Text.lines text.toList)

/-! ## Writing -/

/-- The line of a cell. Of its value the low 20 bits are written. -/
def line (address cell : Nat) : String :=
  Word.toBinary address 13 ++ "\t" ++ Word.toBinary (Word.significant cell) 20 ++ "\n"

def renderLines (memory : Memory) : List String :=
  memory.cells.toList.zipIdx.map fun (cell, address) => line address cell

def render (memory : Memory) : String := String.join (renderLines memory)

/-- The parts in which the line of a cell is written. -/
def lineParts (address cell : Nat) : List String :=
  [Word.toBinary address 13, "\t", Word.toBinary (Word.significant cell) 20, "\n"]

/-- Writes the lines of cells from an address on, up to the first cell that cannot be written. -/
def encodeFrom {State : Type} (sink : Sink State) (address : Nat) (w : Writing State) :
    List Nat → Writing State × Option ImageError
  | [] => (w, none)
  | cell :: rest =>
    let w := sink.offerEach w (lineParts address cell)
    match w.refusal with
    | some refusal => (w, some (.cell (address + 1) refusal))
    | none => encodeFrom sink (address + 1) w rest

/-- Writes the image of a memory into a sink. -/
def encode {State : Type} (sink : Sink State) (state : State) (memory : Memory) :
    Writing State × Option ImageError :=
  encodeFrom sink 0 { state } memory.cells.toList

/-- Writes the image of a memory where there is room for so many characters. The result is what was
written and the error. -/
def writeWithin (room : Nat) (refusal : Refusal) (memory : Memory) : String × Option ImageError :=
  let (w, e) := encode (.limited refusal) room memory
  (w.written, e)

/-! ## Files -/

/-- The memory of an image that was asked for from a file. -/
def ofFile : Except FileFault String → Except ImageError Memory
  | .error fault => .error (.file fault)
  | .ok text => decode text

def load (folder : Folder) (path : String) : Except ImageError Memory :=
  ofFile (folder.read path)

def portion : Nat := 8192

/-- The error of an image that could not be put into a file. Lack of space shows when a portion is
handed over: at the first cell for which the portion has no room, or after the last cell. -/
def saveError (memory : Memory) (fault : FileFault) : ImageError :=
  if fault = .noSpace then ((writeWithin portion (.file fault) memory).2).getD (.file fault)
  else .file fault

/-- The folder with the image of a memory in a file. -/
def save (folder : Folder) (path : String) (memory : Memory) : Except ImageError Folder :=
  (folder.write path (render memory)).mapError (saveError memory)

end Image

end TrnComputer
