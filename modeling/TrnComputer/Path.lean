import TrnComputer.Text.Split

/-! # Paths

A path is a text of parts with slashes between them. Parts that are empty or a dot stand for the
folder in which they stand, and two dots for the one around it.

* `Path.splitLast?`: the last name of a path, with the parts before it.
* `Path.withExtension`: the path with another extension.
-/

namespace TrnComputer.Path
set_option autoImplicit false

def parts (path : List Char) : List (List Char) := Text.split '/' path

def ofParts (parts : List (List Char)) : List Char := ['/'].intercalate parts

theorem ofParts_parts (path : List Char) : ofParts (parts path) = path :=
  Text.intercalate_split '/' path

/-- Whether a part stands for the folder in which it stands. -/
def isSame (part : List Char) : Bool := part.isEmpty || part == ['.']

/-- Whether a part stands for the folder around the one in which it stands. -/
def isOuter (part : List Char) : Bool := part == ['.', '.']

/-- The parts before the last name of a path, and that name. There is none at the end of a path to
an outer folder. -/
def splitLast? (path : List Char) : Option (List (List Char) × List Char) :=
  match (parts path).reverse.dropWhile isSame with
  | [] => none
  | name :: before => if isOuter name then none else some (before.reverse, name)

/-! ## Extensions -/

/-- A name up to its last dot, and what follows that dot. A name with no dot, or with its only dot
in front, has no extension. -/
def splitExtension (name : List Char) : List Char × List Char :=
  match name.reverse.dropWhile (· != '.') with
  | [] | [_] => (name, [])
  | _ :: stem => (stem.reverse, (name.reverse.takeWhile (· != '.')).reverse)

/-- The path without as many characters at its end as the extension of its last name has. The dot
stays. -/
def dropExtension (path : List Char) : List Char :=
  match splitLast? path with
  | none => path
  | some (_, name) => path.take (path.length - (splitExtension name).2.length)

/-- The path up to its last name, in which the extension is replaced. A path without a last name
stays. -/
def setExtension (path extension : List Char) : List Char :=
  match splitLast? path with
  | none => path
  | some (before, name) => ofParts (before ++ [(splitExtension name).1 ++ '.' :: extension])

/-- The path with another extension. The old one is dropped first: what is left of `..x` stands for
the outer folder and takes no extension. -/
def withExtension (path extension : String) : String :=
  String.ofList (setExtension (dropExtension path.toList) extension.toList)

end TrnComputer.Path
