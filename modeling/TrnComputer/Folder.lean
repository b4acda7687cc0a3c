import TrnComputer.Place

/-! # A folder of files

A folder holds the files of the working folder by name.

* `Folder.read`, `Folder.write`: the text at a path, and the folder with a text put there.
-/

namespace TrnComputer
set_option autoImplicit false

/-- The bytes of files by name, a name at most once. -/
structure Folder where
  files : List (String × ByteArray) := []
  deriving Inhabited

namespace Folder

def bytes? (folder : Folder) (name : String) : Option ByteArray :=
  folder.files.lookup name

def contains (folder : Folder) (name : String) : Bool := (folder.bytes? name).isSome

def place (folder : Folder) (path : String) : Place := .ofPath folder.contains path

/-- The folder with a file put in, in the place of one of the same name. -/
def put (folder : Folder) (name text : String) : Folder :=
  if folder.contains name then
    ⟨folder.files.map fun file => if file.1 == name then (name, text.toUTF8) else file⟩
  else ⟨folder.files ++ [(name, text.toUTF8)]⟩

def textOf (folder : Folder) (name : String) : Except FileFault String :=
  match folder.bytes? name with
  | none => .error .missing
  | some bytes =>
    match String.fromUTF8? bytes with
    | none => .error .notText
    | some text => .ok text

def read (folder : Folder) (path : String) : Except FileFault String :=
  match folder.place path with
  | .file name => folder.textOf name
  | .device device => device.text
  | .folder => .error .isADirectory
  | .slashed fault | .nowhere fault => .error fault
  | .elsewhere | .closed => .error .missing

/-- The folder after a text has been put at a path. -/
def write (folder : Folder) (path text : String) : Except FileFault Folder :=
  match folder.place path with
  | .file name => .ok (folder.put name text)
  | .device device => (device.accept text).map fun _ => folder
  | .folder | .slashed _ => .error .isADirectory
  | .nowhere fault => .error fault
  | .elsewhere => .ok folder
  | .closed => .error .denied

end Folder

end TrnComputer
