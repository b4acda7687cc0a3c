import TrnComputer.Device
import TrnComputer.Path

/-! # Places

A path is walked part by part, from the root if it begins with a slash and from the working folder
otherwise. The working folder holds files and no other folder. Around it lies the system, with its
standard folders and its devices.

* `Location`: where a walk stands.
* `Place`: what a path stands for.
* `Place.walk`, `Place.ofPath`: the walk.
-/

namespace TrnComputer
set_option autoImplicit false

/-- A folder in which a walk stands. -/
inductive Location
  | working
  /-- A folder of the system, by the names that lead to it from the root. -/
  | system (address : List String)
  deriving DecidableEq, Repr

/-- What a name stands for in a folder. -/
inductive Entry
  | folder (location : Location)
  | device (device : Device)
  /-- A file of the working folder. -/
  | file
  /-- Nothing so far. -/
  | free
  deriving DecidableEq, Repr

/-- What a path stands for. -/
inductive Place
  /-- A name for a file in the working folder. -/
  | file (name : String)
  | device (device : Device)
  | folder
  /-- A free name in a folder of the system: what is written there is out of sight. -/
  | elsewhere
  /-- A name with slashes after it, which ask for a folder of that name: the fault of reading it. -/
  | slashed (fault : FileFault)
  /-- Nothing that can be reached: the fault of reading it. -/
  | nowhere (fault : FileFault)
  /-- A free name in a folder that takes no files. -/
  | closed
  deriving DecidableEq, Repr

namespace Location

def root : Location := system []

/-- The folder around a folder. The root has none but itself. -/
def outer : Location → Location
  | working => system ["tmp"]
  | system address => system address.dropLast

def folders : List (List String) :=
  ["bin", "boot", "dev", "etc", "home", "lib", "lib64", "media", "mnt", "opt", "proc", "root",
    "run", "sbin", "srv", "sys", "tmp", "usr", "var"].map ([·]) ++
  [["dev", "pts"], ["dev", "shm"], ["proc", "self"], ["proc", "self", "fd"], ["usr", "bin"],
    ["usr", "lib"], ["usr", "local"], ["var", "tmp"]]

/-- The devices of the system. The three that the program has from the start have numbers besides
their names. -/
def devices : List (List String × Device) :=
  [(["dev", "null"], .sink), (["dev", "zero"], .source), (["dev", "random"], .source),
    (["dev", "urandom"], .source), (["dev", "full"], .full), (["dev", "tty"], .terminal),
    (["dev", "stdin"], .input), (["dev", "stdout"], .output), (["dev", "stderr"], .messages),
    (["proc", "self", "fd", "0"], .input), (["proc", "self", "fd", "1"], .output),
    (["proc", "self", "fd", "2"], .messages)]

/-- Further names of folders. -/
def links : List (List String × Location) :=
  [(["dev", "fd"], system ["proc", "self", "fd"]), (["proc", "self", "cwd"], working),
    (["proc", "self", "root"], root)]

/-- What a name stands for in a folder of the system. -/
def entryAt (address : List String) : Entry :=
  match devices.lookup address, links.lookup address with
  | some device, _ => .device device
  | none, some location => .folder location
  | none, none => if folders.contains address then .folder (system address) else .free

/-- What a name stands for in a folder, if `has` tells the files of the working folder. -/
def entry (has : String → Bool) (name : String) : Location → Entry
  | working => if has name then .file else .free
  | system address => entryAt (address ++ [name])

/-- What a free name in a folder stands for. -/
def free (name : String) : Location → Place
  | working => .file name
  | system ("proc" :: _) => .nowhere .missing
  | system ("sys" :: _) | system ["dev", "pts"] => .closed
  | system _ => .elsewhere

end Location

namespace Place

def maxName : Nat := 255

def maxPath : Nat := 4095

/-- What is reached when a walk ends with a fault before the given parts. -/
def beyond (fault : FileFault) (rest : List (List Char)) : Place :=
  if !rest.isEmpty && rest.all List.isEmpty then .slashed fault else .nowhere fault

/-- Where parts lead from a folder, if `has` tells the files of the working folder. -/
def walk (has : String → Bool) (here : Location) : List (List Char) → Place
  | [] => .folder
  | part :: rest =>
    if Path.isSame part then walk has here rest
    else if Path.isOuter part then walk has here.outer rest
    else
      let name := String.ofList part
      if maxName < name.utf8ByteSize then beyond .nameTooLong rest
      else match here.entry has name with
        | .folder location => walk has location rest
        | .device found => if rest.isEmpty then .device found else beyond .notADirectory rest
        | .file => if rest.isEmpty then .file name else beyond .notADirectory rest
        | .free => if rest.isEmpty then here.free name else beyond .missing rest

/-- What a path stands for, if `has` tells the files of the working folder. -/
def ofPath (has : String → Bool) (path : String) : Place :=
  if path.isEmpty then .nowhere .missing
  else if maxPath < path.utf8ByteSize then .nowhere .nameTooLong
  else
    let parts := Path.parts path.toList
    walk has (if parts.head? = some [] then .root else .working) parts

end Place

end TrnComputer
