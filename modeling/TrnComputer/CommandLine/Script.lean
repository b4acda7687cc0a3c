import TrnComputer.Folder

/-! # Scripts

A script is what a command does with its surroundings: a tree of requests, each followed by what is
done with the answer.

* `Script`: the requests. Every script ends after finitely many of them.
* `Surroundings`: files, lines to read, and the texts written so far.
* `Script.play`: a script in given surroundings.
-/

namespace TrnComputer
set_option autoImplicit false

/-- What comes of asking for a line. -/
inductive Arrival
  /-- A line, with its end if it has one. -/
  | line (text : String)
  /-- There are no more lines. -/
  | over
  /-- No line has come so far. -/
  | notYet
  deriving DecidableEq, Repr

/-- What is done with the surroundings before a result is there. -/
inductive Script (α : Type)
  | done (result : α)
  /-- Writes a text to the output. -/
  | print (text : String) (next : Script α)
  /-- Writes a line to the messages. -/
  | complain (text : String) (next : Script α)
  | readFile (path : String) (next : Except FileFault String → Script α)
  | writeFile (path text : String) (next : Except FileFault Unit → Script α)
  /-- Asks for a line. One who is busy does not wait for it. -/
  | readLine (busy : Bool) (next : Arrival → Script α)
  /-- Lets milliseconds go by. -/
  | rest (milliseconds : Nat) (next : Script α)

namespace Script

def bind {α β : Type} (script : Script α) (f : α → Script β) : Script β :=
  match script with
  | done result => f result
  | print text next => print text (next.bind f)
  | complain text next => complain text (next.bind f)
  | readFile path next => readFile path fun answer => (next answer).bind f
  | writeFile path text next => writeFile path text fun answer => (next answer).bind f
  | readLine busy next => readLine busy fun answer => (next answer).bind f
  | rest milliseconds next => rest milliseconds (next.bind f)

instance : Monad Script where
  pure := done
  bind := bind

def printLine (text : String) : Script Unit := .print (text ++ "\n") (.done ())

def write (text : String) : Script Unit := .print text (.done ())

def pause (milliseconds : Nat) : Script Unit :=
  if milliseconds = 0 then .done () else .rest milliseconds (.done ())

end Script

/-- What a script works on. Lines keep their ends. -/
structure Surroundings where
  folder : Folder := {}
  lines : List String := []
  output : String := ""
  messages : String := ""
  deriving Inhabited

namespace Surroundings

/-- The surroundings in which one more line has been asked for. While the asker is busy, no line
comes. -/
def nextLine (s : Surroundings) (busy : Bool) : Surroundings × Arrival :=
  if busy then (s, .notYet)
  else match s.lines with
    | [] => (s, .over)
    | text :: lines => ({ s with lines }, .line text)

/-- Reads the text at a path. All lines go when the input is read as a file. -/
def readFile (s : Surroundings) (path : String) : Surroundings × Except FileFault String :=
  match s.folder.place path with
  | .device .input => ({ s with lines := [] }, .ok (String.join s.lines))
  | _ => (s, s.folder.read path)

/-- Puts a text at a path, which may be that of the output or of the messages. -/
def writeFile (s : Surroundings) (path text : String) : Surroundings × Except FileFault Unit :=
  match s.folder.place path with
  | .device .output => ({ s with output := s.output ++ text }, .ok ())
  | .device .messages => ({ s with messages := s.messages ++ text }, .ok ())
  | _ =>
    match s.folder.write path text with
    | .error fault => (s, .error fault)
    | .ok folder => ({ s with folder }, .ok ())

end Surroundings

def Script.play {α : Type} (s : Surroundings) : Script α → Surroundings × α
  | done result => (s, result)
  | print text next => play { s with output := s.output ++ text } next
  | complain text next => play { s with messages := s.messages ++ text ++ "\n" } next
  | readFile path next =>
    let (s, answer) := s.readFile path
    play s (next answer)
  | writeFile path text next =>
    let (s, answer) := s.writeFile path text
    play s (next answer)
  | readLine busy next =>
    let (s, answer) := s.nextLine busy
    play s (next answer)
  | rest _ next => play s next

end TrnComputer
