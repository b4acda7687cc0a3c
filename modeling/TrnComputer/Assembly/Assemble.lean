import TrnComputer.Assembly.Draft

/-! # Assembling

* `Assembly.run`: the memory of a source, or why there is none, with the records made on the way.
* `assemble`: the memory alone.

The placements of all lines are carried out first, then every program must be closed, then the
references are resolved.
-/

namespace TrnComputer
set_option autoImplicit false

namespace Assembly

def symbolRecord (entry : String × Nat) : Record :=
  assemblyRecord .trace "symbol" [("label", entry.1), ("address", Text.decimal entry.2)]

/-- Resolves the references of a draft and makes the closing records. -/
def finish (d : Draft) (records : Array Record) : Array Record × Except AssemblyError Memory :=
  match Draft.link d.symbols d.memory records d.references.toList with
  | (records, .error e) => (records, .error e)
  | (records, .ok memory) =>
    let closing := assemblyRecord .debug "assembled"
      [("cells", Text.decimal memory.size), ("labels", Text.decimal d.symbols.size)]
    ((records ++ d.symbols.listing.map symbolRecord).push closing, .ok memory)

def run (source : String) : Array Record × Except AssemblyError Memory :=
  match Draft.initial.performAll #[] (placementsOfSource source) with
  | (records, .error e) => (records, .error e)
  | (records, .ok draft) =>
    match draft.program with
    | some name =>
      (records, .error (.line (Text.lines source.toList).length (.unclosedProgram name)))
    | none => finish draft records

end Assembly

/-- The memory of a source. -/
def assemble (source : String) : Except AssemblyError Memory := (Assembly.run source).2

end TrnComputer
