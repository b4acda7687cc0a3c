import TrnComputer.Assembly.Argument
import Std.Data.TreeMap

/-! # Symbol tables

A symbol table gives labels their addresses. The first definition of a label stays.

* `define`, `get?`, `size`: the table as a map.
* `listing`: all labels by address, and by name where addresses are equal.
* `resolve`: the value of a sum of labels.
-/

namespace TrnComputer
set_option autoImplicit false

/-- The addresses of labels. -/
structure SymbolTable where
  addresses : Std.TreeMap String Nat := {}

namespace SymbolTable

def empty : SymbolTable := {}

def get? (t : SymbolTable) (label : String) : Option Nat := t.addresses[label]?

def size (t : SymbolTable) : Nat := t.addresses.size

/-- The table with one more label, or the address that the label has already. -/
def define (t : SymbolTable) (label : String) (address : Nat) : Except Nat SymbolTable :=
  match t.get? label with
  | some old => .error old
  | none => .ok ⟨t.addresses.insert label address⟩

/-- Whether an entry comes before another in the listing, or is the same. -/
def listedBefore (a b : String × Nat) : Bool :=
  a.2 < b.2 || (a.2 == b.2 && a.1 ≤ b.1)

/-- All labels with their addresses, by address and then by name. -/
def listing (t : SymbolTable) : List (String × Nat) :=
  t.addresses.toList.mergeSort listedBefore

/-- Adds the addresses of labels to a number, or names the first label without one. -/
def addAddresses (t : SymbolTable) (total : Int) : List String → Except String Int
  | [] => .ok total
  | label :: rest =>
    match t.get? label with
    | none => .error label
    | some address => t.addAddresses (wrappingAdd total address) rest

/-- The value of a sum, or its first label that is not defined. -/
def resolve (t : SymbolTable) (sum : LabelSum) : Except String Int :=
  t.addAddresses sum.constant sum.labels

end SymbolTable

end TrnComputer
