import TrnComputer.Text.Account
import TrnComputer.Word

/-! # Memory

A memory is a row of cells with addresses from 0. Cells hold natural numbers; the machine writes
words of 20 bits, but a memory given from outside may hold more.

* `get?`, `read`: the cell at an address, where there is one.
* `write`: changes a cell that exists, to a word of 20 bits.
* `store`, `grow`: make the memory longer where needed; new cells hold zero.
-/

namespace TrnComputer
set_option autoImplicit false

/-- A row of cells. -/
structure Memory where
  cells : Array Nat := #[]
  deriving DecidableEq, Repr, Inhabited

/-- An access to an address at which the memory has no cell. -/
structure OutOfBounds where
  address : Nat
  size : Nat
  deriving DecidableEq, Repr

def OutOfBounds.message (e : OutOfBounds) : String :=
  s!"memory access out of bounds: address {Text.decimal e.address}" ++
    s!" (memory has {Text.decimal e.size} cells)"

namespace Memory

def empty : Memory := ⟨#[]⟩

def ofList (cells : List Nat) : Memory := ⟨cells.toArray⟩

def size (m : Memory) : Nat := m.cells.size

def get? (m : Memory) (address : Nat) : Option Nat := m.cells[address]?

def read (m : Memory) (address : Nat) : Except OutOfBounds Nat :=
  match m.get? address with
  | some value => .ok value
  | none => .error ⟨address, m.size⟩

/-- The memory in which the cell at an address holds the low 20 bits of `value`. -/
def write (m : Memory) (address value : Nat) : Except OutOfBounds Memory :=
  if address < m.size then .ok ⟨m.cells.setIfInBounds address (Word.significant value)⟩
  else .error ⟨address, m.size⟩

/-- The memory with zeros added until it has at least `size` cells. -/
def grow (m : Memory) (size : Nat) : Memory :=
  ⟨m.cells ++ Array.replicate (size - m.size) 0⟩

/-- The memory, grown to reach the address, in which the cell there holds `value`. -/
def store (m : Memory) (address value : Nat) : Memory :=
  ⟨(m.grow (address + 1)).cells.setIfInBounds address value⟩

theorem size_grow (m : Memory) (size : Nat) : (m.grow size).size = max m.size size := by
  simp [grow, Memory.size]; omega

theorem size_store (m : Memory) (address value : Nat) :
    (m.store address value).size = max m.size (address + 1) := by
  have := m.size_grow (address + 1)
  simpa [store, Memory.size] using this

theorem get?_store_self (m : Memory) (address value : Nat) :
    (m.store address value).get? address = some value := by
  have h : address < (m.grow (address + 1)).cells.size := by
    have := m.size_grow (address + 1)
    simp only [Memory.size] at this
    omega
  simp [store, get?, h]

/-- A short account of a memory: how many cells differ from zero, and how many there are. -/
def summary (m : Memory) : String :=
  Text.account "Memory"
    [("non_zero_cells", Text.decimal (m.cells.countP (· != 0))),
      ("total_cells", Text.decimal m.size)]

end Memory

end TrnComputer
