import TrnComputer.Text.Account
import TrnComputer.Word

/-! # Registers

* `Register`: the fourteen registers with their names and widths.
* `Phase`: the values of the phase selector F.
* `Registers`: the values of all registers, and the clock, which counts the phases begun.
* `Registers.get`, `Registers.set`: registers as numbers. What is set is not cut to the width of the
  register, only to the size of its container.
-/

namespace TrnComputer
set_option autoImplicit false

/-! ## Names -/

/-- The registers: buffer, accumulator, extension, instruction, stack pointer, index, program
counter, address, step counter, phase selector, and the flags for overflow, zero, sign and halt. -/
inductive Register
  | br | a | x | ir | sp | i | pc | ar | sc | f | v | z | s | h
  deriving DecidableEq, Repr

namespace Register

def all : List Register := [br, a, x, ir, sp, i, pc, ar, sc, f, v, z, s, h]

def name : Register → String
  | br => "BR" | a => "A" | x => "X" | ir => "IR"
  | sp => "SP" | i => "I" | pc => "PC" | ar => "AR"
  | sc => "SC" | f => "F"
  | v => "V" | z => "Z" | s => "S" | h => "H"

def width : Register → Nat
  | br | a | x | ir => 20
  | sp | i | pc | ar => 13
  | sc | f => 2
  | v | z | s | h => 1

def ofName? (text : String) : Option Register := all.find? (·.name == text)

/-- A value in binary digits, at least as many as the register has bits. -/
def format (register : Register) (value : Nat) : String := Word.toBinary value register.width

end Register

/-! ## Phases -/

/-- The phases of an instruction. -/
inductive Phase
  | fetch | indexed | indirect | execute
  deriving DecidableEq, Repr, Inhabited

namespace Phase

def code : Phase → Nat
  | fetch => 0
  | indexed => 1
  | indirect => 2
  | execute => 3

/-- The phase for a value of F, of which the low two bits count. -/
def ofCode (n : Nat) : Phase :=
  match n % 4 with
  | 0 => fetch
  | 1 => indexed
  | 2 => indirect
  | _ => execute

theorem ofCode_code (p : Phase) : ofCode p.code = p := by cases p <;> rfl

def name : Phase → String
  | fetch => "Fetch"
  | indexed => "Indexed"
  | indirect => "Indirect"
  | execute => "Execute"

end Phase

/-! ## Values -/

/-- The values of the registers and of the clock. -/
structure Registers where
  br : Nat := 0
  a : Nat := 0
  x : Nat := 0
  ir : Nat := 0
  sp : Nat := 0
  i : Nat := 0
  pc : Nat := 0
  ar : Nat := 0
  sc : Nat := 0
  f : Phase := .fetch
  clock : Nat := 0
  v : Bool := false
  z : Bool := false
  s : Bool := false
  h : Bool := false
  deriving DecidableEq, Repr, Inhabited

namespace Registers

def zero : Registers := {}

def get (r : Registers) : Register → Nat
  | .br => r.br
  | .a => r.a
  | .x => r.x
  | .ir => r.ir
  | .sp => r.sp
  | .i => r.i
  | .pc => r.pc
  | .ar => r.ar
  | .sc => r.sc
  | .f => r.f.code
  | .v => r.v.toNat
  | .z => r.z.toNat
  | .s => r.s.toNat
  | .h => r.h.toNat

/-- The registers after one of them is set. The containers of the short registers have 16 bits,
those of SC and F two, and a flag is set by any value but zero. -/
def set (r : Registers) (register : Register) (value : Nat) : Registers :=
  match register with
  | .br => { r with br := value }
  | .a => { r with a := value }
  | .x => { r with x := value }
  | .ir => { r with ir := value }
  | .sp => { r with sp := value % 2 ^ 16 }
  | .i => { r with i := value % 2 ^ 16 }
  | .pc => { r with pc := value % 2 ^ 16 }
  | .ar => { r with ar := value % 2 ^ 16 }
  | .sc => { r with sc := value % 4 }
  | .f => { r with f := .ofCode value }
  | .v => { r with v := value != 0 }
  | .z => { r with z := value != 0 }
  | .s => { r with s := value != 0 }
  | .h => { r with h := value != 0 }

def operand (r : Registers) : Nat := Word.operand r.ir

def accumulator (r : Registers) : Int := Word.toInt r.a

/-- The names and values of all fields, in a fixed order. -/
def entries (r : Registers) : List (String × String) :=
  [("br", Text.decimal r.br), ("a", Text.decimal r.a), ("x", Text.decimal r.x),
    ("ir", Text.decimal r.ir), ("sp", Text.decimal r.sp), ("i", Text.decimal r.i),
    ("pc", Text.decimal r.pc), ("ar", Text.decimal r.ar), ("sc", Text.decimal r.sc),
    ("f", r.f.name), ("clock", Text.decimal r.clock),
    ("v", Text.truth r.v), ("z", Text.truth r.z), ("s", Text.truth r.s), ("h", Text.truth r.h)]

def summary (r : Registers) : String := Text.account "Registers" r.entries

end Registers

end TrnComputer
