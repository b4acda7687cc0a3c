import TrnComputer.Instruction.Operation
import TrnComputer.Machine.Register

/-! # Movements of data

A movement puts a value into a register or into a memory cell. Its description names both ends, as
in `AR <- PC`; a source that is wider than its target shows the bits that are taken, as in
`PC <- BR[12:0]`.

* `Expression`: what can be computed from the registers, with its value and its text.
* `Source`: what can be put into a register.
* `Manner`: how a register takes a value, and how much of it.
* `Movement`: a source with its target.
-/

namespace TrnComputer
set_option autoImplicit false

/-! ## Expressions -/

/-- What can be computed from the registers. -/
inductive Expression
  | register (r : Register)
  | successor (r : Register)
  | predecessor (r : Register)
  | complement (r : Register)
  | shifted (r : Register) (direction : Direction)
  /-- The accumulator plus the buffer, in 20 bits. -/
  | sum
  /-- The accumulator and the buffer, bit by bit. -/
  | combined (connective : Connective)
  /-- The accumulator's half of the shifted pair. -/
  | pairHigh (direction : Direction)
  /-- The extension's half of the shifted pair. -/
  | pairLow (direction : Direction)
  | operand
  | signedOperand
  /-- The operand plus the index register, which may need more than 13 bits. -/
  | indexedOperand
  deriving DecidableEq, Repr

/-- Accumulator and extension as one number of 40 bits, shifted by one bit. -/
def Registers.shiftedPair (r : Registers) (direction : Direction) : Nat :=
  let pair := Word.significant r.a * 2 ^ 20 + Word.significant r.x
  match direction with
  | .left => pair * 2 % 2 ^ 40
  | .right => pair / 2

def Connective.apply : Connective → Nat → Nat → Nat
  | .conjunction, m, n => m &&& n
  | .disjunction, m, n => m ||| n
  | .difference, m, n => m ^^^ n

def Connective.symbol : Connective → String
  | .conjunction => "&"
  | .disjunction => "|"
  | .difference => "^"

def Direction.symbol : Direction → String
  | .left => "<<"
  | .right => ">>"

namespace Expression

/-- The value of an expression. It may have more bits than the register that takes it. -/
def value (r : Registers) : Expression → Nat
  | register q => r.get q
  | successor q => r.get q + 1
  | predecessor q => r.get q + 2 ^ q.width - 1
  | complement q => 2 ^ q.width - 1 - r.get q % 2 ^ q.width
  | shifted q .left => r.get q * 2
  | shifted q .right => r.get q / 2
  | sum => Word.add r.a r.br
  | combined connective => connective.apply r.a r.br
  | pairHigh direction => r.shiftedPair direction / 2 ^ 20
  | pairLow direction => r.shiftedPair direction % 2 ^ 20
  | operand => r.operand
  | signedOperand => Word.signExtend r.ir
  | indexedOperand => r.operand + r.i

/-- The text of an expression that goes into a register. -/
def text (target : Register) : Expression → String
  | register q => if target.width < q.width then q.name ++ "[12:0]" else q.name
  | successor q => q.name ++ " + 1"
  | predecessor q => q.name ++ " - 1"
  | complement q => "~" ++ q.name
  | shifted q direction => q.name ++ " " ++ direction.symbol ++ " 1"
  | sum => "A + BR"
  | combined connective => "A " ++ connective.symbol ++ " BR"
  | pairHigh direction => "(A:X " ++ direction.symbol ++ " 1)[39:20]"
  | pairLow direction => "(A:X " ++ direction.symbol ++ " 1)[19:0]"
  | operand => "IR[12:0]"
  | signedOperand => "sext(IR[12:0])"
  | indexedOperand => "IR[12:0] + I"

end Expression

/-! ## Sources and targets -/

/-- What can be put into a register. -/
inductive Source
  | expression (e : Expression)
  /-- The memory cell that AR points at. -/
  | cell
  /-- A value from outside. -/
  | input
  /-- A fixed value, shown in binary at the width of its target. -/
  | constant (value : Nat)
  deriving DecidableEq, Repr

/-- The text of a source that goes into a register. -/
def Source.text (target : Register) : Source → String
  | expression e => e.text target
  | cell => "M[AR]"
  | input => "input"
  | constant value => target.format value

/-- Kinds of access to a register or a cell. -/
inductive Access
  | read | write | inPlace
  deriving DecidableEq, Repr

/-- How a register takes a value. -/
inductive Manner
  /-- It is replaced. -/
  | load
  /-- It is changed in place. -/
  | modify
  /-- It is replaced by up to 16 bits. -/
  | loadWide
  deriving DecidableEq, Repr

namespace Manner

def access : Manner → Access
  | load | loadWide => .write
  | modify => .inPlace

def cut (register : Register) (value : Nat) : Manner → Nat
  | load | modify => value % 2 ^ register.width
  | loadWide => value % 2 ^ 16

end Manner

/-- A value on its way. -/
inductive Movement
  | toRegister (target : Register) (source : Source)
  /-- The buffer goes into the memory cell that AR points at. -/
  | toCell
  deriving DecidableEq, Repr

namespace Movement

def description : Movement → String
  | toRegister target source => target.name ++ " <- " ++ source.text target
  | toCell => "M[AR] <- BR"

/-- The binary digits in which the value is shown, at the least. -/
def width : Movement → Nat
  | toRegister target _ => target.width
  | toCell => 20

end Movement

end TrnComputer
