import TrnComputer.Machine.Movement

/-! # Microcode

Each phase of an instruction is a list of micro-steps, and each micro-step a list of
micro-operations. The step counter SC tells the micro-step; past the end of the list the last one
counts.

* `MicroOp`: the micro-operations.
* `Microcode.fetch`, `Microcode.indexed`, `Microcode.indirect`: three of the phases.
* `Microcode.execute`: the fourth, by operation.
-/

namespace TrnComputer
set_option autoImplicit false

/-- What the accumulator is added to when overflow is watched. -/
inductive Addend
  | buffer | one | minusOne
  deriving DecidableEq, Repr

def Addend.value (r : Registers) : Addend → Nat
  | buffer => r.br
  | one => 1
  | minusOne => 2 ^ 20 - 1

/-- An elementary action of the machine. -/
inductive MicroOp
  /-- Reports the value of a register. -/
  | observe (register : Register)
  /-- Puts a value into a register. -/
  | transfer (target : Register) (manner : Manner) (expression : Expression)
  /-- Shifts accumulator and extension as one register. -/
  | shiftPair (direction : Direction)
  /-- Remembers whether adding to the accumulator overflows. -/
  | watch (addend : Addend)
  /-- Forgets an overflow. -/
  | forgetOverflow
  /-- Puts the cell that AR points at into the buffer. -/
  | readCell
  /-- Puts the buffer into the cell that AR points at. -/
  | writeCell
  /-- Puts a value from outside into the buffer, or waits for it. -/
  | takeInput
  /-- Hands the buffer out. -/
  | output
  /-- Stops the machine. -/
  | halt
  deriving DecidableEq, Repr

/-- Whether a jump is taken. -/
def Condition.holds (r : Registers) : Condition → Bool
  | .always => true
  | .negative => r.s
  | .positive => !(r.s || r.z)
  | .zero => r.z
  | .overflow => r.v
  | .largeIndex => r.i / 2 ^ 3 % 2 ^ 10 != 0 && !Word.hasBit r.i 12

def Target.register : Target → Register
  | .a => .a
  | .x => .x
  | .i => .i

/-- The register for a target of shifting. The index register is not shifted: the accumulator
takes its place. -/
def Target.shiftRegister : Target → Register
  | .x => .x
  | .a | .i => .a

def Holder.register : Holder → Register
  | .a => .a
  | .x => .x
  | .i => .i
  | .sp => .sp

namespace Microcode

/-- Copies one register into another and reports the one copied. -/
def copy (source target : Register) : List MicroOp :=
  [.observe source, .transfer target .load (.register source)]

def increment (register : Register) : MicroOp :=
  .transfer register .modify (.successor register)

def decrement (register : Register) : MicroOp :=
  .transfer register .modify (.predecessor register)

def addBuffer : List MicroOp :=
  [.observe .br, .watch .buffer, .transfer .a .modify .sum]

def addressFromBuffer : MicroOp := .transfer .ar .load (.register .br)

def fetch : List (List MicroOp) :=
  [copy .pc .ar, [.readCell, increment .pc], copy .br .ir ++ [addressFromBuffer]]

def indexed : List (List MicroOp) :=
  [[.observe .i, .transfer .ar .loadWide .indexedOperand]]

def indirect : List (List MicroOp) := [[.readCell], [addressFromBuffer]]

/-- Counts a register up or down, watching the accumulator for overflow. -/
def step (target : Target) (up : Bool) : List MicroOp :=
  let count := if up then increment target.register else decrement target.register
  if target = .a then [.watch (if up then .one else .minusOne), count] else [count]

/-- Jumps to the address in the buffer when the condition holds. -/
def jump (r : Registers) (condition : Condition) : List MicroOp :=
  if condition.holds r then
    copy .br .pc ++ if condition = .overflow then [.forgetOverflow] else []
  else []

/-- The phase that carries out an operation. The registers decide whether a jump is taken. -/
def execute (r : Registers) : Operation → List (List MicroOp)
  | .nop => [[]]
  | .load holder => [[.readCell], copy .br holder.register]
  | .store holder => [copy holder.register .br, [.writeCell]]
  | .enterAccumulator => [[.transfer .a .load .signedOperand]]
  | .enterIndex => [[.transfer .i .load .operand]]
  | .push => [[increment .sp], copy .a .br, copy .sp .ar, [.writeCell]]
  | .pop => [copy .sp .ar, [.readCell], copy .br .a, [decrement .sp]]
  | .step target up => [step target up]
  | .add => [[.readCell], addBuffer]
  | .subtract =>
    [[.readCell], [.transfer .br .modify (.complement .br)], [increment .a], addBuffer]
  | .combine connective =>
    [[.readCell], [.observe .br, .transfer .a .modify (.combined connective)]]
  | .complement => [[.transfer .a .modify (.complement .a)]]
  | .jump condition => [jump r condition]
  | .call =>
    [[increment .sp], copy .pc .br ++ copy .sp .ar, [.writeCell],
      [.transfer .pc .load .operand]]
  | .shift target direction =>
    [[.transfer target.shiftRegister .modify (.shifted target.shiftRegister direction)]]
  | .shiftPair direction => [[.shiftPair direction]]
  | .input => [[.takeInput], copy .br .a]
  | .output => [copy .a .br, [.observe .br, .output]]
  | .ret => [copy .sp .ar, [.readCell], copy .br .pc, [decrement .sp]]
  | .halt => [[.halt]]

def stepAt (steps : List (List MicroOp)) (sc : Nat) : List MicroOp :=
  steps.getD (min sc (steps.length - 1)) []

end Microcode

end TrnComputer
