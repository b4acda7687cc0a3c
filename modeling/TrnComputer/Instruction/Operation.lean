import TrnComputer.Instruction.Mnemonic
import TrnComputer.Text.Numeral

/-! # Operations

An operation is what an instruction does, without its operand and its address modifiers.

* `opcode`, `subcode`: the fields that stand for an operation.
* `ofFields`: the operation that an opcode and an operand field stand for. It fails for the two
  unused sub-codes of `step` alone.
-/

namespace TrnComputer
set_option autoImplicit false

/-! ## Parts of operations -/

/-- The registers that are loaded from memory and stored into it. -/
inductive Holder
  | a | x | i | sp
  deriving DecidableEq, Repr

/-- The registers that are counted up and down and shifted. -/
inductive Target
  | a | x | i
  deriving DecidableEq, Repr

/-- The direction of a shift by one bit. -/
inductive Direction
  | left | right
  deriving DecidableEq, Repr

/-- The ways to combine two words bit by bit. -/
inductive Connective
  | conjunction | disjunction | difference
  deriving DecidableEq, Repr

/-- When a jump is taken. -/
inductive Condition
  /-- Always. -/
  | always
  /-- The sign flag is set. -/
  | negative
  /-- Neither the sign flag nor the zero flag is set. -/
  | positive
  /-- The zero flag is set. -/
  | zero
  /-- The overflow flag is set. Taking the jump clears the overflow. -/
  | overflow
  /-- The index register holds at least 8 and is not negative. -/
  | largeIndex
  deriving DecidableEq, Repr

/-! ## Operations and their fields -/

/-- What an instruction does. -/
inductive Operation
  | nop
  /-- The register becomes the cell at the address. -/
  | load (register : Holder)
  /-- The cell at the address becomes the register. -/
  | store (register : Holder)
  /-- The accumulator becomes the sign-extended operand. -/
  | enterAccumulator
  /-- The index register becomes the operand. -/
  | enterIndex
  | push
  | pop
  /-- The register counts one up or one down. -/
  | step (target : Target) (increment : Bool)
  | add
  | subtract
  | combine (connective : Connective)
  /-- Every bit of the accumulator changes. -/
  | complement
  | jump (condition : Condition)
  | call
  | shift (target : Target) (direction : Direction)
  /-- The accumulator and the extension shift as one register of 40 bits. -/
  | shiftPair (direction : Direction)
  | input
  | output
  | ret
  | halt
  deriving DecidableEq, Repr

/-- Why a word is no instruction. -/
inductive DecodeError
  | invalidOpcode (code : Nat)
  | invalidSubOperation (opcode subcode : Nat)
  deriving DecidableEq, Repr

def DecodeError.message : DecodeError → String
  | invalidOpcode code => s!"invalid opcode: {Text.decimal code}"
  | invalidSubOperation opcode subcode =>
    s!"invalid sub-operation {Text.decimal subcode} for opcode {Text.decimal opcode}"

namespace Operation

def opcode : Operation → Opcode
  | nop => .nop
  | load .a => .lda
  | load .x => .ldx
  | load .i => .ldi
  | load .sp => .lsp
  | store .a => .sta
  | store .x => .stx
  | store .i => .sti
  | store .sp => .ssp
  | enterAccumulator => .ena
  | enterIndex => .eni
  | push => .psh
  | pop => .pop
  | step _ _ => .step
  | add => .ada
  | subtract => .sub
  | combine .conjunction => .and
  | combine .disjunction => .ora
  | combine .difference => .xor
  | complement => .cma
  | jump .always => .jmp
  | jump .negative => .jpn
  | jump .positive => .jag
  | jump .zero => .jpz
  | jump .overflow => .jpo
  | jump .largeIndex => .jig
  | call => .jsr
  | shift _ _ => .shift
  | shiftPair _ => .shiftPair
  | input | output => .inout
  | ret => .ret
  | halt => .hlt

/-- The sub-code of an operation, zero outside the families. No sub-code shifts the index
register: asked to, the accumulator's is taken. -/
def subcode : Operation → Nat
  | step .a true => 0
  | step .x true => 1
  | step .i true => 2
  | step .a false => 3
  | step .x false => 4
  | step .i false => 5
  | shift .x .left => 2
  | shift .x .right => 3
  | shift _ .left => 0
  | shift _ .right => 1
  | shiftPair .right => 1
  | output => 1
  | _ => 0

def ofStepCode? : Nat → Option Operation
  | 0 => some (step .a true)
  | 1 => some (step .x true)
  | 2 => some (step .i true)
  | 3 => some (step .a false)
  | 4 => some (step .x false)
  | 5 => some (step .i false)
  | _ => none

/-- The operation of an opcode with an operand field. -/
def ofFields (opcode : Opcode) (operand : Nat) : Except DecodeError Operation :=
  let low := operand % 2 ^ opcode.subcodeWidth
  match opcode with
  | .nop => .ok nop
  | .lda => .ok (load .a)
  | .ldx => .ok (load .x)
  | .ldi => .ok (load .i)
  | .lsp => .ok (load .sp)
  | .sta => .ok (store .a)
  | .stx => .ok (store .x)
  | .sti => .ok (store .i)
  | .ssp => .ok (store .sp)
  | .ena => .ok enterAccumulator
  | .eni => .ok enterIndex
  | .psh => .ok push
  | .pop => .ok pop
  | .step =>
    match ofStepCode? low with
    | some operation => .ok operation
    | none => .error (.invalidSubOperation opcode.code low)
  | .ada => .ok add
  | .sub => .ok subtract
  | .and => .ok (combine .conjunction)
  | .ora => .ok (combine .disjunction)
  | .xor => .ok (combine .difference)
  | .cma => .ok complement
  | .jmp => .ok (jump .always)
  | .jpn => .ok (jump .negative)
  | .jag => .ok (jump .positive)
  | .jpz => .ok (jump .zero)
  | .jpo => .ok (jump .overflow)
  | .jig => .ok (jump .largeIndex)
  | .jsr => .ok call
  | .shift =>
    .ok (shift (if low / 2 = 1 then .x else .a) (if low % 2 = 1 then .right else .left))
  | .shiftPair => .ok (shiftPair (if low = 1 then .right else .left))
  | .inout => .ok (if low = 1 then output else input)
  | .ret => .ok ret
  | .hlt => .ok halt

def mnemonic (operation : Operation) : String :=
  (Mnemonic.spelling? operation.opcode operation.subcode).getD Mnemonic.unknown

end Operation

end TrnComputer
