import TrnComputer.Instruction.Operation
import TrnComputer.Word

/-! # Instruction words

* `Instruction.decode`: the instruction that a word holds. Bits above bit 19 do not count.
* `Instruction.encode`: the word of an instruction.
-/

namespace TrnComputer
set_option autoImplicit false

/-- An operation with its operand field and its address modifiers. -/
structure Instruction where
  operation : Operation
  indirect : Bool
  indexed : Bool
  operand : Nat
  deriving DecidableEq, Repr

namespace Instruction

def decode (w : Nat) : Except DecodeError Instruction :=
  match Opcode.ofCode? (Word.opcodeField w) with
  | none => .error (.invalidOpcode (Word.opcodeField w))
  | some opcode =>
    match Operation.ofFields opcode (Word.operand w) with
    | .error e => .error e
    | .ok operation =>
      .ok ⟨operation, Word.isIndirect w, Word.isIndexed w, Word.operand w⟩

/-- The word of an instruction. An instruction that takes no operand has its sub-code in the
operand field, besides the bits that the field holds already. -/
def encode (i : Instruction) : Nat :=
  let opcode := i.operation.opcode
  let operand := if opcode.takesOperand then i.operand else i.operand ||| i.operation.subcode
  Word.pack opcode.code i.indirect i.indexed operand

end Instruction

end TrnComputer
