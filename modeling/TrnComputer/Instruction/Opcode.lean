/-! # Opcodes

The opcode field of a word has 5 bits and every value of it is an opcode. Four opcodes are shared
by a family of instructions, told apart by a sub-code in the operand field: `step`, `shift`,
`shiftPair` and `inout`.

* `code`, `ofCode?`: the field of an opcode, and the opcode of a field.
* `takesOperand`: whether the operand field is written in source text.
* `subcodeWidth`: the bits of the operand field that hold the sub-code.
-/

namespace TrnComputer
set_option autoImplicit false

/-- The opcodes, in the order of their codes. -/
inductive Opcode
  | nop | lda | ldx | ldi | sta | stx | sti | ena
  | psh | pop | step | eni | lsp | ada | sub | and
  | ora | xor | cma | jmp | jpn | jag | jpz | jpo
  | jsr | jig | shift | ssp | shiftPair | inout | ret | hlt
  deriving DecidableEq, Repr

namespace Opcode

def all : List Opcode :=
  [nop, lda, ldx, ldi, sta, stx, sti, ena, psh, pop, step, eni, lsp, ada, sub, and,
    ora, xor, cma, jmp, jpn, jag, jpz, jpo, jsr, jig, shift, ssp, shiftPair, inout, ret, hlt]

def code : Opcode → Nat
  | nop => 0 | lda => 1 | ldx => 2 | ldi => 3 | sta => 4 | stx => 5 | sti => 6 | ena => 7
  | psh => 8 | pop => 9 | step => 10 | eni => 11 | lsp => 12 | ada => 13 | sub => 14 | and => 15
  | ora => 16 | xor => 17 | cma => 18 | jmp => 19 | jpn => 20 | jag => 21 | jpz => 22 | jpo => 23
  | jsr => 24 | jig => 25 | shift => 26 | ssp => 27 | shiftPair => 28 | inout => 29 | ret => 30
  | hlt => 31

def ofCode? (n : Nat) : Option Opcode := all[n]?

theorem ofCode?_code (o : Opcode) : ofCode? o.code = some o := by cases o <;> rfl

theorem code_lt (o : Opcode) : o.code < 32 := by cases o <;> decide

theorem mem_all (o : Opcode) : o ∈ all := by cases o <;> decide

theorem isSome_ofCode?_iff {n : Nat} : (ofCode? n).isSome ↔ n < 32 := by
  simp [ofCode?, all]

/-- Whether an instruction with this opcode is written with an operand. -/
def takesOperand : Opcode → Bool
  | nop | psh | pop | step | cma | shift | shiftPair | inout | ret | hlt => false
  | _ => true

/-- The width of the sub-code at the low end of the operand field. -/
def subcodeWidth : Opcode → Nat
  | step => 3
  | shift => 2
  | shiftPair | inout => 1
  | _ => 0

end Opcode

end TrnComputer
