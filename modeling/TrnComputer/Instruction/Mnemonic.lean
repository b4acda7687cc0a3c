import TrnComputer.Instruction.Opcode

/-! # Mnemonics of machine instructions

* `table`: the spellings with the opcode and the sub-code that each stands for. The first spelling
  of a pair is the one that is written; `OUTP` is only read.
* `find?`: what a spelling stands for. Spellings are in capitals and are compared as they are.
* `spelling?`: how an opcode with a sub-code is written.
-/

namespace TrnComputer
set_option autoImplicit false

/-- A spelling and what it stands for. -/
structure Mnemonic where
  spelling : String
  opcode : Opcode
  subcode : Nat
  deriving DecidableEq, Repr

namespace Mnemonic

def table : List Mnemonic :=
  [⟨"NOP", .nop, 0⟩, ⟨"LDA", .lda, 0⟩, ⟨"LDX", .ldx, 0⟩, ⟨"LDI", .ldi, 0⟩,
    ⟨"STA", .sta, 0⟩, ⟨"STX", .stx, 0⟩, ⟨"STI", .sti, 0⟩, ⟨"ENA", .ena, 0⟩,
    ⟨"PSH", .psh, 0⟩, ⟨"POP", .pop, 0⟩,
    ⟨"INA", .step, 0⟩, ⟨"INX", .step, 1⟩, ⟨"INI", .step, 2⟩,
    ⟨"DCA", .step, 3⟩, ⟨"DCX", .step, 4⟩, ⟨"DCI", .step, 5⟩,
    ⟨"ENI", .eni, 0⟩, ⟨"LSP", .lsp, 0⟩, ⟨"ADA", .ada, 0⟩, ⟨"SUB", .sub, 0⟩,
    ⟨"AND", .and, 0⟩, ⟨"ORA", .ora, 0⟩, ⟨"XOR", .xor, 0⟩, ⟨"CMA", .cma, 0⟩,
    ⟨"JMP", .jmp, 0⟩, ⟨"JPN", .jpn, 0⟩, ⟨"JAG", .jag, 0⟩, ⟨"JPZ", .jpz, 0⟩,
    ⟨"JPO", .jpo, 0⟩, ⟨"JSR", .jsr, 0⟩, ⟨"JIG", .jig, 0⟩,
    ⟨"SHAL", .shift, 0⟩, ⟨"SHAR", .shift, 1⟩, ⟨"SHXL", .shift, 2⟩, ⟨"SHXR", .shift, 3⟩,
    ⟨"SSP", .ssp, 0⟩, ⟨"SAXL", .shiftPair, 0⟩, ⟨"SAXR", .shiftPair, 1⟩,
    ⟨"INP", .inout, 0⟩, ⟨"OUT", .inout, 1⟩, ⟨"OUTP", .inout, 1⟩,
    ⟨"RET", .ret, 0⟩, ⟨"HLT", .hlt, 0⟩]

def find? (spelling : String) : Option Mnemonic :=
  table.find? (·.spelling == spelling)

/-- The first spelling of an opcode with a sub-code. -/
def spelling? (opcode : Opcode) (subcode : Nat) : Option String :=
  (table.find? fun m => m.opcode == opcode && m.subcode == subcode).map (·.spelling)

/-- The text in place of a spelling that does not exist. -/
def unknown : String := "???"

end Mnemonic

/-- The spelling of an opcode, for a family that of its first member. -/
def Opcode.mnemonic (opcode : Opcode) : String :=
  (Mnemonic.spelling? opcode 0).getD Mnemonic.unknown

end TrnComputer
