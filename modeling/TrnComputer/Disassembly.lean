import TrnComputer.Instruction.Code
import TrnComputer.Memory

/-! # Disassembly

Words are written as source text. A word that is no instruction is written as a constant.

* `Instruction.render`: one instruction.
* `Disassembly.word`: one word.
* `Disassembly.listing`: a memory, a cell a line with its address and its bits.
-/

namespace TrnComputer
set_option autoImplicit false

/-- The text of an instruction. Parentheses stand for the indirect modifier and `,I` for the
indexed one. The operand of `ENA` is signed. -/
def Instruction.render (i : Instruction) : String :=
  let mnemonic := i.operation.mnemonic
  let modifier := if i.indexed then ",I" else ""
  let arguments :=
    if i.operation.opcode.takesOperand then
      let operand :=
        if i.operation = .enterAccumulator then
          Text.signedDecimal (Word.toInt (Word.signExtend i.operand))
        else Text.decimal i.operand
      if i.indirect then s!" ({operand})" else s!" {operand}"
    else if i.indirect then " ()"
    else ""
  mnemonic ++ modifier ++ arguments

namespace Disassembly

def word (w : Nat) : String :=
  match Instruction.decode w with
  | .ok instruction => instruction.render
  | .error _ =>
    let digits := Text.alignRight '0' 5 (Text.numeral 16 (Word.significant w))
    s!"CON ${String.ofList digits}"

def line (address cell : Nat) : String :=
  let place := String.ofList (Text.alignRight '0' 4 (Text.numeral 10 address))
  s!"{place}: {Word.toBinary (Word.significant cell) 20}  {word cell}\n"

def heading : String := "// TRN Disassembly\n// ---------------\n\n"

def listing (m : Memory) : String :=
  m.cells.toList.zipIdx.foldl (fun text (cell, address) => text ++ line address cell) heading

end Disassembly

end TrnComputer
