import TrnComputer.Text.Numeral
import TrnComputer.Text.Align

/-! # Words of 20 bits

A word is a natural number of which the low 20 bits count. Bit 0 is the least significant.

| bits | 19 to 15 | 14 | 13 | 12 to 0 |
| --- | --- | --- | --- | --- |
| field | opcode | indirect | indexed | operand |

* `significant`, `opcodeField`, `isIndirect`, `isIndexed`, `operand`: the fields.
* `pack`: the word with given fields.
* `isNegative`, `toInt`, `signExtend`, `add`, `addOverflows`: words as signed numbers.
* `toBinary`: the written form.
-/

namespace TrnComputer.Word
set_option autoImplicit false

/-! ## Sizes -/

def width : Nat := 20

def addressSpace : Nat := 2 ^ 13

/-! ## Fields -/

def hasBit (w i : Nat) : Bool := w / 2 ^ i % 2 == 1

/-- The low 20 bits. -/
def significant (w : Nat) : Nat := w % 2 ^ 20

/-- The low 13 bits. -/
def operand (w : Nat) : Nat := w % 2 ^ 13

/-- Bits 15 to 19. -/
def opcodeField (w : Nat) : Nat := w / 2 ^ 15 % 2 ^ 5

/-- Bit 14 asks for the operand's address to be read from memory. -/
def isIndirect (w : Nat) : Bool := hasBit w 14

/-- Bit 13 asks for the index register to be added to the operand. -/
def isIndexed (w : Nat) : Bool := hasBit w 13

/-- The word with the given fields. Opcode and operand are cut to their widths. -/
def pack (opcode : Nat) (indirect indexed : Bool) (operand : Nat) : Nat :=
  opcode % 2 ^ 5 * 2 ^ 15 + indirect.toNat * 2 ^ 14 + indexed.toNat * 2 ^ 13 + operand % 2 ^ 13

theorem pack_lt (opcode : Nat) (indirect indexed : Bool) (operand : Nat) :
    pack opcode indirect indexed operand < 2 ^ 20 := by
  cases indirect <;> cases indexed <;> simp [pack] <;> omega

theorem opcodeField_pack (opcode : Nat) (indirect indexed : Bool) (operand : Nat) :
    opcodeField (pack opcode indirect indexed operand) = opcode % 2 ^ 5 := by
  cases indirect <;> cases indexed <;> simp [pack, opcodeField] <;> omega

theorem operand_pack (opcode : Nat) (indirect indexed : Bool) (field : Nat) :
    operand (pack opcode indirect indexed field) = field % 2 ^ 13 := by
  cases indirect <;> cases indexed <;> simp [pack, operand] <;> omega

theorem isIndirect_pack (opcode : Nat) (indirect indexed : Bool) (operand : Nat) :
    isIndirect (pack opcode indirect indexed operand) = indirect := by
  cases indirect <;> cases indexed <;> simp [pack, isIndirect, hasBit] <;> omega

theorem isIndexed_pack (opcode : Nat) (indirect indexed : Bool) (operand : Nat) :
    isIndexed (pack opcode indirect indexed operand) = indexed := by
  cases indirect <;> cases indexed <;> simp [pack, isIndexed, hasBit] <;> omega

/-! ## Signed numbers -/

/-- Bit 19 is the sign. -/
def isNegative (w : Nat) : Bool := hasBit w 19

/-- The low 20 bits as a number in two's complement. -/
def toInt (w : Nat) : Int :=
  if isNegative w then (significant w : Int) - 2 ^ 20 else significant w

/-- The word of the same signed value as an operand of 13 bits. -/
def signExtend (w : Nat) : Nat :=
  if hasBit w 12 then operand w + (2 ^ 20 - 2 ^ 13) else operand w

def add (a b : Nat) : Nat := (a + b) % 2 ^ 20

/-- Whether the sum has another sign than both terms. -/
def addOverflows (a b : Nat) : Bool :=
  isNegative a == isNegative b && isNegative (add a b) != isNegative a

def negate (w : Nat) : Nat := (2 ^ 20 - significant w) % 2 ^ 20

/-! ## Written form -/

/-- The binary numeral with zeros in front up to `width` places. -/
def toBinary (value width : Nat) : String :=
  String.ofList (Text.alignRight '0' width (Text.numeral 2 value))

end TrnComputer.Word
