import TrnComputer.Proofs.Instruction.Fields

/-! # Encoding and decoding

* `Operation.Encodable`, `Operation.ofFields_eq_ok_iff`: an operand field stands for an operation
  just when its low bits are the sub-code.
* `Instruction.encode_of_decode`: the instruction of a word is encoded to the word.
* `Instruction.decode_encode_iff`: the instructions whose operation is found in their word.
* `decode_encode_inverse`: how far words and instructions determine each other.
-/

namespace TrnComputer
set_option autoImplicit false

/-- Setting bits keeps a field just when none of them is new to it. -/
theorem Word.or_mod_eq_iff {operand field width : Nat} (h : field < 2 ^ width) :
    (operand ||| field) % 2 ^ width = field ↔
      ∀ bit < width, operand.testBit bit = true → field.testBit bit = true := by
  constructor
  · intro heq bit hbit hset
    rw [← heq, Nat.testBit_mod_two_pow, Nat.testBit_or, hset]
    simpa using hbit
  · intro hsub
    apply Nat.eq_of_testBit_eq
    intro bit
    rw [Nat.testBit_mod_two_pow, Nat.testBit_or]
    by_cases hbit : bit < width
    · have hset := hsub bit hbit
      cases hoperand : operand.testBit bit with
      | false => simp [hbit]
      | true => simp [hbit, hset hoperand]
    · have hle : 2 ^ width ≤ 2 ^ bit := Nat.pow_le_pow_right (by decide) (Nat.le_of_not_lt hbit)
      simp [hbit, Nat.testBit_lt_two_pow (Nat.lt_of_lt_of_le h hle)]

/-! ## Sub-codes -/

namespace Operation

/-- A word can ask for the operation. None asks for a shift of the index register. -/
def Encodable (operation : Operation) : Prop := ∀ direction, operation ≠ .shift .i direction

/-- The sub-code of an operation is the low end of its operand field. -/
theorem subcode_of_ofFields {opcode : Opcode} {field : Nat} {operation : Operation}
    (h : ofFields opcode field = .ok operation) :
    operation.subcode = field % 2 ^ opcode.subcodeWidth := by
  have hall : ∀ opcode ∈ Opcode.all, ∀ n < 8, ∀ operation ∈ (ofFields opcode n).toOption,
      operation.subcode = n % 2 ^ opcode.subcodeWidth := by
    decide
  have hlow : field % 8 % 2 ^ opcode.subcodeWidth = field % 2 ^ opcode.subcodeWidth :=
    Nat.mod_mod_of_dvd field (by cases opcode <;> decide)
  have hfound : operation ∈ (ofFields opcode (field % 8)).toOption := by
    rw [ofFields_mod, h]
    rfl
  rw [hall opcode opcode.mem_all (field % 8) (Nat.mod_lt _ (by decide)) operation hfound, hlow]

theorem ofFields_congr {opcode : Opcode} {field other : Nat}
    (h : field % 2 ^ opcode.subcodeWidth = other % 2 ^ opcode.subcodeWidth) :
    ofFields opcode field = ofFields opcode other := by
  unfold ofFields
  rw [h]

theorem encodable_of_ofFields {opcode : Opcode} {field : Nat} {operation : Operation}
    (h : ofFields opcode field = .ok operation) : operation.Encodable := by
  rintro direction rfl
  obtain ⟨-, hsubcode⟩ := ofFields_eq_ok h
  obtain rfl : Opcode.shift = opcode := (ofFields_eq_ok h).1
  cases direction <;> cases hsubcode

theorem ofFields_subcode {operation : Operation} (h : operation.Encodable) :
    ofFields operation.opcode operation.subcode = .ok operation := by
  cases operation with
  | load register | store register => cases register <;> rfl
  | step target increment => cases target <;> cases increment <;> rfl
  | combine connective => cases connective <;> rfl
  | jump condition => cases condition <;> rfl
  | shift target direction =>
    cases target with
    | i => exact absurd rfl (h direction)
    | a | x => cases direction <;> rfl
  | shiftPair direction => cases direction <;> rfl
  | _ => rfl

/-- An operand field stands for an operation just when its low bits are the sub-code. -/
theorem ofFields_eq_ok_iff {operation : Operation} {field : Nat} :
    ofFields operation.opcode field = .ok operation ↔
      operation.Encodable ∧ field % 2 ^ operation.opcode.subcodeWidth = operation.subcode := by
  constructor
  · intro h
    exact ⟨encodable_of_ofFields h, (subcode_of_ofFields h).symm⟩
  · rintro ⟨hencodable, hfield⟩
    have hsame : ofFields operation.opcode field =
        ofFields operation.opcode operation.subcode := by
      apply ofFields_congr
      rw [hfield, Nat.mod_eq_of_lt operation.subcode_lt_width]
    rw [hsame, ofFields_subcode hencodable]

/-- An operation that takes an operand has no sub-code. -/
theorem subcode_of_takesOperand {operation : Operation}
    (h : operation.opcode.takesOperand = true) : operation.subcode = 0 := by
  cases operation with
  | step target increment => cases target <;> cases increment <;> cases h
  | shift target direction => cases target <;> cases direction <;> cases h
  | shiftPair direction => cases h
  | output => cases h
  | _ => rfl

end Operation

/-! ## Words of instructions -/

namespace Instruction

theorem encode_eq (i : Instruction) :
    i.encode = Word.pack i.operation.opcode.code i.indirect i.indexed
      (i.operand ||| i.operation.subcode) := by
  rw [encode]
  split
  · next htakes => rw [Operation.subcode_of_takesOperand htakes, Nat.or_zero]
  · rfl

theorem ofFields_of_decode {w : Nat} {i : Instruction} (h : decode w = .ok i) :
    Operation.ofFields i.operation.opcode (Word.operand w) = .ok i.operation := by
  obtain ⟨hcode, -, -⟩ := decode_eq_ok h
  unfold decode at h
  simp only [← hcode, Opcode.ofCode?_code] at h
  split at h
  · cases h
  · next operation hfields =>
    cases h
    exact hfields

/-- The instruction of a word is encoded to the word. -/
theorem encode_of_decode {w : Nat} {i : Instruction} (h : decode w = .ok i) :
    i.encode = Word.significant w := by
  obtain ⟨hcode, -, hi⟩ := decode_eq_ok h
  have hindirect : i.indirect = Word.isIndirect w := congrArg Instruction.indirect hi
  have hindexed : i.indexed = Word.isIndexed w := congrArg Instruction.indexed hi
  have hoperand : i.operand = Word.operand w := congrArg Instruction.operand hi
  have hsubcode := Operation.subcode_of_ofFields (ofFields_of_decode h)
  -- The sub-code has been cut from the operand field, so its bits are there already.
  have hfield : Word.operand w ||| i.operation.subcode = Word.operand w := by
    rw [hsubcode]
    apply Nat.eq_of_testBit_eq
    intro bit
    rw [Nat.testBit_or, Nat.testBit_mod_two_pow]
    cases (Word.operand w).testBit bit <;> simp
  rw [encode_eq, hcode, hindirect, hindexed, hoperand, hfield, Word.pack_fields]

theorem decode_encode_iff {i : Instruction} :
    (∃ j, decode i.encode = .ok j ∧ j.operation = i.operation) ↔ i.operation.Encodable ∧
      ∀ bit < i.operation.opcode.subcodeWidth,
        i.operand.testBit bit = true → i.operation.subcode.testBit bit = true := by
  rw [← Word.or_mod_eq_iff i.operation.subcode_lt_width, ← Operation.ofFields_eq_ok_iff, encode_eq]
  constructor
  · rintro ⟨j, hdecode, hsame⟩
    have hfields := ofFields_of_decode hdecode
    rw [hsame, Word.operand_pack, ← Operation.ofFields_mod,
      Nat.mod_mod_of_dvd _ (by decide), Operation.ofFields_mod] at hfields
    exact hfields
  · intro hfields
    exact ⟨_, decode_pack _ _ hfields, rfl⟩

/-- An instruction whose operation is found in its word is found with its modifiers. -/
theorem eq_of_decode_encode {i j : Instruction} (h : decode i.encode = .ok j)
    (hsame : j.operation = i.operation) :
    j = ⟨i.operation, i.indirect, i.indexed, (i.operand ||| i.operation.subcode) % 2 ^ 13⟩ := by
  obtain ⟨-, -, hj⟩ := decode_eq_ok h
  rw [hj, hsame, encode_eq, Word.isIndirect_pack, Word.isIndexed_pack, Word.operand_pack]

end Instruction

/-- Words and instructions determine each other. Of a word the low 20 bits count; all words are
instructions but those of the opcode `step` with the sub-codes 6 and 7, and an instruction that has
been read is encoded to its word. An instruction that is encoded is read with its operation just
when that does not shift the index register and the operand has no bit of its own where the
sub-code stands, in the low 3, 2, 1 and 1 bits of the four families; the sub-code is then in the
operand. -/
theorem decode_encode_inverse :
    (∀ w, Instruction.decode w = Instruction.decode (w % 2 ^ 20)) ∧
    (∀ w, (∃ e, Instruction.decode w = .error e) ↔
      Word.opcodeField w = 10 ∧ (Word.operand w % 2 ^ 3 = 6 ∨ Word.operand w % 2 ^ 3 = 7)) ∧
    (∀ w e, Instruction.decode w = .error e →
      e = .invalidSubOperation 10 (Word.operand w % 2 ^ 3)) ∧
    (∀ w i, Instruction.decode w = .ok i → i.encode = w % 2 ^ 20) ∧
    ∀ i : Instruction,
      ((∃ j, Instruction.decode i.encode = .ok j ∧ j.operation = i.operation) ↔
        (∀ direction, i.operation ≠ .shift .i direction) ∧
          ∀ bit < i.operation.opcode.subcodeWidth,
            i.operand.testBit bit = true → i.operation.subcode.testBit bit = true) ∧
      ∀ j, Instruction.decode i.encode = .ok j → j.operation = i.operation →
        j.indirect = i.indirect ∧ j.indexed = i.indexed ∧
          j.operand = (i.operand ||| i.operation.subcode) % 2 ^ 13 := by
  refine ⟨fun w => (Instruction.decode_significant w).symm, fun w => ?_, fun w e h => ?_,
    fun w i h => Instruction.encode_of_decode h, fun i => ⟨Instruction.decode_encode_iff, ?_⟩⟩
  · have hsmall : Word.operand w % 8 < 8 := Nat.mod_lt _ (by decide)
    simp only [Instruction.decode_eq_error_iff, exists_and_left, exists_eq, and_true]
    omega
  · exact (Instruction.decode_eq_error_iff.mp h).2.2
  · intro j h hsame
    rw [Instruction.eq_of_decode_encode h hsame]
    exact ⟨rfl, rfl, rfl⟩

/-- A count of X down, with a bit above its sub-code in the operand. -/
theorem decode_encode_inverse_step :
    let i : Instruction := ⟨.step .x false, true, false, 12⟩
    Instruction.decode (2 ^ 20 + 10 * 2 ^ 15 + 2 ^ 14 + 12) = .ok i ∧
      i.encode = (2 ^ 20 + 10 * 2 ^ 15 + 2 ^ 14 + 12) % 2 ^ 20 ∧
      (∃ j, Instruction.decode i.encode = .ok j ∧ j.operation = i.operation ∧ j.operand = 12) ∧
      Instruction.decode (10 * 2 ^ 15 + 7) = .error (.invalidSubOperation 10 7) := by
  intro i
  have hdecode : Instruction.decode (2 ^ 20 + 10 * 2 ^ 15 + 2 ^ 14 + 12) = .ok i := rfl
  obtain ⟨-, hfails, herror, hencode, hinstruction⟩ := decode_encode_inverse
  obtain ⟨j, hj, hsame⟩ := (hinstruction i).1.mpr ⟨fun direction => by simp [i], by decide⟩
  have hoperand : j.operand = 12 := ((hinstruction i).2 j hj hsame).2.2.trans (by decide)
  obtain ⟨e, he⟩ := (hfails (10 * 2 ^ 15 + 7)).mpr ⟨by decide, .inr (by decide)⟩
  refine ⟨hdecode, hencode _ i hdecode, ⟨j, hj, hsame, hoperand⟩, ?_⟩
  rw [he, herror _ e he]
  rfl

end TrnComputer
