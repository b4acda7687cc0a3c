import TrnComputer.Instruction.Code

/-! # Fields of instruction words

* `Word.pack_fields`: a word of 20 bits is made of its fields.
* `Operation.ofFields_eq_ok`: an operation belongs to its opcode, and its sub-code stands for it.
* `Operation.ofFields_eq_error_iff`, `Instruction.decode_eq_error_iff`: the words that are no
  instructions.
* `Instruction.decode_eq_ok`: the instruction of a word has the fields of the word.
-/

namespace TrnComputer
set_option autoImplicit false

theorem Word.pack_fields (w : Nat) :
    pack (opcodeField w) (isIndirect w) (isIndexed w) (operand w) = significant w := by
  have hflag (i : Nat) : (hasBit w i).toNat = w / 2 ^ i % 2 := by
    rcases Nat.mod_two_eq_zero_or_one (w / 2 ^ i) with h | h <;> simp [hasBit, h]
  rw [pack, isIndirect, isIndexed, hflag, hflag, opcodeField, operand, significant]
  omega

namespace Opcode

theorem code_of_ofCode? {n : Nat} {opcode : Opcode} (h : ofCode? n = some opcode) :
    opcode.code = n := by
  have hlt : n < 32 := isSome_ofCode?_iff.mp (by rw [h]; rfl)
  have hall : ∀ n < 32, (ofCode? n).map code = some n := by decide
  have hcode := hall n hlt
  rw [h] at hcode
  exact Option.some.inj hcode

theorem exists_of_word (w : Nat) : ∃ opcode, ofCode? (Word.opcodeField w) = some opcode :=
  Option.isSome_iff_exists.mp (isSome_ofCode?_iff.mpr (Nat.mod_lt _ (by decide)))

end Opcode

namespace Operation

theorem subcode_lt_width (operation : Operation) :
    operation.subcode < 2 ^ operation.opcode.subcodeWidth := by
  cases operation with
  | step target increment => cases target <;> cases increment <;> decide
  | shift target direction => cases target <;> cases direction <;> decide
  | shiftPair direction => cases direction <;> decide
  | load register | store register => cases register <;> decide
  | combine connective => cases connective <;> decide
  | jump condition => cases condition <;> decide
  | _ => decide

/-- No sub-code has more than three bits. -/
theorem ofFields_mod (opcode : Opcode) (field : Nat) :
    ofFields opcode (field % 8) = ofFields opcode field := by
  have hlow : field % 8 % 2 ^ opcode.subcodeWidth = field % 2 ^ opcode.subcodeWidth :=
    Nat.mod_mod_of_dvd field (by cases opcode <;> decide)
  unfold ofFields
  rw [hlow]

/-- An operation belongs to its opcode, and its sub-code stands for it. -/
theorem ofFields_eq_ok {opcode : Opcode} {field : Nat} {operation : Operation}
    (h : ofFields opcode field = .ok operation) :
    operation.opcode = opcode ∧ ofFields opcode operation.subcode = .ok operation := by
  have hall : ∀ opcode ∈ Opcode.all, ∀ n < 8, ∀ operation ∈ (ofFields opcode n).toOption,
      operation.opcode = opcode ∧
        (ofFields opcode operation.subcode).toOption = some operation := by
    decide
  have hfound : operation ∈ (ofFields opcode (field % 8)).toOption := by
    rw [ofFields_mod, h]
    rfl
  obtain ⟨hopcode, hsubcode⟩ :=
    hall opcode opcode.mem_all (field % 8) (Nat.mod_lt _ (by decide)) operation hfound
  refine ⟨hopcode, ?_⟩
  cases hread : ofFields opcode operation.subcode with
  | error e =>
    rw [hread] at hsubcode
    cases hsubcode
  | ok other =>
    rw [hread] at hsubcode
    exact congrArg Except.ok (Option.some.inj hsubcode)

theorem ofStepCode?_eq_none_iff {n : Nat} : ofStepCode? n = none ↔ 6 ≤ n := by
  match n with
  | 0 | 1 | 2 | 3 | 4 | 5 => decide
  | n + 6 => simp [ofStepCode?]

theorem ofFields_eq_error_iff {opcode : Opcode} {field : Nat} {e : DecodeError} :
    ofFields opcode field = .error e ↔
      opcode = .step ∧ 6 ≤ field % 8 ∧ e = .invalidSubOperation 10 (field % 8) := by
  cases opcode with
  | step =>
    rw [← ofStepCode?_eq_none_iff]
    have hlow : field % 2 ^ Opcode.step.subcodeWidth = field % 8 := rfl
    simp only [ofFields, hlow]
    cases ofStepCode? (field % 8) <;> simp [eq_comm, Opcode.code]
  | _ => simp [ofFields]

end Operation

/-! ## Words -/

namespace Instruction

/-- The instruction of a word has the fields of the word. -/
theorem decode_eq_ok {w : Nat} {i : Instruction} (h : decode w = .ok i) :
    i.operation.opcode.code = Word.opcodeField w ∧
      Operation.ofFields i.operation.opcode i.operation.subcode = .ok i.operation ∧
      i = ⟨i.operation, Word.isIndirect w, Word.isIndexed w, Word.operand w⟩ := by
  obtain ⟨opcode, hopcode⟩ := Opcode.exists_of_word w
  unfold decode at h
  simp only [hopcode] at h
  split at h
  · cases h
  · next operation hfields =>
    cases h
    obtain ⟨rfl, hsubcode⟩ := Operation.ofFields_eq_ok hfields
    exact ⟨Opcode.code_of_ofCode? hopcode, hsubcode, rfl⟩

theorem decode_pack {opcode : Opcode} {field : Nat} {operation : Operation}
    (indirect indexed : Bool) (h : Operation.ofFields opcode field = .ok operation) :
    decode (Word.pack opcode.code indirect indexed field) =
      .ok ⟨operation, indirect, indexed, field % 2 ^ 13⟩ := by
  have hcode : Word.opcodeField (Word.pack opcode.code indirect indexed field) = opcode.code := by
    rw [Word.opcodeField_pack, Nat.mod_eq_of_lt opcode.code_lt]
  have hfields : Operation.ofFields opcode (field % 2 ^ 13) = .ok operation := by
    rw [← Operation.ofFields_mod, Nat.mod_mod_of_dvd field (by decide), Operation.ofFields_mod, h]
  simp only [decode, hcode, Opcode.ofCode?_code, Word.operand_pack, hfields,
    Word.isIndirect_pack, Word.isIndexed_pack]

theorem decode_eq_error_iff {w : Nat} {e : DecodeError} :
    decode w = .error e ↔ Word.opcodeField w = 10 ∧ 6 ≤ Word.operand w % 8 ∧
      e = .invalidSubOperation 10 (Word.operand w % 8) := by
  obtain ⟨opcode, hopcode⟩ := Opcode.exists_of_word w
  have hcode : opcode.code = Word.opcodeField w := Opcode.code_of_ofCode? hopcode
  have hstep : opcode = .step ↔ Word.opcodeField w = 10 := by
    rw [← hcode]
    cases opcode <;> decide
  rw [← hstep, ← Operation.ofFields_eq_error_iff]
  unfold decode
  simp only [hopcode]
  cases Operation.ofFields opcode (Word.operand w) <;> simp

/-- Bits above bit 19 do not count. -/
theorem decode_significant (w : Nat) : decode (Word.significant w) = decode w := by
  have hopcode : Word.opcodeField (Word.significant w) = Word.opcodeField w := by
    rw [← Word.pack_fields, Word.opcodeField_pack]
    exact Nat.mod_mod _ _
  have hoperand : Word.operand (Word.significant w) = Word.operand w := by
    rw [← Word.pack_fields, Word.operand_pack]
    exact Nat.mod_mod _ _
  have hindirect : Word.isIndirect (Word.significant w) = Word.isIndirect w := by
    rw [← Word.pack_fields, Word.isIndirect_pack]
  have hindexed : Word.isIndexed (Word.significant w) = Word.isIndexed w := by
    rw [← Word.pack_fields, Word.isIndexed_pack]
  simp only [decode, hopcode, hoperand, hindirect, hindexed]

end Instruction

end TrnComputer
