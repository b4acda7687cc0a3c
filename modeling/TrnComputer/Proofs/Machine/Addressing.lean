import TrnComputer.Proofs.Machine.Operations

/-! # What an instruction works on

* `Visible.word`, `Visible.address`, `Visible.last`, `Visible.effective`: the word at PC, the
  address in it, the last word that is read before it is carried out, and the address of its data.
* `Visible.operation?`: what the instruction does.
* `Visible.Readable`: the cells are there that are read before the instruction is carried out.
* `Visible.step_of_readable`, `Visible.step_eq_some`: a step in these terms.
-/

namespace TrnComputer
set_option autoImplicit false

namespace Visible

/-! ## The words and addresses of an instruction -/

section
variable (t : Visible)

/-- The word at PC. -/
def word : Nat := (t.cell t.pc).getD 0

/-- The address in the instruction, to which the index register is added if asked for. It may have
14 bits. -/
def address : Nat :=
  if Word.isIndexed t.word then t.word % 2 ^ 13 + t.i else t.word % 2 ^ 13

/-- The last word that is read before the instruction is carried out. -/
def last : Nat :=
  if Word.isIndirect t.word then (t.cell t.address).getD 0 else t.word

/-- The address of the data. -/
def effective : Nat := if Word.isIndirect t.word then t.last % 2 ^ 13 else t.address

/-- What the instruction does, if it is one. -/
def operation? : Option Operation := (Instruction.decode t.word).toOption.map (·.operation)

/-- The state with PC counted up. -/
def advanced : Visible := { t with pc := (t.pc + 1) % 2 ^ 13 }

/-- The cells are there that are read before the instruction is carried out. -/
structure Readable : Prop where
  word : t.pc < t.memory.size
  address : Word.isIndirect t.word = true → t.address < t.memory.size

end

/-! ## Steps -/

section
variable {t : Visible}

theorem cell_of_lt {address : Nat} (h : address < t.memory.size) :
    t.cell address = some ((t.cell address).getD 0) := by
  cases hcell : t.cell address with
  | some value => rfl
  | none =>
    have hnone := Option.map_eq_none_iff.mp hcell
    have hle := Memory.get?_eq_none_iff.mp hnone
    omega

theorem cell_eq_none_iff {address : Nat} : t.cell address = none ↔ t.memory.size ≤ address := by
  rw [cell, Option.map_eq_none_iff, Memory.get?_eq_none_iff]

theorem step_eq_resolve (h : t.pc < t.memory.size) :
    t.step = t.advanced.resolve t.word t.address := by
  rw [step, cell_of_lt h]
  rfl

/-- A step whose cells can be read carries out the operation. -/
theorem step_of_readable (h : t.Readable) :
    t.step = t.advanced.carryOut t.word t.last t.effective := by
  rw [step_eq_resolve h.word, resolve, last, effective, last]
  by_cases hindirect : Word.isIndirect t.word = true
  · simp only [if_pos hindirect]
    have hcell : t.advanced.cell t.address = some ((t.cell t.address).getD 0) :=
      cell_of_lt (h.address hindirect)
    rw [hcell]
    rfl
  · simp only [if_neg hindirect]

theorem readable_of_step (h : t.step ≠ none) : t.Readable := by
  have hword : t.pc < t.memory.size := by
    apply Nat.lt_of_not_le
    intro hle
    rw [step, cell_eq_none_iff.mpr hle] at h
    exact h rfl
  refine ⟨hword, fun hindirect => Nat.lt_of_not_le fun hle => h ?_⟩
  have hcell : t.advanced.cell t.address = none := cell_eq_none_iff.mpr hle
  rw [step_eq_resolve hword, resolve, if_pos hindirect, hcell]
  rfl

/-- What a step does that can be done. -/
theorem step_eq_some {u : Visible} {out : List Nat} (h : t.step = some (u, out)) :
    ∃ operation next, t.operation? = some operation ∧
      t.advanced.operate (t.word % 2 ^ 13) t.last t.effective operation = some (next, out) ∧
      u = next.finished operation := by
  have hreadable : t.Readable := readable_of_step (by rw [h]; exact Option.some_ne_none _)
  rw [step_of_readable hreadable, carryOut] at h
  rw [operation?]
  cases hdecode : Instruction.decode t.word with
  | error e =>
    rw [hdecode] at h
    cases h
  | ok i =>
    rw [hdecode] at h
    obtain ⟨⟨next, told⟩, hoperate, hfinished⟩ := Option.map_eq_some_iff.mp h
    cases hfinished
    exact ⟨i.operation, next, rfl, hoperate, rfl⟩

end

end Visible

end TrnComputer
