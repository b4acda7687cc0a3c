import TrnComputer.Proofs.Machine.Stepping

/-! # What the microcode contains

* `Operation.microSteps`: the micro-steps in which an operation is carried out, one to four.
* `Microcode.Orderly`: what every micro-operation of every phase keeps to.
* `Machine.phaseLength`: the micro-steps of the current phase, as `phaseSteps` lists them.
* `Machine.orderly_phaseSteps`: the micro-operations of the current phase; input is taken and the
  machine is stopped only where an instruction says so.
-/

namespace TrnComputer
set_option autoImplicit false

/-- The number of micro-steps in which an operation is carried out. -/
def Operation.microSteps : Operation → Nat
  | nop | enterAccumulator | enterIndex | step _ _ | complement | jump _ | shift _ _
  | shiftPair _ | halt => 1
  | load _ | store _ | add | combine _ | input | output => 2
  | push | pop | subtract | call | ret => 4

theorem Operation.microSteps_pos (operation : Operation) : 0 < operation.microSteps := by
  cases operation <;> simp [microSteps]

theorem Operation.microSteps_le_four (operation : Operation) : operation.microSteps ≤ 4 := by
  cases operation <;> simp [microSteps]

namespace Microcode

theorem length_execute (r : Registers) (operation : Operation) :
    (execute r operation).length = operation.microSteps := by
  cases operation <;> rfl

theorem stepAt_mem {steps : List (List MicroOp)} (h : steps ≠ []) (sc : Nat) :
    stepAt steps sc ∈ steps := by
  have hpos : 0 < steps.length := List.length_pos_iff.2 h
  have hlt : min sc (steps.length - 1) < steps.length := by omega
  unfold stepAt
  rw [List.getD_eq_getElem?_getD, List.getElem?_eq_getElem hlt]
  exact List.getElem_mem hlt

theorem stepAt_of_lt {steps : List (List MicroOp)} {sc : Nat} (h : sc < steps.length) :
    stepAt steps sc = steps[sc] := by
  have hmin : min sc (steps.length - 1) = sc := by omega
  unfold stepAt
  rw [hmin, List.getD_eq_getElem?_getD, List.getElem?_eq_getElem h]
  rfl

/-- A micro-operation that keeps to its bounds, does not read the step counter and writes neither
that, the phase selector nor a flag, apart from `halt`, which sets H. -/
structure Orderly (op : MicroOp) : Prop where
  bounded : op.Bounded
  reads : .sc ∉ op.reads
  writes : ∀ q ∈ op.writes, q ∉ [.sc, .f, .v, .z, .s] ∧ (q = .h → op = .halt)

theorem orderly_iff (op : MicroOp) :
    Orderly op ↔ op.Bounded ∧ .sc ∉ op.reads ∧
      ∀ q ∈ op.writes, q ∉ [.sc, .f, .v, .z, .s] ∧ (q = .h → op = .halt) :=
  ⟨fun h => ⟨h.bounded, h.reads, h.writes⟩, fun h => ⟨h.1, h.2.1, h.2.2⟩⟩

instance (op : MicroOp) : Decidable (Orderly op) := decidable_of_iff _ (orderly_iff op).symm

theorem orderly_fetch :
    ∀ ops ∈ fetch, ∀ op ∈ ops, Orderly op ∧ op ≠ .takeInput ∧ op ≠ .halt := by
  decide

theorem orderly_indexed :
    ∀ ops ∈ indexed, ∀ op ∈ ops,
      Orderly op ∧ .ir ∉ op.writes ∧ op ≠ .takeInput ∧ op ≠ .halt := by
  decide

theorem orderly_indirect :
    ∀ ops ∈ indirect, ∀ op ∈ ops,
      Orderly op ∧ .ir ∉ op.writes ∧ op ≠ .takeInput ∧ op ≠ .halt := by
  decide

/-- No operation writes the instruction register. Input is taken by `input` alone, and the machine
is stopped by `halt` alone. -/
theorem orderly_execute (r : Registers) (operation : Operation) :
    ∀ ops ∈ execute r operation, ∀ op ∈ ops, Orderly op ∧ .ir ∉ op.writes ∧
      (op = .takeInput → operation = .input) ∧ (op = .halt → operation = .halt) := by
  cases operation with
  | nop | enterAccumulator | enterIndex | complement | subtract | add | push | pop | call | input
  | output | ret | halt =>
    simp only [execute]
    decide
  | load holder | store holder =>
    simp only [execute]
    cases holder <;> decide
  | combine connective =>
    simp only [execute]
    cases connective <;> decide
  | shiftPair direction =>
    simp only [execute]
    cases direction <;> decide
  | step target up =>
    simp only [execute]
    cases target <;> cases up <;> decide
  | shift target direction =>
    simp only [execute]
    cases target <;> cases direction <;> decide
  | jump condition =>
    -- Of the registers only the outcome of the condition is left.
    simp only [execute, jump]
    cases condition.holds r <;> cases condition <;> decide

/-- Only the micro-steps of a jump, of which there is one, depend on the registers. -/
theorem execute_congr {operation : Operation} (h : 1 < operation.microSteps) (r t : Registers) :
    execute r operation = execute t operation := by
  cases operation with
  | jump condition => exact absurd h (Nat.lt_irrefl 1)
  | _ => rfl

end Microcode

/-! ## The current phase -/

namespace Machine

/-- The number of micro-steps in the current phase. A phase in which no instruction can be carried
out has the one in which that is found. -/
def phaseLength (m : Machine) : Nat :=
  match m.registers.f with
  | .fetch => 3
  | .indexed => 1
  | .indirect => 2
  | .execute =>
    match Instruction.decode m.registers.ir with
    | .error _ => 1
    | .ok i => i.operation.microSteps

theorem phaseLength_pos (m : Machine) : 0 < m.phaseLength := by
  unfold phaseLength
  split <;> try decide
  split
  · decide
  · exact Operation.microSteps_pos _

theorem phaseLength_le_four (m : Machine) : m.phaseLength ≤ 4 := by
  unfold phaseLength
  split <;> try decide
  split
  · decide
  · exact Operation.microSteps_le_four _

theorem phaseLength_congr {m n : Machine} (hf : m.registers.f = n.registers.f)
    (hir : m.registers.f = .execute → m.registers.ir = n.registers.ir) :
    m.phaseLength = n.phaseLength := by
  unfold phaseLength
  rw [hf] at hir ⊢
  cases hn : n.registers.f with
  | execute => rw [hir hn]
  | fetch | indexed | indirect => rfl

theorem phaseSteps_eq_ok {m : Machine} {steps : List (List MicroOp)} {closing : Closing}
    (h : m.phaseSteps = .ok (steps, closing)) :
    (m.registers.f = .fetch ∧ steps = Microcode.fetch ∧ closing = .afterFetch) ∨
    (m.registers.f = .indexed ∧ steps = Microcode.indexed ∧ closing = .afterIndexed) ∨
    (m.registers.f = .indirect ∧ steps = Microcode.indirect ∧ closing = .afterIndirect) ∨
    ∃ i, m.registers.f = .execute ∧ Instruction.decode m.registers.ir = .ok i ∧
      steps = Microcode.execute m.registers i.operation ∧
      closing = .nextInstruction (i.operation != .ret) := by
  unfold phaseSteps at h
  cases hf : m.registers.f with
  | fetch | indexed | indirect => simp_all
  | execute =>
    rw [hf] at h
    cases hd : Instruction.decode m.registers.ir with
    | error e => simp [hd] at h
    | ok i => simp_all

theorem length_phaseSteps {m : Machine} {steps : List (List MicroOp)} {closing : Closing}
    (h : m.phaseSteps = .ok (steps, closing)) : steps.length = m.phaseLength := by
  unfold phaseLength
  obtain ⟨hf, rfl, -⟩ | ⟨hf, rfl, -⟩ | ⟨hf, rfl, -⟩ | ⟨i, hf, hd, rfl, -⟩ := phaseSteps_eq_ok h
  · rw [hf]; rfl
  · rw [hf]; rfl
  · rw [hf]; rfl
  · rw [hf, hd]
    exact Microcode.length_execute _ _

theorem phaseSteps_congr {m n : Machine} {steps : List (List MicroOp)} {closing : Closing}
    (h : m.phaseSteps = .ok (steps, closing)) (hmore : 1 < steps.length)
    (hf : n.registers.f = m.registers.f)
    (hir : m.registers.f ≠ .fetch → n.registers.ir = m.registers.ir) :
    n.phaseSteps = .ok (steps, closing) := by
  unfold phaseSteps
  obtain ⟨hm, rfl, rfl⟩ | ⟨hm, rfl, rfl⟩ | ⟨hm, rfl, rfl⟩ | ⟨i, hm, hd, rfl, rfl⟩ :=
    phaseSteps_eq_ok h
  · rw [hf, hm]
  · rw [hf, hm]
  · rw [hf, hm]
  · rw [Microcode.length_execute] at hmore
    rw [hf, hm, hir (by rw [hm]; decide), hd]
    simp only [Microcode.execute_congr hmore n.registers m.registers]

theorem orderly_phaseSteps {m : Machine} {steps : List (List MicroOp)} {closing : Closing}
    (h : m.phaseSteps = .ok (steps, closing)) {ops : List MicroOp} (hops : ops ∈ steps)
    {op : MicroOp} (hop : op ∈ ops) :
    Microcode.Orderly op ∧ (m.registers.f ≠ .fetch → .ir ∉ op.writes) ∧
      (op = .takeInput → m.registers.f = .execute ∧
        ∃ i, Instruction.decode m.registers.ir = .ok i ∧ i.operation = .input ∧
          steps = Microcode.execute m.registers .input) ∧
      (op = .halt → steps = Microcode.execute m.registers .halt) := by
  obtain ⟨hf, rfl, -⟩ | ⟨hf, rfl, -⟩ | ⟨hf, rfl, -⟩ | ⟨i, hf, hd, rfl, -⟩ := phaseSteps_eq_ok h
  · obtain ⟨hop, hinput, hhalt⟩ := Microcode.orderly_fetch ops hops op hop
    exact ⟨hop, fun hne => absurd hf hne, fun he => absurd he hinput, fun he => absurd he hhalt⟩
  · obtain ⟨hop, hir, hinput, hhalt⟩ := Microcode.orderly_indexed ops hops op hop
    exact ⟨hop, fun _ => hir, fun he => absurd he hinput, fun he => absurd he hhalt⟩
  · obtain ⟨hop, hir, hinput, hhalt⟩ := Microcode.orderly_indirect ops hops op hop
    exact ⟨hop, fun _ => hir, fun he => absurd he hinput, fun he => absurd he hhalt⟩
  · obtain ⟨hop, hir, hinput, hhalt⟩ := Microcode.orderly_execute _ _ ops hops op hop
    refine ⟨hop, fun _ => hir, fun he => ⟨hf, i, hd, hinput he, ?_⟩, fun he => ?_⟩
    · rw [hinput he]
    · rw [hhalt he]

theorem ne_nil_of_phaseSteps {m : Machine} {steps : List (List MicroOp)} {closing : Closing}
    (h : m.phaseSteps = .ok (steps, closing)) : steps ≠ [] := by
  have hlength := length_phaseSteps h
  have hpos := m.phaseLength_pos
  intro hnil
  rw [hnil, List.length_nil] at hlength
  omega

theorem takeInput_mem_stepAt {m : Machine} {steps : List (List MicroOp)} {closing : Closing}
    (h : m.phaseSteps = .ok (steps, closing)) {sc : Nat}
    (hop : .takeInput ∈ Microcode.stepAt steps sc) :
    m.registers.f = .execute ∧ sc = 0 ∧ Microcode.stepAt steps sc = [.takeInput] ∧
      ∃ i, Instruction.decode m.registers.ir = .ok i ∧ i.operation = .input := by
  have hmem := Microcode.stepAt_mem (ne_nil_of_phaseSteps h) sc
  obtain ⟨hf, i, hd, hi, rfl⟩ := (orderly_phaseSteps h hmem hop).2.2.1 rfl
  match sc with
  | 0 => exact ⟨hf, rfl, rfl, i, hd, hi⟩
  | sc + 1 => simp [Microcode.stepAt, Microcode.execute, Microcode.copy] at hop

theorem halt_mem_phaseSteps {m : Machine} {steps : List (List MicroOp)} {closing : Closing}
    (h : m.phaseSteps = .ok (steps, closing)) {ops : List MicroOp} (hops : ops ∈ steps)
    (hop : .halt ∈ ops) : ops = [.halt] := by
  rw [(orderly_phaseSteps h hops hop).2.2.2 rfl] at hops
  simpa [Microcode.execute] using hops

end Machine

end TrnComputer
