import TrnComputer.Machine.MicroStep
import TrnComputer.Proofs.Machine.MicroOps

/-! # What a micro-step leaves behind

* `count_machine`, `assign_machine`, `enter_machine`, `updateFlags_machine`, `close_machine`: the
  machine after the parts of a micro-step, without the events.
* `Event.Routine`: the events of the parts of a micro-step.
* `Machine.Aside`: changes that the parts of a micro-step do not notice.
* `Machine.opened`: the machine with its phase begun.
* `Machine.Stepped`: the six ways in which a micro-step of a running machine can go;
  `stepped_microStep` says that there are no others.
-/

namespace TrnComputer
set_option autoImplicit false

/-! ## Parts of a micro-step -/

theorem Registers.set_eq_self {r : Registers} {q : Register} {value : Nat}
    (hget : r.get q = value) (hq : q.contained value = value) : r.set q value = r := by
  apply Registers.ext_get
  · intro p
    by_cases hp : p = q
    · rw [hp, Registers.get_set_self, hq, hget]
    · exact Registers.get_set_of_ne r hp value
  · exact Registers.clock_set r q value

namespace Machine

theorem setRegister_eq_self {m : Machine} {q : Register} {value : Nat}
    (hget : m.registers.get q = value) (hq : q.contained value = value) :
    m.setRegister q value = m := by
  unfold setRegister
  rw [Registers.set_eq_self hget hq]

theorem count_machine (m : Machine) (sc : Nat) : (m.count sc).1 = m.setRegister .sc sc := by
  unfold count
  split
  · next h =>
    have hset : m.registers.set .sc sc = m.registers.set .sc (sc % 4) := by
      simp [Registers.set]
    have hself : m.setRegister .sc (sc % 4) = m :=
      setRegister_eq_self h (by simp [Register.contained])
    rw [setRegister, hset, ← setRegister, hself]
  · rfl

theorem assign_machine (m : Machine) {q : Register} {value : Nat} (h : value < 2 ^ q.width) :
    (m.assign q value).1 = m.setRegister q value := by
  have hlimit : value < q.limit := Nat.lt_of_lt_of_le h q.two_pow_width_le_limit
  unfold assign
  split
  · next hget => exact (setRegister_eq_self hget (Register.contained_of_lt hlimit)).symm
  · have hcut : Manner.load.cut q value = value := Nat.mod_eq_of_lt h
    simp only [move, hcut]

theorem enter_machine (m : Machine) (p : Phase) :
    (m.enter p).1 =
      { m with registers := { m.registers with sc := 0, f := p }, phaseOpen := false } := by
  have hp : p.code < 2 ^ Register.f.width := by cases p <;> decide
  simp only [enter, count_machine, assign_machine _ hp]
  simp [setRegister, Registers.set, Phase.ofCode_code]

theorem updateFlags_machine (m : Machine) :
    m.updateFlags.1 =
      { m with
        registers := { m.registers with
          z := Word.significant m.registers.a == 0
          s := Word.isNegative (Word.significant m.registers.a)
          v := m.overflow } } := by
  have hbit : ∀ b : Bool, b.toNat < 2 ^ 1 := by decide
  have hback : ∀ b : Bool, (b.toNat != 0) = b := by decide
  simp only [updateFlags]
  rw [assign_machine (q := .v) _ (hbit _), assign_machine (q := .s) _ (hbit _),
    assign_machine (q := .z) _ (hbit _)]
  simp [setRegister, Registers.set, hback]

/-- The phase that follows the end of a phase. -/
def nextPhase (ir : Nat) : Closing → Phase
  | .afterFetch =>
    if Word.isIndexed ir then .indexed else if Word.isIndirect ir then .indirect else .execute
  | .afterIndexed => if Word.isIndirect ir then .indirect else .execute
  | .afterIndirect => .execute
  | .nextInstruction _ => .fetch

/-- The machine in front of the next phase. -/
def entered (m : Machine) (p : Phase) : Machine :=
  { m with registers := { m.registers with sc := 0, f := p }, phaseOpen := false }

theorem close_machine (m : Machine) (closing : Closing) :
    (m.close closing).1 =
      if closing = .nextInstruction true then ((m.entered .fetch).updateFlags).1
      else m.entered (nextPhase m.registers.ir closing) := by
  cases closing with
  | afterFetch => exact enter_machine m _
  | afterIndexed => exact enter_machine m _
  | afterIndirect => exact enter_machine m _
  | nextInstruction setsFlags =>
    have h := enter_machine m .fetch
    cases setsFlags with
    | false => exact h
    | true =>
      simp only [close, h]
      rfl

theorem fits_updateFlags {m : Machine} (h : m.registers.Fits) : m.updateFlags.1.registers.Fits := by
  intro q
  have hold := h q
  have hbit : ∀ b : Bool, b.toNat < 2 := by decide
  rw [updateFlags_machine]
  cases q with
  | v | z | s => exact hbit _
  | _ => exact hold

theorem fits_entered {m : Machine} (h : m.registers.Fits) (p : Phase) :
    (m.entered p).registers.Fits := by
  intro q
  have hold := h q
  have hp : p.code < 4 := by cases p <;> decide
  cases q with
  | sc => exact Nat.zero_lt_succ 3
  | f => exact hp
  | _ => exact hold

end Machine

/-! ## Events of the parts -/

/-- An event of what a micro-step does besides its micro-operations: a phase is counted, a register
is changed, or a constant moves into it. -/
inductive Event.Routine : Event → Prop
  | tick (clock : Nat) : Routine (.tick clock)
  | register (q : Register) (value : Nat) (access : Access) : Routine (.register q value access)
  | constant (clock : Nat) (q : Register) (value moved : Nat) :
    Routine (.moved clock (.toRegister q (.constant value)) moved)

namespace Machine

theorem routine_openPhase (m : Machine) : ∀ e ∈ m.openPhase.2, e.Routine := by
  unfold openPhase
  split
  · simp
  · simpa using Event.Routine.tick _

theorem routine_count (m : Machine) (sc : Nat) : ∀ e ∈ (m.count sc).2, e.Routine := by
  unfold count
  split
  · simp
  · simpa using Event.Routine.register _ _ _

theorem routine_assign (m : Machine) (q : Register) (value : Nat) :
    ∀ e ∈ (m.assign q value).2, e.Routine := by
  unfold assign
  split
  · simp
  · simpa [move, movedEvents] using ⟨Event.Routine.register _ _ _, Event.Routine.constant _ _ _ _⟩

theorem routine_enter (m : Machine) (p : Phase) : ∀ e ∈ (m.enter p).2, e.Routine :=
  List.forall_mem_append.2 ⟨routine_count m 0, routine_assign _ _ _⟩

theorem routine_updateFlags (m : Machine) : ∀ e ∈ m.updateFlags.2, e.Routine :=
  List.forall_mem_append.2
    ⟨List.forall_mem_append.2 ⟨routine_assign _ _ _, routine_assign _ _ _⟩, routine_assign _ _ _⟩

theorem routine_close (m : Machine) (closing : Closing) :
    ∀ e ∈ (m.close closing).2, e.Routine := by
  cases closing with
  | afterFetch | afterIndexed | afterIndirect => exact routine_enter m _
  | nextInstruction setsFlags =>
    cases setsFlags with
    | false => exact routine_enter m .fetch
    | true => exact List.forall_mem_append.2 ⟨routine_enter m .fetch, routine_updateFlags _⟩

/-! ## Changes that are not noticed -/

/-- A change of the machine that leaves registers, watched overflow and the beginning of the phase
alone, and does not depend on them. -/
structure Aside (f : Machine → Machine) : Prop where
  registers : ∀ m, (f m).registers = m.registers
  overflow : ∀ m, (f m).overflow = m.overflow
  phaseOpen : ∀ m, (f m).phaseOpen = m.phaseOpen
  put : ∀ m registers phaseOpen,
    { f m with registers, phaseOpen } = f { m with registers, phaseOpen }

namespace Aside
variable {f : Machine → Machine}

theorem putRegisters (h : Aside f) (m : Machine) (registers : Registers) :
    { f m with registers } = f { m with registers } := by
  rw [← h.put m registers m.phaseOpen, ← h.phaseOpen m]

theorem count (h : Aside f) (m : Machine) (sc : Nat) :
    (f m).count sc = (f (m.count sc).1, (m.count sc).2) := by
  unfold Machine.count setRegister
  rw [h.registers, h.putRegisters]
  split <;> rfl

theorem assign (h : Aside f) (m : Machine) (q : Register) (value : Nat) :
    (f m).assign q value = (f (m.assign q value).1, (m.assign q value).2) := by
  unfold Machine.assign move movedEvents setRegister
  dsimp only
  rw [h.registers, h.putRegisters]
  split <;> rfl

theorem enter (h : Aside f) (m : Machine) (p : Phase) :
    (f m).enter p = (f (m.enter p).1, (m.enter p).2) := by
  simp only [Machine.enter, h.count, h.assign]
  rw [← h.put _ _ false, h.registers]

theorem updateFlags (h : Aside f) (m : Machine) :
    (f m).updateFlags = (f m.updateFlags.1, m.updateFlags.2) := by
  simp only [Machine.updateFlags, h.registers, h.assign, h.overflow]

theorem close (h : Aside f) (m : Machine) (closing : Closing) :
    (f m).close closing = (f (m.close closing).1, (m.close closing).2) := by
  cases closing with
  | afterFetch | afterIndexed | afterIndirect => simp only [Machine.close, h.registers, h.enter]
  | nextInstruction setsFlags =>
    simp only [Machine.close, h.enter, h.updateFlags]
    split <;> rfl

theorem openPhase (h : Aside f) (m : Machine) :
    (f m).openPhase = (f m.openPhase.1, m.openPhase.2) := by
  unfold Machine.openPhase
  simp only [h.phaseOpen, h.registers, h.put]
  split <;> rfl

end Aside

/-! ## A whole micro-step -/

/-- The machine with its phase begun. -/
def opened (m : Machine) : Machine := m.openPhase.1

theorem opened_eq (m : Machine) :
    m.opened = { m with
      phaseOpen := true
      registers := { m.registers with
        clock := if m.phaseOpen then m.registers.clock else m.registers.clock + 1 } } := by
  unfold opened openPhase
  split
  next h => simp [← h]
  next => simp

@[simp] theorem get_opened (m : Machine) (q : Register) :
    m.opened.registers.get q = m.registers.get q := by
  rw [opened_eq]
  cases q <;> rfl

theorem fits_opened {m : Machine} (h : m.registers.Fits) : m.opened.registers.Fits := by
  intro q
  rw [get_opened]
  exact h q

@[simp] theorem status_opened (m : Machine) : m.opened.status = m.status := by rw [opened_eq]

@[simp] theorem memory_opened (m : Machine) : m.opened.memory = m.memory := by rw [opened_eq]

@[simp] theorem input_opened (m : Machine) : m.opened.input = m.input := by rw [opened_eq]

@[simp] theorem awaitsInput_opened (m : Machine) : m.opened.awaitsInput = m.awaitsInput := by
  rw [opened_eq]

@[simp] theorem phaseOpen_opened (m : Machine) : m.opened.phaseOpen = true := by rw [opened_eq]

theorem openPhase_of_open {m : Machine} (h : m.phaseOpen = true) : m.openPhase = (m, []) :=
  if_pos h

theorem opened_of_open {m : Machine} (h : m.phaseOpen = true) : m.opened = m :=
  congrArg Prod.fst (openPhase_of_open h)

/-- How a micro-step of a running machine can go. -/
inductive Stepped (m : Machine) : Activity → Prop
  /-- The instruction register holds no instruction. -/
  | undecodable {e : DecodeError} (hsteps : m.opened.phaseSteps = .error e) :
    Stepped m (m.opened.fail (.decode e) m.openPhase.2 [])
  /-- There is no value for an input. -/
  | awaits {steps : List (List MicroOp)} {closing : Closing} {after : Machine}
    {events : List Event} (hsteps : m.opened.phaseSteps = .ok (steps, closing))
    (hops : MicroOp.performAll m.opened (Microcode.stepAt steps m.opened.registers.sc) =
      (after, events, some .awaitsInput)) :
    Stepped m ⟨after, .ok .awaitsInput, m.openPhase.2 ++ events, m.opened.beginReports⟩
  /-- There is no cell at the address. -/
  | faults {steps : List (List MicroOp)} {closing : Closing} {after : Machine}
    {events : List Event} {cause : Fault} (hsteps : m.opened.phaseSteps = .ok (steps, closing))
    (hops : MicroOp.performAll m.opened (Microcode.stepAt steps m.opened.registers.sc) =
      (after, events, some (.fault cause))) :
    Stepped m (after.fail cause (m.openPhase.2 ++ events) m.opened.beginReports)
  /-- The machine is stopped by its program. -/
  | halts {steps : List (List MicroOp)} {closing : Closing} {after : Machine}
    {events : List Event} (hsteps : m.opened.phaseSteps = .ok (steps, closing))
    (hops : MicroOp.performAll m.opened (Microcode.stepAt steps m.opened.registers.sc) =
      (after, events, none)) (hhalted : after.status = .halted) :
    Stepped m ⟨after, .ok .halted, m.openPhase.2 ++ events,
      m.opened.beginReports ++ [.halted after.registers.clock after.registers.pc]⟩
  /-- The phase has more micro-steps. -/
  | counts {steps : List (List MicroOp)} {closing : Closing} {after : Machine}
    {events : List Event} (hsteps : m.opened.phaseSteps = .ok (steps, closing))
    (hops : MicroOp.performAll m.opened (Microcode.stepAt steps m.opened.registers.sc) =
      (after, events, none)) (hrun : after.status ≠ .halted)
    (hmore : m.opened.registers.sc + 1 < steps.length) :
    Stepped m ⟨(after.count (m.opened.registers.sc + 1)).1, .ok .proceeds,
      m.openPhase.2 ++ events ++ (after.count (m.opened.registers.sc + 1)).2,
      m.opened.beginReports⟩
  /-- The phase is over. -/
  | closes {steps : List (List MicroOp)} {closing : Closing} {after : Machine}
    {events : List Event} (hsteps : m.opened.phaseSteps = .ok (steps, closing))
    (hops : MicroOp.performAll m.opened (Microcode.stepAt steps m.opened.registers.sc) =
      (after, events, none)) (hrun : after.status ≠ .halted)
    (hlast : steps.length ≤ m.opened.registers.sc + 1) :
    Stepped m ⟨(after.close closing).1, .ok .proceeds,
      m.openPhase.2 ++ events ++ (after.close closing).2, m.opened.beginReports⟩

theorem microStep_of_running {m : Machine} (h : m.status = .running) :
    m.microStep =
      match m.opened.phaseSteps with
      | .error e => m.opened.fail (.decode e) m.openPhase.2 []
      | .ok (steps, closing) => m.opened.stepPhaseOpen steps closing m.openPhase.2 := by
  rw [microStep, if_pos h]
  rfl

theorem stepped_microStep {m : Machine} (h : m.status = .running) : Stepped m m.microStep := by
  rw [microStep_of_running h]
  cases hsteps : m.opened.phaseSteps with
  | error e => exact .undecodable hsteps
  | ok found =>
    obtain ⟨steps, closing⟩ := found
    simp only [stepPhaseOpen]
    split
    next hops => exact .awaits hsteps hops
    next hops => exact .faults hsteps hops
    next after events hops =>
      split
      next hhalted => exact .halts hsteps hops hhalted
      next hrun =>
        by_cases hmore : m.opened.registers.sc + 1 < steps.length
        · simp only [if_pos hmore]
          exact .counts hsteps hops hrun hmore
        · simp only [if_neg hmore]
          exact .closes hsteps hops hrun (by omega)

theorem microStep_of_not_running {m : Machine} (h : m.status ≠ .running) :
    m.microStep = ⟨m, .error (.notRunning m.status), [], []⟩ := by
  rw [microStep, if_neg h]

theorem running_of_ok {m : Machine} {tick : Tick} (h : m.microStep.result = .ok tick) :
    m.status = .running := by
  refine Decidable.byContradiction fun hstopped => ?_
  simp [microStep_of_not_running hstopped] at h

end Machine

end TrnComputer
