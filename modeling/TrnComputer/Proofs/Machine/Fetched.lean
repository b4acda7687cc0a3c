import TrnComputer.Proofs.Machine.Timing

/-! # From the fetch to the execution

What EXECUTE finds in PC and IR depends only on what programs saw in front of the instruction.

* `Machine.Amid`: a machine inside an instruction, as far as the first micro-step of EXECUTE.
* `amid_fetch`: the first micro-step of FETCH begins it.
* `Amid.microStep`: every other micro-step keeps it.
-/

namespace TrnComputer
set_option autoImplicit false

namespace Machine

/-- What is known inside an instruction in front of which programs saw `start`, until the first
micro-step of EXECUTE is done. -/
structure Amid (start : Visible) (m : Machine) : Prop where
  addressed : m.registers.f = .fetch → m.registers.sc = 1 →
    m.registers.pc = start.pc ∧ m.registers.ar = start.pc ∧ m.memory = start.memory
  buffered : m.registers.f = .fetch → m.registers.sc = 2 →
    m.registers.pc = (start.pc + 1) % 2 ^ 13 ∧ m.registers.br = start.word
  fetched : m.registers.f ≠ .fetch → (m.registers.f = .execute → m.registers.sc = 0) →
    m.registers.pc = (start.pc + 1) % 2 ^ 13 ∧ m.registers.ir = start.word

section
variable {m : Machine} {start : Visible}

/-- In front of FETCH nothing has to be known. -/
theorem amid_of_fetch (hf : m.registers.f = .fetch) (hsc : m.registers.sc = 0) : Amid start m where
  addressed := fun _ hone => absurd (hsc.symm.trans hone) (by decide)
  buffered := fun _ htwo => absurd (hsc.symm.trans htwo) (by decide)
  fetched := fun hne => absurd hf hne

/-- Past its first micro-step EXECUTE does not matter any more. -/
theorem amid_of_executing (hf : m.registers.f = .execute) (hsc : m.registers.sc ≠ 0) :
    Amid start m where
  addressed := fun hfetch => by rw [hf] at hfetch; cases hfetch
  buffered := fun hfetch => by rw [hf] at hfetch; cases hfetch
  fetched := fun _ hzero => absurd (hzero hf) hsc

theorem amid_of_buffered (hf : m.registers.f = .fetch) (hsc : m.registers.sc = 2)
    (hbuffered : m.registers.pc = (start.pc + 1) % 2 ^ 13 ∧ m.registers.br = start.word) :
    Amid start m where
  addressed := fun _ hone => absurd (hsc.symm.trans hone) (by decide)
  buffered := fun _ _ => hbuffered
  fetched := fun hne => absurd hf hne

theorem amid_of_fetched (hf : m.registers.f ≠ .fetch)
    (hfetched : m.registers.pc = (start.pc + 1) % 2 ^ 13 ∧ m.registers.ir = start.word) :
    Amid start m where
  addressed := fun hfetch => absurd hfetch hf
  buffered := fun hfetch => absurd hfetch hf
  fetched := fun _ _ => hfetched

/-! ## The micro-steps of FETCH -/

theorem not_asks_of_fetch (hf : m.registers.f = .fetch) : ¬m.Asks := fun hasks => by
  cases hf.symm.trans hasks.1

theorem phaseSteps_of_fetch (hf : m.registers.f = .fetch) :
    m.opened.phaseSteps = .ok (Microcode.fetch, .afterFetch) :=
  phaseSteps_opened hf (by decide)

theorem amid_fetch (h : m.WellFormed) (hrun : m.status = .running) (hf : m.registers.f = .fetch)
    (hsc : m.registers.sc = 0) : Amid m.visible m.microStep.machine := by
  have hleft : Microcode.fetch.drop m.registers.sc = Microcode.copy .pc .ar ::
      [[.readCell, Microcode.increment .pc],
        Microcode.copy .br .ir ++ [Microcode.addressFromBuffer]] := by
    rw [hsc]
    rfl
  obtain ⟨-, -, hmachine⟩ := microStep_of_go hrun (phaseSteps_of_fetch hf) hleft (by decide) rfl
  have hpc : m.registers.pc < 2 ^ 13 := h.fits .pc
  have har : m.registers.pc % 2 ^ 13 % 2 ^ 16 = m.registers.pc := by omega
  rw [hmachine, if_neg (by simp), hsc, opened_eq]
  exact ⟨fun _ _ => ⟨rfl, har, rfl⟩, fun _ htwo => (by cases htwo), fun hne => absurd hf hne⟩

theorem Amid.readCell (hamid : Amid start m) (hrun : m.status = .running)
    (hf : m.registers.f = .fetch) (hsc : m.registers.sc = 1)
    (hnext : m.microStep.machine.status = .running) : Amid start m.microStep.machine := by
  obtain ⟨hpc, har, hmemory⟩ := hamid.addressed hf hsc
  have hleft : Microcode.fetch.drop m.registers.sc = [.readCell, Microcode.increment .pc] ::
      [Microcode.copy .br .ir ++ [Microcode.addressFromBuffer]] := by
    rw [hsc]
    rfl
  have hproceeds := proceeds_of_not_asks hrun (not_asks_of_fetch hf) hnext
  cases hcell : m.opened.memory.get? m.opened.registers.ar with
  | none =>
    have hstop : (MicroOp.performAll m.opened [.readCell, Microcode.increment .pc]).2.2 =
        some (.fault (.memory ⟨m.opened.registers.ar, m.opened.memory.size⟩)) := by
      rw [MicroOp.performAll_cons, show MicroOp.perform m.opened .readCell = _ from
        MicroOp.performRead_of_none hcell]
    exact absurd hproceeds (microStep_of_stop hrun (phaseSteps_of_fetch hf) hleft hstop).1
  | some value =>
    obtain ⟨events, hgo⟩ : ∃ events,
        MicroOp.performAll m.opened [.readCell, Microcode.increment .pc] =
          ((m.opened.setRegister .br (value % 2 ^ 20)).setRegister .pc
            ((m.opened.registers.pc + 1) % 2 ^ 13), events, none) := by
      rw [MicroOp.performAll_cons, show MicroOp.perform m.opened .readCell = _ from
        MicroOp.performRead_of_some hcell]
      exact ⟨_, rfl⟩
    obtain ⟨-, -, hmachine⟩ := microStep_of_go hrun (phaseSteps_of_fetch hf) hleft (by decide) hgo
    have hword : start.word = value % 2 ^ 20 := by
      rw [opened_eq] at hcell
      change m.memory.get? m.registers.ar = some value at hcell
      rw [Visible.word, Visible.cell, ← hmemory, ← har, hcell]
      rfl
    rw [hmachine, if_neg (by simp), hsc, opened_eq]
    refine amid_of_buffered hf rfl ⟨?_, hword.symm⟩
    change (m.registers.pc + 1) % 2 ^ 13 % 2 ^ 16 = _
    omega

theorem Amid.decode (hamid : Amid start m) (h : m.WellFormed) (hrun : m.status = .running)
    (hf : m.registers.f = .fetch) (hsc : m.registers.sc = 2) :
    Amid start m.microStep.machine := by
  obtain ⟨hpc, hbr⟩ := hamid.buffered hf hsc
  have hleft : Microcode.fetch.drop m.registers.sc =
      (Microcode.copy .br .ir ++ [Microcode.addressFromBuffer]) :: [] := by
    rw [hsc]
    rfl
  have hlater := nextPhase_ne_fetch (fun b => (by simp : Closing.afterFetch ≠ .nextInstruction b))
  obtain ⟨-, -, hmachine⟩ := microStep_of_go hrun (phaseSteps_of_fetch hf) hleft (by decide) rfl
  rw [hmachine, if_pos rfl, close_machine, if_neg (by simp)]
  refine amid_of_fetched (hlater _) ?_
  have hlt : m.registers.br < 2 ^ 20 := h.fits .br
  have hir : m.registers.br % 2 ^ 20 = start.word := by omega
  rw [opened_eq]
  exact ⟨hpc, hir⟩

/-! ## The other phases -/

theorem not_writes_pc_indexed : ∀ ops ∈ Microcode.indexed, ∀ op ∈ ops, .pc ∉ op.writes := by
  decide

theorem not_writes_pc_indirect : ∀ ops ∈ Microcode.indirect, ∀ op ∈ ops, .pc ∉ op.writes := by
  decide

/-- Between FETCH and EXECUTE neither PC nor IR is written, and another phase follows. -/
theorem Amid.address (hamid : Amid start m) (h : m.WellFormed) (hrun : m.status = .running)
    (hf : m.registers.f ≠ .fetch) (hne : m.registers.f ≠ .execute)
    (hnext : m.microStep.machine.status = .running) : Amid start m.microStep.machine := by
  have hfetched := hamid.fetched hf fun hexecute => absurd hexecute hne
  have hopened : m.opened.registers.f = m.registers.f := by rw [opened_eq]
  have hkept {steps : List (List MicroOp)} {closing : Closing} {after : Machine}
      {events : List Event} {stop : Option Stop}
      (hsteps : m.opened.phaseSteps = .ok (steps, closing))
      (hops : MicroOp.performAll m.opened (Microcode.stepAt steps m.opened.registers.sc) =
        (after, events, stop)) :
      (∀ b, closing ≠ .nextInstruction b) ∧ after.registers.f = m.registers.f ∧
        after.registers.pc = (start.pc + 1) % 2 ^ 13 ∧ after.registers.ir = start.word := by
    have hperformed := (performed_stepAt h hrun hsteps hops).1
    have hmem := Microcode.stepAt_mem (ne_nil_of_phaseSteps hsteps) m.opened.registers.sc
    have hwrites : (∀ b, closing ≠ .nextInstruction b) ∧
        ∀ op ∈ Microcode.stepAt steps m.opened.registers.sc, .pc ∉ op.writes := by
      obtain ⟨hfetch, -⟩ | ⟨-, rfl, rfl⟩ | ⟨-, rfl, rfl⟩ | ⟨i, hexecute, -⟩ :=
        phaseSteps_eq_ok hsteps
      · exact absurd (hopened.symm.trans hfetch) hf
      · exact ⟨nofun, not_writes_pc_indexed _ hmem⟩
      · exact ⟨nofun, not_writes_pc_indirect _ hmem⟩
      · exact absurd (hopened.symm.trans hexecute) hne
    have hpc := MicroOp.get_performAll hwrites.2 m.opened
    rw [hops, get_opened] at hpc
    exact ⟨hwrites.1, hperformed.phase, hpc.trans hfetched.1,
      (hperformed.instruction hf).trans hfetched.2⟩
  have hstepped := stepped_microStep hrun
  generalize m.microStep = act at hnext hstepped ⊢
  cases hstepped with
  | undecodable | faults => cases hnext
  | halts hsteps hops hhalted =>
    rw [hhalted] at hnext
    cases hnext
  | awaits hsteps hops =>
    obtain ⟨-, hphase, hafter⟩ := hkept hsteps hops
    exact amid_of_fetched (hphase ▸ hf) hafter
  | counts hsteps hops =>
    obtain ⟨-, hphase, hafter⟩ := hkept hsteps hops
    rw [count_machine]
    exact amid_of_fetched (hphase ▸ hf) hafter
  | closes hsteps hops =>
    obtain ⟨hclosing, -, hafter⟩ := hkept hsteps hops
    rw [close_machine, if_neg (hclosing true)]
    exact amid_of_fetched (nextPhase_ne_fetch hclosing _) hafter

theorem decode_of_phaseSteps {steps : List (List MicroOp)} {closing : Closing}
    (hf : m.registers.f = .execute) (hsteps : m.opened.phaseSteps = .ok (steps, closing)) :
    ∃ i, Instruction.decode m.registers.ir = .ok i ∧
      closing = .nextInstruction (i.operation != .ret) := by
  have hopened : m.opened.registers.f = .execute ∧ m.opened.registers.ir = m.registers.ir := by
    rw [opened_eq]
    exact ⟨hf, rfl⟩
  obtain ⟨hother, -⟩ | ⟨hother, -⟩ | ⟨hother, -⟩ | ⟨i, -, hdecode, -, hclosing⟩ :=
    phaseSteps_eq_ok hsteps
  · cases hopened.1.symm.trans hother
  · cases hopened.1.symm.trans hother
  · cases hopened.1.symm.trans hother
  · exact ⟨i, hopened.2 ▸ hdecode, hclosing⟩

/-- A micro-step of EXECUTE waits as it is, counts on or ends the instruction. -/
theorem Amid.execute (hamid : Amid start m) (h : m.WellFormed) (hrun : m.status = .running)
    (hf : m.registers.f = .execute) (hnext : m.microStep.machine.status = .running) :
    Amid start m.microStep.machine := by
  by_cases hwaits : m.microStep.result = .ok .awaitsInput
  · obtain ⟨-, hasks, hinput⟩ := asks_of_awaits hwaits
    have hne : m.registers.f ≠ .fetch := by rw [hf]; decide
    rw [microStep_of_asks_none hrun hasks hinput, asked, opened_eq]
    exact amid_of_fetched hne (hamid.fetched hne fun _ => hasks.2.1)
  · have hprogressed := progressed_microStep h hrun
    have hstepped := stepped_microStep hrun
    generalize m.microStep = act at hnext hwaits hprogressed hstepped ⊢
    cases hstepped with
    | undecodable | faults => cases hnext
    | halts hsteps hops hhalted =>
      rw [hhalted] at hnext
      cases hnext
    | awaits => exact absurd rfl hwaits
    | counts hsteps hops hnot hmore =>
      have hphase := (performed_stepAt h hrun hsteps hops).1.phase
      have hle := m.opened.phaseLength_le_four
      rw [← length_phaseSteps hsteps] at hle
      rw [count_machine]
      refine amid_of_executing (hphase.trans hf) ?_
      change (m.opened.registers.sc + 1) % 4 ≠ 0
      omega
    | closes hsteps hops =>
      obtain ⟨i, -, rfl⟩ := decode_of_phaseSteps hf hsteps
      rw [close_machine]
      split
      · rw [updateFlags_machine]
        exact amid_of_fetch rfl rfl
      · exact amid_of_fetch rfl rfl

/-- A micro-step inside an instruction, as long as the machine runs. -/
theorem Amid.microStep (hamid : Amid start m) (h : m.WellFormed) (hrun : m.status = .running)
    (hinside : m.registers.f = .fetch → m.registers.sc ≠ 0)
    (hnext : m.microStep.machine.status = .running) : Amid start m.microStep.machine := by
  by_cases hf : m.registers.f = .fetch
  · have hcounted : m.registers.sc < 3 := by
      have hlt := h.counted hrun
      rwa [phaseLength, hf] at hlt
    obtain hone | htwo : m.registers.sc = 1 ∨ m.registers.sc = 2 := by
      have hne := hinside hf
      omega
    · exact hamid.readCell hrun hf hone hnext
    · exact hamid.decode h hrun hf htwo
  · by_cases hexecute : m.registers.f = .execute
    · exact hamid.execute h hrun hexecute hnext
    · exact hamid.address h hrun hf hexecute hnext

end

end Machine

end TrnComputer
