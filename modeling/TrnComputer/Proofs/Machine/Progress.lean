import TrnComputer.Proofs.Machine.WellFormed

/-! # How far a micro-step gets

* `loads`: the values from outside that instructions have put into the buffer, as the events tell.
* `Event.Inner`: the events of everything but the taking of input.
* `loads_microStep_of_none`, `loads_microStep_of_some`: a micro-step loads the value that has been
  supplied, and no other.
* `Machine.stepsLeft`: the micro-steps that the current phase still needs.
* `Machine.Progressed`, `progressed_microStep`: a micro-step brings the phase nearer to its end,
  waits for a value or stops the machine inside the phase.
-/

namespace TrnComputer
set_option autoImplicit false

/-! ## Values from outside -/

/-- The values from outside that instructions have put into a register. -/
def loads (events : List Event) : List Nat :=
  events.filterMap fun event =>
    match event with
    | .moved _ (.toRegister _ .input) value => some value
    | _ => none

@[simp] theorem loads_nil : loads [] = [] := rfl

@[simp] theorem loads_append (events more : List Event) :
    loads (events ++ more) = loads events ++ loads more :=
  List.filterMap_append

/-- An event that has nothing to do with values from outside: none is asked for, and none is put
into a register. -/
def Event.Inner : Event → Prop
  | .inputRequested | .moved _ (.toRegister _ .input) _ => False
  | _ => True

theorem Event.Routine.inner {e : Event} (h : e.Routine) : e.Inner := by
  cases h <;> trivial

theorem loads_of_inner {events : List Event} (h : ∀ e ∈ events, e.Inner) : loads events = [] := by
  refine List.filterMap_eq_nil_iff.2 fun e he => ?_
  have hinner := h e he
  split
  · exact False.elim hinner
  · rfl

namespace Machine

theorem inner_movedEvents (m : Machine) (target : Register) (manner : Manner) {source : Source}
    (h : source ≠ .input) (value : Nat) :
    ∀ e ∈ m.movedEvents target manner source value, e.Inner := by
  cases source with
  | input => exact absurd rfl h
  | expression _ | cell | constant _ => simp [movedEvents, Event.Inner]

@[simp] theorem loads_openPhase (m : Machine) : loads m.openPhase.2 = [] :=
  loads_of_inner fun e he => (m.routine_openPhase e he).inner

@[simp] theorem loads_count (m : Machine) (sc : Nat) : loads (m.count sc).2 = [] :=
  loads_of_inner fun e he => (m.routine_count sc e he).inner

@[simp] theorem loads_close (m : Machine) (closing : Closing) : loads (m.close closing).2 = [] :=
  loads_of_inner fun e he => (m.routine_close closing e he).inner

@[simp] theorem loads_fail (m : Machine) (cause : Fault) (events : List Event)
    (reports : List MachineReport) : loads (m.fail cause events reports).events = loads events := by
  change loads (events ++ [.stopped cause.message]) = _
  rw [loads_append]
  exact List.append_nil _

end Machine

namespace MicroOp

/-- Only the taking of input has to do with values from outside. -/
theorem inner_perform (m : Machine) {op : MicroOp} (h : op ≠ .takeInput) :
    ∀ e ∈ (perform m op).2.1, e.Inner := by
  cases op with
  | observe _ | watch _ | forgetOverflow | output =>
    simp [perform, Machine.observation, Event.Inner]
  | transfer target manner e => exact m.inner_movedEvents target manner (by simp) _
  | shiftPair direction =>
    exact List.forall_mem_append.2
      ⟨m.inner_movedEvents .a .modify (by simp) _,
        Machine.inner_movedEvents _ .x .modify (by simp) _⟩
  | halt =>
    exact List.forall_mem_append.2
      ⟨m.inner_movedEvents .h .load (by simp) _, by simp [Event.Inner]⟩
  | readCell =>
    change ∀ e ∈ (performRead m).2.1, e.Inner
    cases hcell : m.memory.get? m.registers.ar with
    | none => simp [performRead_of_none hcell]
    | some value =>
      rw [performRead_of_some hcell]
      exact List.forall_mem_cons.2 ⟨trivial, m.inner_movedEvents .br .load (by simp) _⟩
  | writeCell =>
    change ∀ e ∈ (performWrite m).2.1, e.Inner
    rcases Nat.lt_or_ge m.registers.ar m.memory.size with hlt | hle
    · simp [performWrite_of_lt hlt, Machine.observation, Event.Inner]
    · simp [performWrite_of_le hle, Machine.observation, Event.Inner]
  | takeInput => exact absurd rfl h

theorem inner_performAll {ops : List MicroOp} (h : .takeInput ∉ ops) (m : Machine) :
    ∀ e ∈ (performAll m ops).2.1, e.Inner := by
  induction ops generalizing m with
  | nil => simp [performAll]
  | cons op rest ih =>
    have hne : op ≠ .takeInput := fun heq => h (heq ▸ List.mem_cons_self)
    have hfirst := inner_perform m hne
    have hrest := ih (fun hmem => h (List.mem_cons_of_mem op hmem))
    rw [performAll_cons]
    generalize perform m op = performed at hfirst ⊢
    obtain ⟨after, events, stop⟩ := performed
    cases stop with
    | some stop => exact hfirst
    | none => exact List.forall_mem_append.2 ⟨hfirst, hrest after⟩

end MicroOp

namespace Machine

theorem exists_close (m : Machine) (closing : Closing) :
    ∃ registers, (m.close closing).1 = { m with registers, phaseOpen := false } ∧
      registers.clock = m.registers.clock := by
  rw [close_machine]
  split
  · rw [updateFlags_machine]
    exact ⟨_, rfl, rfl⟩
  · exact ⟨_, rfl, rfl⟩

section
variable {m after : Machine} {act : Activity} {steps : List (List MicroOp)} {closing : Closing}
  {events : List Event} {stop : Option Stop}

/-- A micro-step of a running machine carries out micro-operations of the phase, unless it finds no
instruction. What it does besides loads nothing and leaves alone what has been supplied. -/
theorem Stepped.performed (h : Stepped m act) :
    (loads act.events = [] ∧ act.machine.input = m.input) ∨
      ∃ steps closing after events stop, m.opened.phaseSteps = .ok (steps, closing) ∧
        MicroOp.performAll m.opened (Microcode.stepAt steps m.opened.registers.sc) =
          (after, events, stop) ∧
        loads act.events = loads events ∧ act.machine.input = after.input := by
  cases h with
  | undecodable hsteps => exact .inl ⟨by simp, m.input_opened⟩
  | awaits hsteps hops | halts hsteps hops hhalted =>
    exact .inr ⟨_, _, _, _, _, hsteps, hops, by simp, rfl⟩
  | faults hsteps hops => exact .inr ⟨_, _, _, _, _, hsteps, hops, by simp, rfl⟩
  | counts hsteps hops hnot hmore =>
    exact .inr ⟨_, _, _, _, _, hsteps, hops, by simp, by rw [count_machine]; rfl⟩
  | @closes _ closing after _ hsteps hops hnot hlast =>
    obtain ⟨registers, hclose, -⟩ := after.exists_close closing
    exact .inr ⟨_, _, _, _, _, hsteps, hops, by simp, by rw [hclose]⟩

/-- A micro-step loads the value that has been supplied, or leaves it alone. -/
theorem loads_microStep (m : Machine) :
    (loads m.microStep.events = [] ∧ m.microStep.machine.input = m.input) ∨
      ∃ value, m.input = some value ∧ loads m.microStep.events = [value % 2 ^ 20] ∧
        m.microStep.machine.input = none := by
  by_cases hrun : m.status = .running
  · obtain hnone | ⟨steps, closing, after, events, stop, hsteps, hops, hloads, hinput⟩ :=
      (stepped_microStep hrun).performed
    · exact .inl hnone
    rw [hloads, hinput]
    by_cases htake : .takeInput ∈ Microcode.stepAt steps m.opened.registers.sc
    · -- Input is taken by a micro-operation that is alone in its micro-step.
      rw [(takeInput_mem_stepAt hsteps htake).2.2.1, MicroOp.performAll_singleton] at hops
      change MicroOp.performInput m.opened = _ at hops
      cases hin : m.opened.input with
      | none =>
        rw [MicroOp.performInput_of_none hin] at hops
        cases hops
        refine .inl ⟨?_, m.input_opened⟩
        split <;> rfl
      | some value =>
        rw [MicroOp.performInput_of_some hin] at hops
        cases hops
        exact .inr ⟨value, m.input_opened.symm.trans hin, rfl, rfl⟩
    · have hnone := loads_of_inner (MicroOp.inner_performAll htake m.opened)
      have hkept := (MicroOp.waiting_performAll htake m.opened).1
      rw [hops] at hnone hkept
      exact .inl ⟨hnone, hkept.trans m.input_opened⟩
  · rw [microStep_of_not_running hrun]
    exact .inl ⟨rfl, rfl⟩

theorem stepPhaseOpen_of_counts
    (hops : MicroOp.performAll m (Microcode.stepAt steps m.registers.sc) = (after, events, none))
    (hrun : after.status ≠ .halted) (hmore : m.registers.sc + 1 < steps.length)
    (opening : List Event) :
    m.stepPhaseOpen steps closing opening =
      ⟨(after.count (m.registers.sc + 1)).1, .ok .proceeds,
        opening ++ events ++ (after.count (m.registers.sc + 1)).2, m.beginReports⟩ := by
  simp only [stepPhaseOpen, hops, if_neg hrun, if_pos hmore]

/-- An instruction that waits for a value and has got it loads it and goes on. -/
theorem microStep_of_supplied {value : Nat} (h : m.WellFormed) (hrun : m.status = .running)
    (hwish : m.awaitsInput = true) (hinput : m.input = some value) :
    m.microStep.result = .ok .proceeds ∧ loads m.microStep.events = [value] ∧
      m.microStep.machine.input = none := by
  obtain ⟨hf, hsc, hopen, i, hdecode, hi⟩ := h.awaiting hrun hwish
  have hsteps : m.phaseSteps =
      .ok (Microcode.execute m.registers .input, .nextInstruction true) := by
    unfold phaseSteps
    rw [hf, hdecode]
    simp only [hi]
    rfl
  have hops : MicroOp.performAll m
      (Microcode.stepAt (Microcode.execute m.registers .input) m.registers.sc) =
        ({ m with input := none, awaitsInput := false }.setRegister .br (value % 2 ^ 20),
          m.movedEvents .br .load .input (value % 2 ^ 20), none) := by
    rw [hsc]
    exact (MicroOp.performAll_singleton m .takeInput).trans (MicroOp.performInput_of_some hinput)
  have hnot : m.status ≠ .halted := by rw [hrun]; decide
  have hmore : m.registers.sc + 1 < (Microcode.execute m.registers .input).length := by
    rw [hsc, Microcode.length_execute]
    decide
  have hcut : value % 2 ^ 20 = value := Nat.mod_eq_of_lt (h.input value hinput)
  rw [microStep_of_running hrun, opened_of_open hopen, hsteps]
  simp only [stepPhaseOpen_of_counts hops hnot hmore, loads_append, loads_openPhase, loads_count]
  exact ⟨trivial, congrArg (fun n => [n]) hcut, by rw [count_machine]; rfl⟩

end

/-! ## The rest of a phase -/

/-- The micro-steps that the current phase still needs. -/
def stepsLeft (m : Machine) : Nat := m.phaseLength - m.registers.sc

theorem stepsLeft_le_four (m : Machine) : m.stepsLeft ≤ 4 :=
  Nat.le_trans (Nat.sub_le _ _) m.phaseLength_le_four

theorem WellFormed.stepsLeft_pos {m : Machine} (h : m.WellFormed) (hrun : m.status = .running) :
    0 < m.stepsLeft :=
  Nat.sub_pos_of_lt (h.counted hrun)

/-- A micro-step counts a phase if it begins one. -/
theorem clock_microStep {m : Machine} (hrun : m.status = .running) :
    m.microStep.machine.registers.clock =
      if m.phaseOpen then m.registers.clock else m.registers.clock + 1 := by
  have hopened : m.opened.registers.clock =
      if m.phaseOpen then m.registers.clock else m.registers.clock + 1 := by rw [opened_eq]
  have hclock {ops : List MicroOp} {after : Machine} {events : List Event} {stop : Option Stop}
      (hops : MicroOp.performAll m.opened ops = (after, events, stop)) :
      after.registers.clock = m.opened.registers.clock := by
    have hkept := (MicroOp.control_performAll m.opened ops).1
    rw [hops] at hkept
    exact hkept
  rw [← hopened]
  have hstepped := stepped_microStep hrun
  generalize m.microStep = act at hstepped
  cases hstepped with
  | undecodable hsteps => rfl
  | awaits hsteps hops | halts hsteps hops hhalted => exact hclock hops
  | faults hsteps hops =>
    simp only [fail]
    exact hclock hops
  | counts hsteps hops hnot hmore =>
    rw [count_machine]
    exact (Registers.clock_set _ .sc _).trans (hclock hops)
  | @closes _ closing after _ hsteps hops hnot hlast =>
    obtain ⟨registers, hclose, hkept⟩ := after.exists_close closing
    simp only [hclose]
    exact hkept.trans (hclock hops)

/-- What a micro-step has come to, by its result. -/
inductive Progressed (m after : Machine) : Except MachineError Tick → Prop
  | counts (hrun : after.status = .running) (hwish : after.awaitsInput = false)
    (hopen : after.phaseOpen = true) (hsc : after.registers.sc ≠ 0)
    (hleft : after.stepsLeft + 1 = m.stepsLeft) : Progressed m after (.ok .proceeds)
  | closes (hrun : after.status = .running) (hwish : after.awaitsInput = false)
    (hclosed : after.phaseOpen = false) : Progressed m after (.ok .proceeds)
  /-- The first micro-step of the phase waits for a value. -/
  | waits (hinput : m.input = none) (hsc : m.registers.sc = 0)
    (hrun : after.status = .running) (hwish : after.awaitsInput = true)
    (hopen : after.phaseOpen = true) (hleft : after.stepsLeft = m.stepsLeft) :
    Progressed m after (.ok .awaitsInput)
  | halts (hhalted : after.status = .halted) (hopen : after.phaseOpen = true) :
    Progressed m after (.ok .halted)
  | fails (cause : Fault) (hfaulted : after.status = .faulted) (hopen : after.phaseOpen = true) :
    Progressed m after (.error (.fault cause))

theorem Performed.stepsLeft {m after : Machine} (h : Performed m after) :
    after.stepsLeft = m.stepsLeft := by
  unfold Machine.stepsLeft
  rw [h.phaseLength, h.count]

theorem progressed_microStep {m : Machine} (h : m.WellFormed) (hrun : m.status = .running) :
    Progressed m m.microStep.machine m.microStep.result := by
  have hsc : m.opened.registers.sc = m.registers.sc := by rw [opened_eq]
  have hstepped := stepped_microStep hrun
  generalize m.microStep = act at hstepped
  cases hstepped with
  | undecodable hsteps => exact .fails _ rfl m.phaseOpen_opened
  | @awaits steps closing after events hsteps hops =>
    have hperformed := (performed_stepAt h hrun hsteps hops).1
    have htake := takeInput_mem_stepAt hsteps (MicroOp.takeInput_mem_of_awaits hops)
    rw [htake.2.2.1, MicroOp.performAll_singleton] at hops
    change MicroOp.performInput m.opened = _ at hops
    cases hin : m.opened.input with
    | some value =>
      rw [MicroOp.performInput_of_some hin] at hops
      cases hops
    | none =>
      rw [MicroOp.performInput_of_none hin] at hops
      cases hops
      exact .waits (m.input_opened.symm.trans hin) (hsc.symm.trans htake.2.1)
        (m.status_opened.trans hrun) rfl hperformed.open_ hperformed.stepsLeft
  | faults hsteps hops =>
    exact .fails _ rfl (performed_stepAt h hrun hsteps hops).1.open_
  | halts hsteps hops hhalted =>
    exact .halts hhalted (performed_stepAt h hrun hsteps hops).1.open_
  | @counts steps closing after events hsteps hops hnot hmore =>
    obtain ⟨hperformed, hstatus⟩ := performed_stepAt h hrun hsteps hops
    have hwish := awaitsInput_of_performed h hrun hsteps hops
    rw [length_phaseSteps hsteps, phaseLength_opened, hsc] at hmore
    have hle := m.phaseLength_le_four
    have hcount : (after.count (m.opened.registers.sc + 1)).1.registers.sc =
        m.registers.sc + 1 := by
      rw [count_machine, hsc]
      change (m.registers.sc + 1) % 4 = _
      omega
    have hlength : (after.count (m.opened.registers.sc + 1)).1.phaseLength = m.phaseLength := by
      rw [count_machine]
      exact hperformed.phaseLength
    refine .counts ?_ ?_ ?_ (by rw [hcount]; omega) ?_
    · rw [count_machine]
      exact hstatus hnot
    · rw [count_machine]
      exact hwish
    · rw [count_machine]
      exact hperformed.open_
    · change (after.count (m.opened.registers.sc + 1)).1.phaseLength -
        (after.count (m.opened.registers.sc + 1)).1.registers.sc + 1 = m.phaseLength - _
      rw [hlength, hcount]
      omega
  | @closes steps closing after events hsteps hops hnot hlast =>
    have hstatus := (performed_stepAt h hrun hsteps hops).2
    have hwish := awaitsInput_of_performed h hrun hsteps hops
    obtain ⟨registers, hclose, -⟩ := after.exists_close closing
    simp only [hclose]
    exact .closes (hstatus hnot) hwish rfl

/-- The status after a micro-step is told by its result. -/
theorem status_microStep {m : Machine} (h : m.WellFormed) (hrun : m.status = .running) :
    m.microStep.machine.status =
      match m.microStep.result with
      | .ok .proceeds | .ok .awaitsInput => .running
      | .ok .halted => .halted
      | .error _ => .faulted := by
  have hprogressed := progressed_microStep h hrun
  generalize m.microStep.result = result at hprogressed ⊢
  cases hprogressed with
  | counts hstatus | closes hstatus | waits _ _ hstatus => exact hstatus
  | halts hstatus | fails _ hstatus => exact hstatus

end Machine

end TrnComputer
