import TrnComputer.Proofs.Instruction.Fields
import TrnComputer.Proofs.Machine.Segments

/-! # Faults

* `Calm`, `Machine.failsBy_runUntil`: a run that fails tells so once, at its end, and leaves the
  machine stopped.
* `Trouble`, `Visible.trouble?`: what keeps an instruction from being carried out, the first of
  four; `Trouble.fault`, `Trouble.leaves`: the fault that it shows and the state that it leaves.
* `MicroOp.cutBy_execute`: what cuts the execution of an operation short.
* `Visible.operate_ne_none`: the operations that are carried out.
* `Machine.stepInstruction_fails`: an instruction fails just for its trouble.
-/

namespace TrnComputer
set_option autoImplicit false

/-! ## Events of failing runs -/

/-- No event tells of a fault. -/
def Calm (events : List Event) : Prop := ∀ message, .stopped message ∉ events

theorem calm_nil : Calm [] := fun _ h => by cases h

theorem Calm.append {earlier later : List Event} (h : Calm earlier) (hlater : Calm later) :
    Calm (earlier ++ later) := fun message hmem =>
  (List.mem_append.mp hmem).elim (h message) (hlater message)

/-- The activity fails for a cause: the machine is stopped, and the last event alone tells of it. -/
structure Activity.FailsBy (act : Activity) (cause : Fault) : Prop where
  result : act.result = .error (.fault cause)
  status : act.machine.status = .faulted
  events : ∃ front, act.events = front ++ [.stopped cause.message] ∧ Calm front

namespace MicroOp

theorem calm_perform (m : Machine) (op : MicroOp) : Calm (perform m op).2.1 := by
  cases op with
  | observe _ | watch _ | forgetOverflow | output => simp [perform, Calm, Machine.observation]
  | transfer _ _ _ => simp [perform, Calm, Machine.transfer, Machine.move, Machine.movedEvents]
  | shiftPair _ =>
    simp [perform, Calm, performShiftPair, Machine.transfer, Machine.move, Machine.movedEvents]
  | halt => simp [perform, Calm, performHalt, Machine.move, Machine.movedEvents]
  | readCell =>
    change Calm (performRead m).2.1
    cases hcell : m.memory.get? m.registers.ar with
    | none => simp [performRead_of_none hcell, Calm]
    | some value => simp [performRead_of_some hcell, Calm, Machine.movedEvents]
  | writeCell =>
    change Calm (performWrite m).2.1
    rcases Nat.lt_or_ge m.registers.ar m.memory.size with hlt | hle
    · simp [performWrite_of_lt hlt, Calm, Machine.observation]
    · simp [performWrite_of_le hle, Calm, Machine.observation]
  | takeInput =>
    change Calm (performInput m).2.1
    cases hinput : m.input with
    | none => cases hawaits : m.awaitsInput <;> simp [performInput_of_none hinput, Calm, hawaits]
    | some value => simp [performInput_of_some hinput, Calm, Machine.movedEvents]

theorem calm_performAll (m : Machine) (ops : List MicroOp) : Calm (performAll m ops).2.1 := by
  induction ops generalizing m with
  | nil => exact calm_nil
  | cons op rest ih =>
    have hfirst := calm_perform m op
    rw [performAll_cons]
    generalize perform m op = performed at hfirst
    obtain ⟨after, events, stop⟩ := performed
    cases stop with
    | some why => exact hfirst
    | none => exact hfirst.append (ih after)

end MicroOp

namespace Machine

theorem calm_openPhase (m : Machine) : Calm m.openPhase.2 := by
  unfold openPhase
  split <;> simp [Calm]

theorem calm_count (m : Machine) (sc : Nat) : Calm (m.count sc).2 := by
  unfold count
  split <;> simp [Calm]

theorem calm_assign (m : Machine) (q : Register) (value : Nat) : Calm (m.assign q value).2 := by
  unfold assign
  split <;> simp [Calm, move, movedEvents]

theorem calm_enter (m : Machine) (p : Phase) : Calm (m.enter p).2 :=
  (calm_count _ _).append (calm_assign _ _ _)

theorem calm_close (m : Machine) (closing : Closing) : Calm (m.close closing).2 := by
  cases closing with
  | afterFetch | afterIndexed | afterIndirect => exact m.calm_enter _
  | nextInstruction setsFlags =>
    cases setsFlags with
    | false => exact m.calm_enter .fetch
    | true =>
      exact (m.calm_enter .fetch).append
        (((calm_assign _ _ _).append (calm_assign _ _ _)).append (calm_assign _ _ _))

theorem status_close (m : Machine) (closing : Closing) :
    (m.close closing).1.status = m.status := by
  rw [close_machine]
  split
  · rw [updateFlags_machine]
    rfl
  · rfl

theorem running_of_proceeds {m : Machine} (hrun : m.status = .running)
    (h : m.microStep.result = .ok .proceeds) : m.microStep.machine.status = .running := by
  have hperformed {ops : List MicroOp} {after : Machine} {events : List Event}
      {stop : Option Stop} (hops : MicroOp.performAll m.opened ops = (after, events, stop)) :
      after.status = .running ∨ after.status = .halted := by
    have hafter : after = (MicroOp.performAll m.opened ops).1 := by rw [hops]
    rw [hafter]
    apply MicroOp.performAll_induct (P := fun n => n.status = .running ∨ n.status = .halted)
    · exact .inl ((status_opened m).trans hrun)
    · exact fun _ _ _ _ _ _ _ hn => hn
    · exact fun _ _ hn => hn
    · exact fun _ hn => hn
    · exact fun _ _ hn => ⟨hn, hn⟩
    · exact fun _ _ _ => .inr rfl
  have hstepped := stepped_microStep hrun
  generalize m.microStep = act at h hstepped ⊢
  cases hstepped with
  | undecodable | awaits | faults | halts => cases h
  | counts hsteps hops hnot hmore =>
    have hstatus := (hperformed hops).resolve_right hnot
    exact (congrArg Machine.status (count_machine _ _)).trans hstatus
  | closes hsteps hops hnot hlast =>
    exact (status_close _ _).trans ((hperformed hops).resolve_right hnot)

theorem failsBy_fail (m : Machine) (cause : Fault) {events : List Event} (h : Calm events)
    (reports : List MachineReport) : (m.fail cause events reports).FailsBy cause :=
  ⟨rfl, rfl, events, rfl, h⟩

/-- A micro-step tells of a fault just when it fails. -/
theorem tells_microStep {m : Machine} (hrun : m.status = .running) :
    (∃ tick, m.microStep.result = .ok tick ∧ Calm m.microStep.events) ∨
      ∃ cause, m.microStep.FailsBy cause := by
  have hperformed {ops : List MicroOp} {after : Machine} {events : List Event}
      {stop : Option Stop} (hops : MicroOp.performAll m.opened ops = (after, events, stop)) :
      Calm (m.openPhase.2 ++ events) := by
    have hcalm := MicroOp.calm_performAll m.opened ops
    rw [hops] at hcalm
    exact m.calm_openPhase.append hcalm
  have hstepped := stepped_microStep hrun
  generalize m.microStep = act at hstepped ⊢
  cases hstepped with
  | undecodable hsteps => exact .inr ⟨_, failsBy_fail _ _ m.calm_openPhase _⟩
  | awaits hsteps hops => exact .inl ⟨_, rfl, hperformed hops⟩
  | faults hsteps hops => exact .inr ⟨_, failsBy_fail _ _ (hperformed hops) _⟩
  | halts hsteps hops hhalted => exact .inl ⟨_, rfl, hperformed hops⟩
  | counts hsteps hops hnot hmore =>
    exact .inl ⟨_, rfl, (hperformed hops).append (calm_count _ _)⟩
  | closes hsteps hops hnot hlast =>
    exact .inl ⟨_, rfl, (hperformed hops).append (calm_close _ _)⟩

/-- A run that fails tells of the fault once, at its end, and leaves the machine stopped. -/
theorem failsBy_runUntil {done : Machine → Bool} {fuel : Nat} {m : Machine}
    (hrun : m.status = .running) {e : MachineError}
    (h : (m.runUntil done fuel).result = .error e) :
    ∃ cause, e = .fault cause ∧ (m.runUntil done fuel).FailsBy cause := by
  induction fuel generalizing m with
  | zero => cases h
  | succ fuel ih =>
    obtain hgo | hlast := goesOn_or_ends done m
    · rw [runUntil_of_proceeds fuel hgo.1 hgo.2] at h ⊢
      obtain ⟨cause, rfl, hfails⟩ := ih (running_of_proceeds hrun hgo.1) h
      obtain ⟨front, hevents, hcalm⟩ := hfails.events
      refine ⟨cause, rfl, hfails.result, hfails.status, m.microStep.events ++ front, ?_, ?_⟩
      · simp only [Activity.after, hevents, List.append_assoc]
      · obtain ⟨tick, -, hquiet⟩ | ⟨other, hother⟩ := tells_microStep hrun
        · exact hquiet.append hcalm
        · have hresult := hother.result.symm.trans hgo.1
          cases hresult
    · rw [runUntil_of_stop fuel hlast] at h ⊢
      obtain ⟨tick, hresult, -⟩ | ⟨cause, hfails⟩ := tells_microStep hrun
      · rw [hresult] at h
        cases h
      · rw [hfails.result] at h
        cases h
        exact ⟨cause, rfl, hfails⟩

end Machine

/-! ## What keeps an instruction from being carried out -/

/-- What keeps an instruction from being carried out. -/
inductive Trouble
  /-- There is no cell at PC. -/
  | instruction (address : Nat)
  /-- There is no cell at the address in the instruction, and the address is indirect. -/
  | address (address : Nat)
  /-- The word is no instruction. -/
  | word (subcode : Nat)
  /-- There is no cell where the operation reads or writes one. -/
  | data (operation : Operation) (address : Nat)
  deriving DecidableEq, Repr

/-- The fault that a machine with so many cells shows. -/
def Trouble.fault (size : Nat) : Trouble → Fault
  | .instruction a | .address a | .data _ a => .memory ⟨a, size⟩
  | .word subcode => .decode (.invalidSubOperation 10 subcode)

namespace Visible

/-- The address of the cell that an operation reads or writes, if there is one. `e` is the address
of its data. -/
def site (t : Visible) (e : Nat) : Operation → Option Nat
  | .load _ | .store _ | .add | .subtract | .combine _ => some e
  | .push | .call => some ((t.sp + 1) % 2 ^ 13)
  | .pop | .ret => some t.sp
  | _ => none

/-- The state in which an operation reads or writes its cell. -/
def poised (t : Visible) : Operation → Visible
  | .push | .call => { t with sp := (t.sp + 1) % 2 ^ 13 }
  | _ => t

/-- The address where an operation misses a cell, if it does. -/
def missing (t : Visible) (e : Nat) (operation : Operation) : Option Nat :=
  (t.site e operation).filter (t.memory.size ≤ ·)

/-- How an operation ends that misses a cell. -/
def cut (t : Visible) (operation : Operation) (address : Nat) : Stop × Visible :=
  (.fault (.memory ⟨address, t.memory.size⟩), t.poised operation)

/-- The first of all that keeps the instruction at PC from being carried out. -/
def trouble? (t : Visible) : Option Trouble :=
  if t.memory.size ≤ t.pc then some (.instruction t.pc)
  else if Word.isIndirect t.word ∧ t.memory.size ≤ t.address then some (.address t.address)
  else if Word.opcodeField t.word = 10 ∧ 6 ≤ Word.operand t.word % 8 then
    some (.word (Word.operand t.word % 8))
  else do
    let operation ← t.operation?
    (t.missing t.effective operation).map (.data operation)

theorem map_missing {α : Type} {t : Visible} {e address : Nat} {operation : Operation}
    (h : t.site e operation = some address) (f : Nat → α) :
    (t.missing e operation).map f =
      if t.memory.size ≤ address then some (f address) else none := by
  rw [missing, h, Option.filter_some]
  by_cases hle : t.memory.size ≤ address <;> simp [hle]

end Visible

/-- The state in which an instruction is left. -/
def Trouble.leaves (t : Visible) : Trouble → Visible
  | .instruction _ => t
  | .address _ | .word _ => t.advanced
  | .data operation _ => t.advanced.poised operation

/-! ## Executions that are cut short -/

namespace MicroOp
open Microcode

variable {n : Machine}

/-- What puts a register on the stack is cut short when there is no cell above its top. -/
theorem cutBy_push (source : Register) {back : List MicroOp} (hback : ∀ op ∈ back, op.Quiet) :
    cutBy (performAll n ((increment .sp :: copy source .br ++ copy .sp .ar) ++
        .writeCell :: back)) =
      (n.visible.missing n.registers.ar .push).map (n.visible.cut .push) := by
  have hquiet : ∀ op ∈ increment .sp :: copy source .br ++ copy .sp .ar, op.Quiet := by
    simp [increment, copy, Quiet]
  rw [Visible.map_missing rfl, cutBy_append hquiet, cutBy_writeCell hback]
  change (if n.memory.size ≤ (n.registers.sp + 1) % 2 ^ 13 % 2 ^ 16 % 2 ^ 13 % 2 ^ 16 then
    some (Stop.fault (.memory ⟨(n.registers.sp + 1) % 2 ^ 13 % 2 ^ 16 % 2 ^ 13 % 2 ^ 16,
      n.memory.size⟩), { n.visible with sp := (n.registers.sp + 1) % 2 ^ 13 % 2 ^ 16 })
    else none) = _
  simp only [mod_container, Nat.mod_mod]
  rfl

/-- What reads the top of the stack first is cut short when that cell is missing. -/
theorem cutBy_top (h : n.registers.Fits) {back : List MicroOp} (hback : ∀ op ∈ back, op.Quiet) :
    cutBy (performAll n (copy .sp .ar ++ .readCell :: back)) =
      (n.visible.missing n.registers.ar .pop).map (n.visible.cut .pop) := by
  rw [Visible.map_missing rfl]
  have hsp : n.registers.sp < 2 ^ 13 := h .sp
  have har : n.registers.sp % 2 ^ 13 % 2 ^ 16 = n.registers.sp := by omega
  rw [cutBy_append (by decide), cutBy_readCell hback]
  change (if n.memory.size ≤ n.registers.sp % 2 ^ 13 % 2 ^ 16 then
    some (Stop.fault (.memory ⟨n.registers.sp % 2 ^ 13 % 2 ^ 16, n.memory.size⟩), n.visible)
    else none) = _
  rw [har]
  rfl

theorem cutBy_store (holder : Holder) :
    cutBy (performAll n (execute n.registers (.store holder)).flatten) =
      (n.visible.missing n.registers.ar (.store holder)).map (n.visible.cut (.store holder)) := by
  rw [Visible.map_missing rfl]
  change cutBy (performAll n (copy holder.register .br ++ [.writeCell])) = _
  rw [cutBy_append (by cases holder <;> decide), cutBy_writeCell (by decide)]
  rfl

/-- The execution of an operation other than input is cut short when its cell is missing. -/
theorem cutBy_execute (operation : Operation) (hinput : operation ≠ .input)
    (h : n.registers.Fits) :
    cutBy (performAll n (execute n.registers operation).flatten) =
      (n.visible.missing n.registers.ar operation).map (n.visible.cut operation) := by
  cases operation with
  | load holder =>
    rw [Visible.map_missing rfl]
    have hquiet : ∀ op ∈ copy .br holder.register, op.Quiet := by cases holder <;> decide
    exact cutBy_readCell hquiet
  | store holder => exact cutBy_store holder
  | push => exact cutBy_push .a (by decide)
  | pop => exact cutBy_top h (by decide)
  | add | subtract =>
    rw [Visible.map_missing rfl]
    exact cutBy_readCell (by decide)
  | combine connective =>
    rw [Visible.map_missing rfl]
    have hquiet : ∀ op ∈ [observe .br, transfer .a .modify (.combined connective)], op.Quiet := by
      cases connective <;> decide
    exact cutBy_readCell hquiet
  | call => exact cutBy_push .pc (by decide)
  | ret => exact cutBy_top h (by decide)
  | input => exact absurd rfl hinput
  | nop | enterAccumulator | enterIndex | complement | output | halt =>
    exact cutBy_of_quiet (by simp only [execute]; decide)
  | step target up =>
    exact cutBy_of_quiet (by simp only [execute]; cases target <;> cases up <;> decide)
  | shift target direction =>
    exact cutBy_of_quiet (by simp only [execute]; cases target <;> cases direction <;> decide)
  | shiftPair direction => exact cutBy_of_quiet (by simp only [execute]; cases direction <;> decide)
  | jump condition =>
    apply cutBy_of_quiet
    simp only [execute, jump]
    cases condition.holds n.registers <;> cases condition <;> decide

end MicroOp

/-! ## Executions -/

namespace Visible

variable {t : Visible} {o b e : Nat} {operation : Operation}

theorem put_ne_none {address : Nat} (h : address < t.memory.size) (value : Nat) :
    t.put address value ≠ none := by
  rw [put, if_pos h]
  exact Option.some_ne_none _

theorem lt_size_of_missing (h : t.missing e operation = none) {address : Nat}
    (hsite : t.site e operation = some address) : address < t.memory.size := by
  apply Nat.lt_of_not_le
  intro hle
  have hmissing := map_missing hsite id
  rw [h, if_pos hle] at hmissing
  cases hmissing

theorem missing_advanced (t : Visible) (e : Nat) (operation : Operation) :
    t.advanced.missing e operation = t.missing e operation := by
  cases operation <;> rfl

/-- An operation whose cell is there can be carried out, unless it lacks a value from outside. -/
theorem operate_ne_none (hcell : t.missing e operation = none)
    (hinput : operation = .input → t.input ≠ none) : t.operate o b e operation ≠ none := by
  have hread {address : Nat} (hsite : t.site e operation = some address) :
      t.cell address ≠ none := fun hnone =>
    absurd (lt_size_of_missing hcell hsite) (Nat.not_lt_of_le (cell_eq_none_iff.mp hnone))
  have hsite {address : Nat} (hat : t.site e operation = some address) :
      address < t.memory.size := lt_size_of_missing hcell hat
  cases operation with
  | load | pop | add | subtract | ret => simpa [operate] using hread rfl
  | combine connective => cases connective <;> simpa [operate] using hread rfl
  | store => simpa [operate] using put_ne_none (hsite rfl) _
  | push | call =>
    simpa [operate] using put_ne_none (t := { t with sp := (t.sp + 1) % 2 ^ 13 }) (hsite rfl) _
  | input => simpa [operate] using hinput rfl
  | jump condition =>
    change (if t.takes condition then _ else _) ≠ none
    split <;> exact Option.some_ne_none _
  | _ => exact Option.some_ne_none _

end Visible

namespace Machine

section
variable {m n : Machine} {w b e : Nat} {t : Visible} {i : Instruction}

theorem cutShort_undecodable (h : Ready .execute w b e t n) {error : DecodeError}
    (hd : Instruction.decode w = .error error) : n.CutShort (.fault (.decode error)) t 1 := by
  have hf : n.opened.registers.f = .execute := by
    rw [opened_eq]
    exact h.phase
  have hir : n.opened.registers.ir = w := by
    rw [opened_eq]
    exact h.instruction
  have herror : n.opened.phaseSteps = .error error := by
    rw [phaseSteps, hf, hir, hd]
  have hstep := microStep_of_running h.running
  rw [herror] at hstep
  apply cutShort_microStep
  · rw [hstep]
    rfl
  · rw [hstep, ← h.visible, ← visible_opened n]
    rfl

theorem halt_notMem_execute (r : Registers) {operation : Operation} (h : operation ≠ .halt) :
    .halt ∉ (Microcode.execute r operation).flatten := by
  intro hmem
  obtain ⟨ops, hops, hop⟩ := List.mem_flatten.1 hmem
  exact h ((Microcode.orderly_execute _ _ ops hops _ hop).2.2.2 rfl)

/-- The execution of an operation is cut short by what cuts its micro-operations short. -/
theorem cutShort_execute (h : Ready .execute w b e t n) (hd : Instruction.decode w = .ok i)
    (hhalt : i.operation ≠ .halt) {why : Stop} {u : Visible}
    (hcut : cutBy (MicroOp.performAll n.opened
      (Microcode.execute n.opened.registers i.operation).flatten) = some (why, u)) :
    n.CutShort why u 4 := by
  have hcutShort := cutShort_phase (halt_notMem_execute _ hhalt) h.running h.counted
    (phaseSteps_execute h hd) hcut
  rw [Microcode.length_execute] at hcutShort
  exact hcutShort.mono i.operation.microSteps_le_four

theorem cutShort_missing (h : Ready .execute w b e t n) (hd : Instruction.decode w = .ok i)
    {address : Nat} (hcell : t.missing e i.operation = some address) :
    n.CutShort (.fault (.memory ⟨address, t.memory.size⟩)) (t.poised i.operation) 4 := by
  have hne {operation : Operation} (hnone : t.missing e operation = none) :
      i.operation ≠ operation := fun heq => by
    rw [heq, hnone] at hcell
    cases hcell
  have har : n.opened.registers.ar = e := by
    rw [opened_eq]
    exact h.address
  refine cutShort_execute h hd (hne rfl) ?_
  rw [MicroOp.cutBy_execute i.operation (hne rfl) (fits_opened h.fits), visible_opened, h.visible,
    har, hcell]
  rfl

theorem cutShort_input (h : Ready .execute w b e t n) (hd : Instruction.decode w = .ok i)
    (hinput : i.operation = .input) (hnone : t.input = none) : n.CutShort .awaitsInput t 4 := by
  have hopened : n.opened.input = none := by
    rw [opened_eq]
    exact (congrArg Visible.input h.visible).trans hnone
  refine cutShort_execute h hd (by rw [hinput]; decide) ?_
  rw [hinput]
  change cutBy (MicroOp.performAll n.opened (.takeInput :: Microcode.copy .br .a)) = _
  rw [MicroOp.cutBy_takeInput (by decide), if_pos hopened, visible_opened, h.visible]

theorem result_ne_error_of_outcome {act : Activity} (h : act.outcome ≠ none) (e : MachineError) :
    act.result ≠ .error e := by
  intro hresult
  rw [Activity.outcome, hresult] at h
  exact h rfl

/-- The execution of an operation whose cell is there does not fail. -/
theorem execute_ne_error (h : Ready .execute w b e t n) (hd : Instruction.decode w = .ok i)
    (hcell : t.missing e i.operation = none) (fuel : Nat) (error : MachineError) :
    (n.runUntil atInstruction (fuel + 4)).result ≠ .error error := by
  by_cases hwaits : i.operation = .input ∧ t.input = none
  · rw [(cutShort_input h hd hwaits.1 hwaits.2 fuel).1]
    exact fun hresult => by cases hresult
  · apply result_ne_error_of_outcome
    intro hnone
    have hagrees := (agrees_execute fuel h).1
    have hoperate : t.operate (w % 2 ^ 13) b e i.operation ≠ none :=
      Visible.operate_ne_none hcell fun hinput hempty => hwaits ⟨hinput, hempty⟩
    rw [hnone, Visible.carryOut, hd] at hagrees
    exact hoperate (Option.map_eq_none_iff.mp hagrees.symm)

/-! ## Instructions -/

/-- What an instruction comes to that has some trouble, or none. -/
def Meets (m : Machine) : Option Trouble → Prop
  | some trouble =>
    m.CutShort (.fault (trouble.fault m.memory.size)) (trouble.leaves m.visible) 10
  | none => ∀ error, m.stepInstruction.result ≠ .error error

/-- An instruction that is read without trouble meets what keeps its operation from being carried
out. -/
theorem meets_execute (h : m.AtInstruction) (hreadable : m.visible.Readable)
    (hd : Instruction.decode m.visible.word = .ok i) :
    m.Meets ((m.visible.missing m.visible.effective i.operation).map (.data i.operation)) := by
  obtain ⟨k, count, hcount, hpasses, hready⟩ := passes_readable h hreadable
  have hadvanced := m.visible.missing_advanced m.visible.effective i.operation
  cases hcell : m.visible.missing m.visible.effective i.operation with
  | some address =>
    rw [hcell] at hadvanced
    exact (hpasses.cutShort (cutShort_missing hready hd hadvanced)).mono (by omega)
  | none =>
    rw [hcell] at hadvanced
    intro error
    obtain ⟨fuel, hfuel⟩ : ∃ fuel, 10 = fuel + 4 + count := ⟨6 - count, by omega⟩
    obtain ⟨earlier, hearlier⟩ := hpasses
    rw [stepInstruction, hfuel, hearlier]
    exact execute_ne_error hready hd hadvanced fuel error

theorem meets_trouble (h : m.AtInstruction) : m.Meets m.visible.trouble? := by
  -- The causes are tried in the order in which the run meets them.
  unfold Visible.trouble?
  by_cases hword : m.visible.memory.size ≤ m.visible.pc
  · rw [if_pos hword]
    exact (cutShort_fetch h hword).mono (by decide)
  rw [if_neg hword]
  by_cases hindirect : Word.isIndirect m.visible.word ∧ m.visible.memory.size ≤ m.visible.address
  · rw [if_pos hindirect]
    exact (cutShort_address h (Nat.lt_of_not_le hword) hindirect.1 hindirect.2).mono (by decide)
  rw [if_neg hindirect]
  have hreadable : m.visible.Readable :=
    ⟨Nat.lt_of_not_le hword, fun hbit => Nat.lt_of_not_le fun hle => hindirect ⟨hbit, hle⟩⟩
  cases hd : Instruction.decode m.visible.word with
  | error error =>
    obtain ⟨hcode, hsubcode, rfl⟩ := Instruction.decode_eq_error_iff.mp hd
    obtain ⟨k, count, hcount, hpasses, hready⟩ := passes_readable h hreadable
    rw [if_pos ⟨hcode, hsubcode⟩]
    exact (hpasses.cutShort (cutShort_undecodable hready hd)).mono (by omega)
  | ok i =>
    have hcode : ¬(Word.opcodeField m.visible.word = 10 ∧ 6 ≤ Word.operand m.visible.word % 8) :=
      fun hcode => by
        rw [Instruction.decode_eq_error_iff.mpr ⟨hcode.1, hcode.2, rfl⟩] at hd
        cases hd
    rw [if_neg hcode, Visible.operation?, hd]
    exact meets_execute h hreadable hd

/-- An instruction fails just for its trouble. It then tells of the fault once, at its end, and
leaves the machine stopped; programs see what was before, but for PC, which is counted up once the
word is read, and for SP, which a push or a call counts up before the fault. -/
theorem stepInstruction_fails (h : m.AtInstruction) :
    (∀ error, m.stepInstruction.result = .error error ↔
      ∃ trouble, m.visible.trouble? = some trouble ∧
        error = .fault (trouble.fault m.memory.size)) ∧
    ∀ trouble, m.visible.trouble? = some trouble →
      m.stepInstruction.FailsBy (trouble.fault m.memory.size) ∧
        m.stepInstruction.machine.visible = trouble.leaves m.visible := by
  have hmeets := meets_trouble h
  cases htrouble : m.visible.trouble? with
  | none =>
    rw [htrouble] at hmeets
    refine ⟨fun error => ⟨fun hresult => absurd hresult (hmeets error), ?_⟩, ?_⟩
    · rintro ⟨trouble, hnone, -⟩
      cases hnone
    · intro trouble hnone
      cases hnone
  | some trouble =>
    rw [htrouble] at hmeets
    obtain ⟨hresult, hvisible⟩ := hmeets 0
    obtain ⟨cause, hcause, hfails⟩ := failsBy_runUntil h.running hresult
    cases hcause
    refine ⟨fun error => ⟨fun herror => ?_, ?_⟩, ?_⟩
    · cases hfails.result.symm.trans herror
      exact ⟨trouble, rfl, rfl⟩
    · rintro ⟨_, hfound, rfl⟩
      cases hfound
      exact hfails.result
    · intro _ hfound
      cases hfound
      exact ⟨hfails, hvisible⟩

theorem stepInstruction_fails_push :
    let m := ofMemory (.ofList [8 * 2 ^ 15])
    m.AtInstruction ∧ m.stepInstruction.FailsBy (.memory ⟨1, 1⟩) ∧
      m.stepInstruction.machine.visible = { m.visible with sp := 1, pc := 1 } :=
  ⟨atInstruction_ofMemory _,
    (stepInstruction_fails (atInstruction_ofMemory _)).2 (.data .push 1) (by decide)⟩

end

end Machine

end TrnComputer
