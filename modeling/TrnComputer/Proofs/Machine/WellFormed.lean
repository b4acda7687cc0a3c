import TrnComputer.Proofs.Machine.Microcode
import TrnComputer.Proofs.Machine.Runs

/-! # Well-formed machines

* `Machine.WellFormed`: registers within their bounds, a step counter inside the current phase, a
  phase that the modifiers ask for, and a wish for input only in front of an input instruction.
* `wellFormed_microStep`: a micro-step keeps a machine well formed.
* `Machine.Request`, `Machine.serveAll`: all that can be asked of a machine, in any order.
* `reachable_wellFormed`: a machine that starts from a memory stays well formed whatever is asked of
  it, its memory keeps the size of the one loaded last, and nothing that it adds up overflows.
-/

namespace TrnComputer
set_option autoImplicit false

namespace Machine

/-- What holds between any two micro-steps. -/
structure WellFormed (m : Machine) : Prop where
  /-- BR, A, X and IR have 20 bits, SP, I and PC 13, and AR is at most 16382. -/
  fits : m.registers.Fits
  input : ∀ value, m.input = some value → value < 2 ^ 20
  halted : m.registers.h = true ↔ m.status = .halted
  closed : m.phaseOpen = false → m.registers.sc = 0
  counted : m.status = .running → m.registers.sc < m.phaseLength
  indexed : m.registers.f = .indexed → Word.isIndexed m.registers.ir = true
  indirect : m.registers.f = .indirect → Word.isIndirect m.registers.ir = true
  awaiting : m.status = .running → m.awaitsInput = true →
    m.registers.f = .execute ∧ m.registers.sc = 0 ∧ m.phaseOpen = true ∧
      ∃ i, Instruction.decode m.registers.ir = .ok i ∧ i.operation = .input

theorem wellFormed_ofMemory (memory : Memory) : (ofMemory memory).WellFormed where
  fits := Registers.fits_zero
  input := by simp [ofMemory]
  halted := by simp [ofMemory, Registers.zero]
  closed := by simp [ofMemory, Registers.zero]
  counted := fun _ => phaseLength_pos _
  indexed := by simp [ofMemory, Registers.zero]
  indirect := by simp [ofMemory, Registers.zero]
  awaiting := by simp [ofMemory]

/-! ## Inside a micro-step -/

/-- What the micro-operations of a micro-step keep. -/
structure Performed (m after : Machine) : Prop where
  fits : after.registers.Fits
  input : ∀ value, after.input = some value → value < 2 ^ 20
  halted : after.registers.h = true ↔ after.status = .halted
  open_ : after.phaseOpen = true
  size : after.memory.size = m.memory.size
  phase : after.registers.f = m.registers.f
  count : after.registers.sc = m.registers.sc
  instruction : m.registers.f ≠ .fetch → after.registers.ir = m.registers.ir

section
variable {m after : Machine} {steps : List (List MicroOp)} {closing : Closing}
  {events : List Event} {stop : Option Stop}

theorem performed_stepAt (h : m.WellFormed) (hrun : m.status = .running)
    (hsteps : m.opened.phaseSteps = .ok (steps, closing))
    (hops : MicroOp.performAll m.opened (Microcode.stepAt steps m.opened.registers.sc) =
      (after, events, stop)) :
    Performed m after ∧ (after.status ≠ .halted → after.status = .running) := by
  have hmem := Microcode.stepAt_mem (ne_nil_of_phaseSteps hsteps) m.opened.registers.sc
  generalize Microcode.stepAt steps m.opened.registers.sc = ops at hops hmem
  have hafter : after = (MicroOp.performAll m.opened ops).1 := by rw [hops]
  have horderly := fun (op : MicroOp) (hop : op ∈ ops) => orderly_phaseSteps hsteps hmem hop
  -- A register that no micro-operation writes is as before.
  have hkeep : ∀ q, (∀ op ∈ ops, q ∉ op.writes) →
      after.registers.get q = m.registers.get q := by
    intro q hq
    rw [hafter, MicroOp.get_performAll hq, get_opened]
  have hcontrol := MicroOp.control_performAll m.opened ops
  rw [← hafter] at hcontrol
  have hbound : ∀ op ∈ ops, op.Bounded := fun op hop => (horderly op hop).1.bounded
  have hfits := fits_opened h.fits
  have hcounter : ∀ q ∈ [Register.sc, .f], ∀ op ∈ ops, q ∉ op.writes := by
    intro q hq op hop hw
    have hno := ((horderly op hop).1.writes q hw).1
    obtain rfl | rfl : q = .sc ∨ q = .f := by simpa using hq
    · exact hno (by simp)
    · exact hno (by simp)
  have hsc : after.registers.sc = m.registers.sc := hkeep .sc (hcounter .sc (by simp))
  have hf : after.registers.f = m.registers.f :=
    Phase.code_injective (hkeep .f (hcounter .f (by simp)))
  have hf' : m.opened.registers.f = m.registers.f := by rw [opened_eq]
  have hrunning : m.registers.h = false := by
    have hnot : ¬m.registers.h = true := fun hh => by
      have := h.halted.1 hh
      rw [hrun] at this
      cases this
    simpa using hnot
  have hstatus : (after.registers.h = true ↔ after.status = .halted) ∧
      (after.status ≠ .halted → after.status = .running) := by
    by_cases hhalt : .halt ∈ ops
    · rw [halt_mem_phaseSteps hsteps hmem hhalt] at hafter
      have hset : after.registers.h = true ∧ after.status = .halted := by
        rw [hafter]
        exact ⟨rfl, rfl⟩
      simp [hset]
    · have hs : after.status = .running := by
        rw [hafter, MicroOp.status_performAll hhalt, status_opened, hrun]
      have hh : after.registers.h = m.registers.h := by
        have hget := hkeep .h (fun op hop hw =>
          hhalt (((horderly op hop).1.writes .h hw).2 rfl ▸ hop))
        simp only [Registers.get] at hget
        generalize after.registers.h = b, m.registers.h = c at hget
        revert b c
        decide
      rw [hs, hh, hrunning]
      simp
  refine ⟨?_, hstatus.2⟩
  exact {
    fits := by
      rw [hafter]
      exact MicroOp.fits_performAll hbound hfits
    input := fun value hvalue => by
      rw [hafter] at hvalue
      have hold := MicroOp.input_performAll hvalue
      rw [input_opened] at hold
      exact h.input value hold
    halted := hstatus.1
    open_ := by rw [hcontrol.2.1, phaseOpen_opened]
    size := by rw [hcontrol.2.2, memory_opened]
    phase := hf
    count := hsc
    instruction := fun hne =>
      hkeep .ir (fun op hop => (horderly op hop).2.1 (by rw [hf']; exact hne)) }

theorem not_halted_of_stop {why : Stop} (hrun : m.status = .running)
    (hsteps : m.opened.phaseSteps = .ok (steps, closing))
    (hops : MicroOp.performAll m.opened (Microcode.stepAt steps m.opened.registers.sc) =
      (after, events, some why)) : after.status ≠ .halted := by
  have hmem := Microcode.stepAt_mem (ne_nil_of_phaseSteps hsteps) m.opened.registers.sc
  by_cases hhalt : .halt ∈ Microcode.stepAt steps m.opened.registers.sc
  · rw [halt_mem_phaseSteps hsteps hmem hhalt, MicroOp.performAll_singleton] at hops
    cases hops
  · have hkept := MicroOp.status_performAll hhalt m.opened
    rw [hops, status_opened, hrun] at hkept
    rw [hkept]
    decide

theorem awaitsInput_of_performed (h : m.WellFormed) (hrun : m.status = .running)
    (hsteps : m.opened.phaseSteps = .ok (steps, closing))
    (hops : MicroOp.performAll m.opened (Microcode.stepAt steps m.opened.registers.sc) =
      (after, events, none)) : after.awaitsInput = false := by
  by_cases htake : .takeInput ∈ Microcode.stepAt steps m.opened.registers.sc
  · -- Input was taken, since nothing stopped.
    rw [(takeInput_mem_stepAt hsteps htake).2.2.1, MicroOp.performAll_singleton] at hops
    change MicroOp.performInput m.opened = _ at hops
    cases hin : m.opened.input with
    | none =>
      rw [MicroOp.performInput_of_none hin] at hops
      cases hops
    | some value =>
      rw [MicroOp.performInput_of_some hin] at hops
      cases hops
      rfl
  · have hkept := (MicroOp.waiting_performAll htake m.opened).2
    rw [hops, awaitsInput_opened] at hkept
    by_cases hwish : m.awaitsInput = true
    · -- The machine stands in front of an input instruction, which takes input.
      obtain ⟨hf, hsc, hopen, i, hd, hi⟩ := h.awaiting hrun hwish
      exfalso
      apply htake
      have hregs : m.opened.registers = m.registers := by
        rw [opened_eq]
        simp [hopen]
      unfold phaseSteps at hsteps
      rw [hregs, hf, hd] at hsteps
      simp only [hi, Except.ok.injEq, Prod.mk.injEq] at hsteps
      rw [← hsteps.1, hregs, hsc]
      exact List.mem_cons_self
    · rw [hkept]
      simpa using hwish

theorem Performed.modifiers (h : Performed m after) (hwell : m.WellFormed) :
    (after.registers.f = .indexed → Word.isIndexed after.registers.ir = true) ∧
      (after.registers.f = .indirect → Word.isIndirect after.registers.ir = true) := by
  constructor
  · intro hi
    have hm : m.registers.f = .indexed := h.phase.symm.trans hi
    rw [h.instruction (by rw [hm]; decide)]
    exact hwell.indexed hm
  · intro hi
    have hm : m.registers.f = .indirect := h.phase.symm.trans hi
    rw [h.instruction (by rw [hm]; decide)]
    exact hwell.indirect hm

theorem Performed.phaseLength (h : Performed m after) :
    after.phaseLength = m.phaseLength := by
  apply phaseLength_congr h.phase
  intro hexecute
  have hm : m.registers.f = .execute := h.phase.symm.trans hexecute
  exact h.instruction (by rw [hm]; decide)

theorem Performed.wellFormed (h : Performed m after) (hwell : m.WellFormed)
    (hcounted : after.status = .running → after.registers.sc < m.phaseLength)
    (hawaiting : after.status = .running → after.awaitsInput = true →
      after.registers.f = .execute ∧ after.registers.sc = 0 ∧ after.phaseOpen = true ∧
        ∃ i, Instruction.decode after.registers.ir = .ok i ∧ i.operation = .input) :
    after.WellFormed where
  fits := h.fits
  input := h.input
  halted := h.halted
  closed := fun hclosed => absurd (h.open_.symm.trans hclosed) (by decide)
  counted := fun hrun => h.phaseLength ▸ hcounted hrun
  indexed := (h.modifiers hwell).1
  indirect := (h.modifiers hwell).2
  awaiting := hawaiting

theorem phaseLength_opened (m : Machine) : m.opened.phaseLength = m.phaseLength := by
  rw [opened_eq]
  rfl

theorem performed_opened (h : m.WellFormed) : Performed m m.opened where
  fits := fits_opened h.fits
  input := by rw [input_opened]; exact h.input
  halted := by
    rw [status_opened, ← h.halted, opened_eq]
  open_ := phaseOpen_opened m
  size := by rw [memory_opened]
  phase := by rw [opened_eq]
  count := by rw [opened_eq]
  instruction := fun _ => by rw [opened_eq]

theorem Performed.wellFormed_fail (h : Performed m after) (hwell : m.WellFormed)
    (hnot : after.status ≠ .halted) (cause : Fault) (events : List Event)
    (reports : List MachineReport) : (after.fail cause events reports).machine.WellFormed := by
  have hh : ¬after.registers.h = true := fun hset => hnot (h.halted.1 hset)
  have hperformed : Performed m { after with status := .faulted } :=
    { h with halted := by simp [hh] }
  exact hperformed.wellFormed hwell (by simp) (by simp)

theorem Performed.wellFormed_count (h : Performed m after) (hwell : m.WellFormed)
    (hawaits : after.awaitsInput = false) (hsteps : m.opened.phaseSteps = .ok (steps, closing))
    (hmore : m.registers.sc + 1 < steps.length) :
    (after.setRegister .sc (m.registers.sc + 1)).WellFormed := by
  rw [length_phaseSteps hsteps, phaseLength_opened] at hmore
  have hle := m.phaseLength_le_four
  have hsc : (after.setRegister .sc (m.registers.sc + 1)).registers.sc = m.registers.sc + 1 := by
    simp only [registers_setRegister, Registers.set]
    omega
  have hlimit : m.registers.sc + 1 < Register.sc.limit := by
    simp only [Register.limit]
    omega
  have hlength : (after.setRegister .sc (m.registers.sc + 1)).phaseLength = m.phaseLength :=
    h.phaseLength
  exact {
    fits := h.fits.set hlimit
    input := h.input
    halted := h.halted
    closed := fun hclosed => absurd (h.open_.symm.trans hclosed) (by decide)
    counted := fun _ => by rw [hsc, hlength]; exact hmore
    indexed := (h.modifiers hwell).1
    indirect := (h.modifiers hwell).2
    awaiting := fun _ hwish => absurd (hawaits.symm.trans hwish) (by decide) }

theorem nextPhase_allowed (hsteps : m.phaseSteps = .ok (steps, closing)) (ir : Nat) :
    (nextPhase ir closing = .indexed → Word.isIndexed ir = true) ∧
      (nextPhase ir closing = .indirect → Word.isIndirect ir = true) := by
  unfold nextPhase
  obtain ⟨-, -, rfl⟩ | ⟨-, -, rfl⟩ | ⟨-, -, rfl⟩ | ⟨i, -, -, -, rfl⟩ := phaseSteps_eq_ok hsteps
  · cases Word.isIndexed ir <;> cases Word.isIndirect ir <;> simp
  · cases Word.isIndirect ir <;> simp
  · simp
  · simp

theorem Performed.wellFormed_close (h : Performed m after)
    (hawaits : after.awaitsInput = false) (hsteps : m.opened.phaseSteps = .ok (steps, closing)) :
    (after.close closing).1.WellFormed := by
  have hallowed := nextPhase_allowed hsteps after.registers.ir
  have hentered : (after.entered (nextPhase after.registers.ir closing)).WellFormed := {
    fits := fits_entered h.fits _
    input := h.input
    halted := h.halted
    closed := fun _ => rfl
    counted := fun _ => phaseLength_pos _
    indexed := hallowed.1
    indirect := hallowed.2
    awaiting := fun _ hwish => absurd (hawaits.symm.trans hwish) (by decide) }
  rw [close_machine]
  split
  · next hclosing =>
    subst hclosing
    have hfits := fits_updateFlags hentered.fits
    rw [updateFlags_machine] at hfits ⊢
    exact { hentered with fits := hfits }
  · exact hentered

end

/-! ## A whole micro-step -/

/-- A micro-step keeps a machine well formed, and the size of its memory. -/
theorem wellFormed_microStep {m : Machine} (h : m.WellFormed) :
    m.microStep.machine.WellFormed ∧ m.microStep.machine.memory.size = m.memory.size := by
  by_cases hrun : m.status = .running
  · have hsc : m.opened.registers.sc = m.registers.sc := by rw [opened_eq]
    have hstepped := stepped_microStep hrun
    generalize m.microStep = act at hstepped
    cases hstepped with
    | undecodable hsteps =>
      have hnot : m.opened.status ≠ .halted := by rw [status_opened, hrun]; decide
      have hp := performed_opened h
      exact ⟨hp.wellFormed_fail h hnot _ _ _, hp.size⟩
    | awaits hsteps hops =>
      have hp := (performed_stepAt h hrun hsteps hops).1
      obtain ⟨hf, hzero, -, i, hd, hi⟩ :=
        takeInput_mem_stepAt hsteps (MicroOp.takeInput_mem_of_awaits hops)
      rw [hsc] at hzero
      have hm : m.registers.f = .execute := by rw [← hf, opened_eq]
      have hir : m.opened.registers.ir = m.registers.ir := by rw [opened_eq]
      refine ⟨hp.wellFormed h (fun _ => ?_) (fun _ _ => ?_), hp.size⟩
      · rw [hp.count]
        exact h.counted hrun
      · refine ⟨hp.phase.trans hm, hp.count.trans hzero, hp.open_, i, ?_, hi⟩
        rw [hp.instruction (by rw [hm]; decide), ← hir]
        exact hd
    | faults hsteps hops =>
      have hp := (performed_stepAt h hrun hsteps hops).1
      have hnot := not_halted_of_stop hrun hsteps hops
      exact ⟨hp.wellFormed_fail h hnot _ _ _, hp.size⟩
    | halts hsteps hops hhalted =>
      have hp := (performed_stepAt h hrun hsteps hops).1
      exact ⟨hp.wellFormed h (by simp [hhalted]) (by simp [hhalted]), hp.size⟩
    | counts hsteps hops hnot hmore =>
      have hp := (performed_stepAt h hrun hsteps hops).1
      have hawaits := awaitsInput_of_performed h hrun hsteps hops
      rw [hsc] at hmore
      rw [count_machine, hsc]
      exact ⟨hp.wellFormed_count h hawaits hsteps hmore, hp.size⟩
    | closes hsteps hops hnot hlast =>
      have hp := (performed_stepAt h hrun hsteps hops).1
      have hawaits := awaitsInput_of_performed h hrun hsteps hops
      refine ⟨hp.wellFormed_close hawaits hsteps, ?_⟩
      rw [close_machine]
      split
      · rw [updateFlags_machine]
        exact hp.size
      · exact hp.size
  · rw [microStep_of_not_running hrun]
    exact ⟨h, rfl⟩

/-! ## Whatever is asked of a machine -/

/-- What can be asked of a machine. -/
inductive Request
  | microStep
  | stepPhase
  | stepInstruction
  | runLimited (phases : Nat)
  | supply (value : Nat)
  | reset
  | load (memory : Memory)

/-- The machine after it has done what is asked. -/
def serve (m : Machine) : Request → Machine
  | .microStep => m.microStep.machine
  | .stepPhase => m.stepPhase.machine
  | .stepInstruction => m.stepInstruction.machine
  | .runLimited phases => (m.runLimited phases).machine
  | .supply value => m.supply value
  | .reset => m.reset
  | .load memory => { m with memory }.reset

def serveAll (m : Machine) (requests : List Request) : Machine := requests.foldl serve m

/-- The number of cells after a request: loading alone changes it. -/
def Request.resized (size : Nat) : Request → Nat
  | .load memory => memory.size
  | _ => size

theorem wellFormed_supply {m : Machine} (h : m.WellFormed) (value : Nat) :
    (m.supply value).WellFormed := by
  have hlt : Word.significant value < 2 ^ 20 := Nat.mod_lt _ (by decide)
  exact { h with
    input := fun taken htaken => by
      have heq : Word.significant value = taken := Option.some.inj htaken
      rw [← heq]
      exact hlt
    counted := h.counted }

theorem wellFormed_runUntil {m : Machine} (h : m.WellFormed) (done : Machine → Bool)
    (fuel : Nat) :
    (m.runUntil done fuel).machine.WellFormed ∧
      (m.runUntil done fuel).machine.memory.size = m.memory.size := by
  apply runUntil_keeps (P := fun n => n.WellFormed ∧ n.memory.size = m.memory.size)
  · intro n hn
    have hstep := wellFormed_microStep hn.1
    exact ⟨hstep.1, hstep.2.trans hn.2⟩
  · exact ⟨h, rfl⟩

theorem wellFormed_runLimited {m : Machine} (h : m.WellFormed) (phases : Nat) :
    (m.runLimited phases).machine.WellFormed ∧
      (m.runLimited phases).machine.memory.size = m.memory.size := by
  simp only [runLimited]
  split
  · exact ⟨h, rfl⟩
  · exact wellFormed_runUntil h _ _

theorem wellFormed_serve {m : Machine} (h : m.WellFormed) (request : Request) :
    (m.serve request).WellFormed ∧
      (m.serve request).memory.size = request.resized m.memory.size := by
  cases request with
  | microStep => exact wellFormed_microStep h
  | stepPhase | stepInstruction => exact wellFormed_runUntil h _ _
  | runLimited phases => exact wellFormed_runLimited h phases
  | supply value => exact ⟨wellFormed_supply h value, rfl⟩
  | reset => exact ⟨wellFormed_ofMemory m.memory, rfl⟩
  | load memory => exact ⟨wellFormed_ofMemory memory, rfl⟩

theorem wellFormed_serveAll {m : Machine} (h : m.WellFormed) (requests : List Request) :
    (m.serveAll requests).WellFormed ∧
      (m.serveAll requests).memory.size = requests.foldl Request.resized m.memory.size := by
  induction requests generalizing m with
  | nil => exact ⟨h, rfl⟩
  | cons request rest ih =>
    have hserve := wellFormed_serve h request
    have hrest := ih hserve.1
    rw [hserve.2] at hrest
    exact hrest

/-- There is room for all that is added up in a machine: the program counter, the accumulator, the
stack pointer, the indexed address and the step counter, which counts only inside a phase. -/
structure Roomy (m : Machine) : Prop where
  pc : m.registers.pc + 1 < 2 ^ 16
  a : m.registers.a + 1 < 2 ^ 32
  sp : m.registers.sp + 1 < 2 ^ 16
  indexed : m.registers.operand + m.registers.i < 2 ^ 16
  sc : m.registers.sc + 1 < 2 ^ 8
  counted : ∀ steps closing, m.status = .running → m.phaseSteps = .ok (steps, closing) →
    m.registers.sc + 1 < steps.length → (m.registers.sc + 1) % 4 = m.registers.sc + 1

theorem WellFormed.roomy {m : Machine} (h : m.WellFormed) : m.Roomy := by
  have hpc : m.registers.pc < 2 ^ 13 := h.fits .pc
  have ha : m.registers.a < 2 ^ 20 := h.fits .a
  have hsp : m.registers.sp < 2 ^ 13 := h.fits .sp
  have hsc : m.registers.sc < 4 := h.fits .sc
  have hindexed := h.fits.indexedOperand_lt
  simp only [Register.limit] at hindexed
  refine ⟨by omega, by omega, by omega, by omega, by omega, ?_⟩
  intro steps closing hrun hsteps hmore
  rw [length_phaseSteps hsteps] at hmore
  have hle := m.phaseLength_le_four
  omega

/-- Whatever is asked of a machine that starts from a memory, it stays well formed, its memory keeps
the size of the one loaded last, and no sum overflows. -/
theorem reachable_wellFormed (memory : Memory) (requests : List Request) :
    ((ofMemory memory).serveAll requests).WellFormed ∧
      ((ofMemory memory).serveAll requests).memory.size =
        requests.foldl Request.resized memory.size ∧
      ((ofMemory memory).serveAll requests).Roomy := by
  have h := wellFormed_serveAll (wellFormed_ofMemory memory) requests
  exact ⟨h.1, h.2, h.1.roomy⟩

end Machine

end TrnComputer
