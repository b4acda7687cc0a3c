import TrnComputer.Proofs.Machine.Progress
import TrnComputer.Proofs.Machine.Segments

/-! # Instructions underway

A value for an input may be supplied between any two micro-steps, also inside an instruction.

* `Machine.microStep_withInput`: a micro-step that asks for no input is the same whatever has been
  supplied.
* `Machine.EndsIn`: where the run of an instruction ends.
* `Machine.Underway`: wherever the run of an instruction ends, with whatever input, a step of the
  state that it began with ends too.
* `Machine.underway_start`, `Underway.supply`, `Underway.microStep`: an instruction is underway from
  its first micro-step to its last, whatever is supplied meanwhile.
-/

namespace TrnComputer
set_option autoImplicit false

/-- The state with another value supplied, or none. -/
def Visible.withInput (t : Visible) (input : Option Nat) : Visible := { t with input }

/-- The machine with another value supplied, or none. -/
def Machine.withInput (m : Machine) (input : Option Nat) : Machine := { m with input }

/-! ## Micro-steps that ask for no input -/

namespace MicroOp

theorem perform_withInput {op : MicroOp} (h : op ≠ .takeInput) (m : Machine) (i : Option Nat) :
    perform (m.withInput i) op = ((perform m op).1.withInput i, (perform m op).2) := by
  cases op with
  | observe | transfer | shiftPair | watch | forgetOverflow | output | halt => rfl
  | readCell =>
    change performRead (m.withInput i) = ((performRead m).1.withInput i, (performRead m).2)
    cases hcell : m.memory.get? m.registers.ar with
    | none =>
      have hcell' : (m.withInput i).memory.get? (m.withInput i).registers.ar = none := hcell
      rw [performRead_of_none hcell, performRead_of_none hcell']
      rfl
    | some value =>
      have hcell' : (m.withInput i).memory.get? (m.withInput i).registers.ar = some value := hcell
      rw [performRead_of_some hcell, performRead_of_some hcell']
      rfl
  | writeCell =>
    change performWrite (m.withInput i) = ((performWrite m).1.withInput i, (performWrite m).2)
    rcases Nat.lt_or_ge m.registers.ar m.memory.size with hlt | hle
    · have hlt' : (m.withInput i).registers.ar < (m.withInput i).memory.size := hlt
      rw [performWrite_of_lt hlt, performWrite_of_lt hlt']
      rfl
    · have hle' : (m.withInput i).memory.size ≤ (m.withInput i).registers.ar := hle
      rw [performWrite_of_le hle, performWrite_of_le hle']
      rfl
  | takeInput => exact absurd rfl h

theorem performAll_withInput {ops : List MicroOp} (h : .takeInput ∉ ops) (m : Machine)
    (i : Option Nat) :
    performAll (m.withInput i) ops = ((performAll m ops).1.withInput i, (performAll m ops).2) := by
  induction ops generalizing m with
  | nil => rfl
  | cons op ops ih =>
    have hop := perform_withInput (fun he => h (he ▸ List.mem_cons_self)) m i
    have hrest := ih fun hmem => h (List.mem_cons_of_mem op hmem)
    rw [performAll_cons, performAll_cons, hop]
    obtain ⟨n, events, stop⟩ := perform m op
    cases stop with
    | some stop => rfl
    | none => simp only [hrest n]

end MicroOp

namespace Machine

/-- The next micro-step takes an input, or waits for it. -/
def Asks (m : Machine) : Prop :=
  m.registers.f = .execute ∧ m.registers.sc = 0 ∧
    ∃ i, Instruction.decode m.registers.ir = .ok i ∧ i.operation = .input

section
variable {m : Machine}

theorem aside_withInput (i : Option Nat) : Aside (·.withInput i) :=
  ⟨fun _ => rfl, fun _ => rfl, fun _ => rfl, fun _ _ _ => rfl⟩

theorem opened_withInput (m : Machine) (i : Option Nat) :
    (m.withInput i).opened = m.opened.withInput i :=
  congrArg Prod.fst ((aside_withInput i).openPhase m)

theorem asks_of_takeInput {steps : List (List MicroOp)} {closing : Closing}
    (hsteps : m.opened.phaseSteps = .ok (steps, closing))
    (htake : .takeInput ∈ Microcode.stepAt steps m.opened.registers.sc) : m.Asks := by
  obtain ⟨hf, hsc, -, i, hd, hi⟩ := takeInput_mem_stepAt hsteps htake
  rw [opened_eq] at hf hsc hd
  exact ⟨hf, hsc, i, hd, hi⟩

/-- A micro-step that asks for no input is the same whatever has been supplied. -/
theorem microStep_withInput (h : m.status = .running → ¬m.Asks) (i : Option Nat) :
    (m.withInput i).microStep =
      { m.microStep with machine := m.microStep.machine.withInput i } := by
  by_cases hrun : m.status = .running
  · have hrun' : (m.withInput i).status = .running := hrun
    have hopening : (m.withInput i).openPhase.2 = m.openPhase.2 := by
      rw [(aside_withInput i).openPhase m]
    have hphase : (m.opened.withInput i).phaseSteps = m.opened.phaseSteps := rfl
    rw [microStep_of_running hrun, microStep_of_running hrun', opened_withInput, hopening, hphase]
    cases hsteps : m.opened.phaseSteps with
    | error e => rfl
    | ok found =>
      obtain ⟨steps, closing⟩ := found
      have hops := MicroOp.performAll_withInput
        (fun hmem => h hrun (asks_of_takeInput hsteps hmem)) m.opened i
      have hsc : (m.opened.withInput i).registers.sc = m.opened.registers.sc := rfl
      have hreports : (m.opened.withInput i).beginReports = m.opened.beginReports := rfl
      simp only [stepPhaseOpen, hsc, hops, hreports]
      obtain ⟨after, events, stop⟩ :=
        MicroOp.performAll m.opened (Microcode.stepAt steps m.opened.registers.sc)
      cases stop with
      | some why => cases why <;> rfl
      | none =>
        have hstatus : (after.withInput i).status = after.status := rfl
        simp only [hstatus]
        split
        · rfl
        · rw [(aside_withInput i).count, (aside_withInput i).close]
          split <;> rfl
  · have hrun' : (m.withInput i).status ≠ .running := hrun
    rw [microStep_of_not_running hrun, microStep_of_not_running hrun']
    rfl

/-- A machine that goes on without asking for input has proceeded. -/
theorem proceeds_of_not_asks (hrun : m.status = .running) (h : ¬m.Asks)
    (hnext : m.microStep.machine.status = .running) : m.microStep.result = .ok .proceeds := by
  have hstepped := stepped_microStep hrun
  generalize m.microStep = act at hnext hstepped ⊢
  cases hstepped with
  | undecodable | faults => cases hnext
  | awaits hsteps hops =>
    exact absurd (asks_of_takeInput hsteps (MicroOp.takeInput_mem_of_awaits hops)) h
  | halts hsteps hops hhalted =>
    rw [hhalted] at hnext
    cases hnext
  | counts | closes => rfl

end

/-! ## Micro-steps that ask for input -/

section
variable {m : Machine}

/-- The machine after a value from outside is taken. -/
def loaded (m : Machine) (value : Nat) : Machine :=
  { m.opened with
    input := none
    awaitsInput := false
    registers := { m.opened.registers with br := value % 2 ^ 20, sc := 1 } }

theorem phaseSteps_of_asks (h : m.Asks) :
    m.opened.phaseSteps =
      .ok (Microcode.execute m.opened.registers .input, .nextInstruction true) := by
  obtain ⟨hf, -, i, hd, hi⟩ := h
  have hf' : m.opened.registers.f = .execute := by
    rw [opened_eq]
    exact hf
  have hd' : Instruction.decode m.opened.registers.ir = .ok i := by
    rw [opened_eq]
    exact hd
  rw [phaseSteps, hf', hd']
  simp only [hi]
  rfl

/-- The machine after it has asked for a value. -/
def asked (m : Machine) : Machine := { m.opened with awaitsInput := true }

@[simp] theorem status_asked (m : Machine) : m.asked.status = m.status := m.status_opened

@[simp] theorem input_asked (m : Machine) : m.asked.input = m.input := m.input_opened

@[simp] theorem phaseOpen_asked (m : Machine) : m.asked.phaseOpen = true := m.phaseOpen_opened

theorem Asks.asked (h : m.Asks) : m.asked.Asks := by
  rw [Machine.asked, opened_eq]
  exact h

/-- What is told when a value from outside is taken. -/
def loadedEvents (m : Machine) (value : Nat) : List Event :=
  m.opened.movedEvents .br .load .input (value % 2 ^ 20) ++ [.register .sc 1 .inPlace]

theorem microStep_of_asks_some (hrun : m.status = .running) (h : m.Asks) {value : Nat}
    (hinput : m.input = some value) :
    m.microStep =
      ⟨m.loaded value, .ok .proceeds, m.openPhase.2 ++ m.loadedEvents value,
        m.opened.beginReports⟩ := by
  have hsc : m.opened.registers.sc = 0 := by
    rw [opened_eq]
    exact h.2.1
  have hops : MicroOp.performAll m.opened
      (Microcode.stepAt (Microcode.execute m.opened.registers .input) m.opened.registers.sc) =
        ({ m.opened with input := none, awaitsInput := false }.setRegister .br (value % 2 ^ 20),
          m.opened.movedEvents .br .load .input (value % 2 ^ 20), none) := by
    rw [hsc]
    exact (MicroOp.performAll_singleton _ .takeInput).trans
      (MicroOp.performInput_of_some ((input_opened m).trans hinput))
  have hnot : m.opened.status ≠ .halted := by
    rw [status_opened, hrun]
    decide
  have hmore : m.opened.registers.sc + 1 <
      (Microcode.execute m.opened.registers .input).length := by
    rw [hsc, Microcode.length_execute]
    decide
  have hcount : ({ m.opened with input := none, awaitsInput := false }.setRegister .br
      (value % 2 ^ 20)).count 1 = (m.loaded value, [.register .sc 1 .inPlace]) := by
    simp [count, setRegister, Registers.set, hsc, loaded]
  rw [microStep_of_running hrun, phaseSteps_of_asks h]
  simp only [stepPhaseOpen_of_counts hops hnot hmore, hsc, Nat.zero_add, hcount, loadedEvents,
    List.append_assoc]

theorem microStep_of_asks_none (hrun : m.status = .running) (h : m.Asks) (hinput : m.input = none) :
    m.microStep =
      ⟨m.asked, .ok .awaitsInput,
        m.openPhase.2 ++ if m.awaitsInput then [] else [.inputRequested],
        m.opened.beginReports⟩ := by
  have hops : MicroOp.performAll m.opened [.takeInput] = _ :=
    (MicroOp.performAll_singleton _ _).trans
      (MicroOp.performInput_of_none ((input_opened m).trans hinput))
  have hsc : m.opened.registers.sc = 0 := by
    rw [opened_eq]
    exact h.2.1
  have hat : Microcode.stepAt (Microcode.execute m.opened.registers .input) 0 = [.takeInput] := rfl
  rw [microStep_of_running hrun, phaseSteps_of_asks h]
  simp only [stepPhaseOpen, hsc, hat, hops, awaitsInput_opened, asked]

/-- The micro-step after a value is taken is the last of its instruction. -/
theorem microStep_loaded (hrun : m.status = .running) (h : m.Asks) (value : Nat) :
    (m.loaded value).microStep.result = .ok .proceeds ∧
      (m.loaded value).microStep.machine.atInstruction = true ∧ ¬(m.loaded value).Asks := by
  have hrun' : (m.loaded value).status = .running := (status_opened m).trans hrun
  have hopened : (m.loaded value).opened = m.loaded value := opened_of_open (phaseOpen_opened m)
  have hsteps : (m.loaded value).opened.phaseSteps =
      .ok (Microcode.execute m.opened.registers .input, .nextInstruction true) := by
    rw [hopened]
    exact phaseSteps_congr (phaseSteps_of_asks h)
      (by rw [Microcode.length_execute]; decide) rfl fun _ => rfl
  have hleft : (Microcode.execute m.opened.registers .input).drop (m.loaded value).registers.sc =
      Microcode.copy .br .a :: [] := rfl
  obtain ⟨hresult, -, hmachine⟩ := microStep_of_go hrun' hsteps hleft (by decide) rfl
  refine ⟨hresult, ?_, fun hasks => ?_⟩
  · rw [hmachine, if_pos rfl, close_machine, if_pos rfl, updateFlags_machine]
    rfl
  · cases hasks.2.1

end

/-! ## Runs of instructions -/

/-- The run of an instruction from `n` ends in `k`. -/
def EndsIn (n k : Machine) : Prop :=
  ∃ least, ∀ fuel, ∃ out, (n.runUntil atInstruction (fuel + least)).outcome = some (k, out)

section
variable {n k l : Machine}

theorem Passes.endsIn {count : Nat} (h : n.Passes l count) (hk : n.EndsIn k) : l.EndsIn k := by
  obtain ⟨earlier, hearlier⟩ := h
  obtain ⟨least, hleast⟩ := hk
  refine ⟨least, fun fuel => ?_⟩
  obtain ⟨out, hout⟩ := hleast (fuel + count)
  have hfuel : fuel + count + least = fuel + least + count := by omega
  rw [hfuel, hearlier] at hout
  generalize l.runUntil atInstruction (fuel + least) = later at hout ⊢
  obtain ⟨machine, result, events, reports⟩ := later
  cases result with
  | error e => cases hout
  | ok tick =>
    cases tick with
    | awaitsInput => cases hout
    | proceeds | halted =>
      cases hout
      exact ⟨_, rfl⟩

theorem CutShort.not_endsIn {why : Stop} {t : Visible} {count : Nat}
    (h : n.CutShort why t count) : ¬n.EndsIn k := by
  intro ⟨least, hleast⟩
  obtain ⟨out, hout⟩ := hleast count
  have hcut := (h least).1
  rw [Nat.add_comm, Activity.outcome, hcut] at hout
  cases why with
  | awaitsInput | fault => cases hout

theorem EndsIn.before (hresult : n.microStep.result = .ok .proceeds)
    (hinside : atInstruction n.microStep.machine = false) (h : n.microStep.machine.EndsIn k) :
    n.EndsIn k := by
  obtain ⟨least, hleast⟩ := h
  refine ⟨least + 1, fun fuel => ?_⟩
  obtain ⟨out, hout⟩ := hleast fuel
  rw [← Nat.add_assoc, outcome_runUntil _ _ hresult, outcomeFrom, hinside,
    if_neg Bool.false_ne_true, hout]
  exact ⟨_, rfl⟩

theorem endsIn_of_boundary (hresult : n.microStep.result = .ok .proceeds)
    (hat : atInstruction n.microStep.machine = true) : n.EndsIn n.microStep.machine := by
  refine ⟨1, fun fuel => ?_⟩
  rw [outcome_runUntil _ _ hresult, outcomeFrom, if_pos hat]
  exact ⟨_, rfl⟩

theorem EndsIn.eq_of_boundary (hresult : n.microStep.result = .ok .proceeds)
    (hat : atInstruction n.microStep.machine = true) (h : n.EndsIn k) :
    k = n.microStep.machine := by
  obtain ⟨least, hleast⟩ := h
  obtain ⟨out, hout⟩ := hleast 1
  rw [Nat.add_comm, outcome_runUntil _ _ hresult, outcomeFrom, if_pos hat] at hout
  cases hout
  rfl

end

/-! ## Instructions underway -/

/-- Wherever the run of an instruction from `n` ends, with whatever input, a step of `start` ends
too. -/
def Underway (start : Visible) (n : Machine) : Prop :=
  ∀ i k, (n.withInput i).EndsIn k →
    ∃ j l out, (start.withInput j).step = some (k.visible.withInput l, out)

section
variable {m n : Machine} {start : Visible}

/-- The run of an instruction ends in a step. -/
theorem step_of_endsIn {k : Machine} (h : m.AtInstruction) (hk : m.EndsIn k) :
    ∃ out, m.visible.step = some (k.visible, out) := by
  by_cases hword : m.visible.pc < m.visible.memory.size
  · by_cases hindirect : Word.isIndirect m.visible.word = true →
        m.visible.address < m.visible.memory.size
    · obtain ⟨l, count, -, hpasses, hready⟩ := passes_readable h ⟨hword, hindirect⟩
      obtain ⟨least, hleast⟩ := hpasses.endsIn hk
      obtain ⟨out, hout⟩ := hleast 4
      have hagrees := (agrees_execute least hready).1
      rw [Nat.add_comm, hout] at hagrees
      rw [Visible.step_of_readable ⟨hword, hindirect⟩]
      exact ⟨out, hagrees.symm⟩
    · obtain ⟨hbit, haddress⟩ := Classical.not_imp.mp hindirect
      exact absurd hk (cutShort_address h hword hbit (Nat.le_of_not_lt haddress)).not_endsIn
  · exact absurd hk (cutShort_fetch h (Nat.le_of_not_lt hword)).not_endsIn

theorem underway_start (h : m.AtInstruction) : Underway m.visible m := by
  intro i k hk
  have hinput : (m.withInput i).AtInstruction :=
    ⟨h.running, h.closed, h.fetching, h.counted, h.fits⟩
  obtain ⟨out, hstep⟩ := step_of_endsIn hinput hk
  exact ⟨i, k.input, out, hstep⟩

theorem Underway.supply (h : Underway start n) (value : Nat) : Underway start (n.supply value) := h

/-- An instruction that ends is a step. -/
theorem Underway.completes (h : Underway start n) (hresult : n.microStep.result = .ok .proceeds)
    (hat : atInstruction n.microStep.machine = true) :
    ∃ j l out, (start.withInput j).step = some (n.microStep.machine.visible.withInput l, out) :=
  h n.input _ (endsIn_of_boundary hresult hat)

/-- A micro-step that asks for no input brings an instruction on. -/
theorem Underway.goOn (h : Underway start n) (hasks : ¬n.Asks)
    (hresult : n.microStep.result = .ok .proceeds)
    (hinside : atInstruction n.microStep.machine = false) : Underway start n.microStep.machine := by
  intro i k hk
  have hsame := microStep_withInput (fun _ => hasks) i
  refine h i k (EndsIn.before ?_ ?_ ?_) <;> rw [hsame]
  · exact hresult
  · exact hinside
  · exact hk

/-- Once the value is taken, it does not matter what is supplied. -/
theorem Underway.load (h : Underway start n) (hrun : n.status = .running) (hasks : n.Asks)
    {value : Nat} (hinput : n.input = some value) : Underway start (n.loaded value) := by
  have hload := microStep_of_asks_some hrun hasks hinput
  have hmachine := congrArg Activity.machine hload
  obtain ⟨hlast, hat, hloaded⟩ := microStep_loaded hrun hasks value
  have hends : n.EndsIn (n.loaded value).microStep.machine := by
    apply EndsIn.before (congrArg Activity.result hload)
    · rw [hmachine]
      exact atInstruction_of_open (phaseOpen_opened n)
    · rw [hmachine]
      exact endsIn_of_boundary hlast hat
  obtain ⟨j, l, out, hstep⟩ := h n.input _ hends
  -- The micro-step that is left neither looks at the supply nor changes it.
  intro i k hk
  have hsame := microStep_withInput (fun _ => hloaded) i
  rw [hk.eq_of_boundary (by rw [hsame]; exact hlast) (by rw [hsame]; exact hat), hsame]
  exact ⟨j, l, out, hstep⟩

theorem loaded_asked (n : Machine) (i : Option Nat) (value : Nat) :
    (n.asked.withInput i).loaded value = (n.withInput i).loaded value := by
  have hopen : (n.asked.withInput i).phaseOpen = true := phaseOpen_asked n
  rw [loaded, loaded, opened_of_open hopen, opened_withInput]
  rfl

/-- A machine that has begun to wait for a value ends where it does if the value is there. -/
theorem Underway.wait (h : Underway start n) (hrun : n.status = .running) (hasks : n.Asks) :
    Underway start n.asked := by
  intro i k hk
  have hrun' : (n.asked.withInput i).status = .running := (status_asked n).trans hrun
  have hasks' : (n.asked.withInput i).Asks := hasks.asked
  cases i with
  | none =>
    have hwaits := microStep_of_asks_none hrun' hasks' rfl
    have hcut : CutShort _ .awaitsInput _ 1 :=
      cutShort_microStep (congrArg Activity.result hwaits) rfl
    exact absurd hk hcut.not_endsIn
  | some value =>
    have hload := microStep_of_asks_some hrun' hasks' rfl
    have hload' := microStep_of_asks_some (m := n.withInput (some value)) hrun hasks rfl
    rw [loaded_asked] at hload
    have hmachine : _ = (n.withInput (some value)).loaded value := congrArg Activity.machine hload
    have hmachine' : _ = (n.withInput (some value)).loaded value := congrArg Activity.machine hload'
    have hinside : atInstruction ((n.withInput (some value)).loaded value) = false :=
      atInstruction_of_open (phaseOpen_opened _)
    have hloaded : ((n.withInput (some value)).loaded value).EndsIn k := by
      rw [← hmachine] at hinside ⊢
      exact (passes_microStep (congrArg Activity.result hload) hinside).endsIn hk
    rw [← hmachine'] at hinside hloaded
    exact h (some value) k (hloaded.before (congrArg Activity.result hload') hinside)

/-- An instruction is underway from its first micro-step to its last. -/
theorem Underway.microStep (h : Underway start n) (hrun : n.status = .running)
    (hnext : n.microStep.machine.status = .running)
    (hinside : atInstruction n.microStep.machine = false) : Underway start n.microStep.machine := by
  by_cases hasks : n.Asks
  · cases hinput : n.input with
    | none =>
      rw [microStep_of_asks_none hrun hasks hinput]
      exact h.wait hrun hasks
    | some value =>
      rw [microStep_of_asks_some hrun hasks hinput]
      exact h.load hrun hasks hinput
  · exact h.goOn hasks (proceeds_of_not_asks hrun hasks hnext) hinside

end

end Machine

end TrnComputer
