import TrnComputer.Proofs.Machine.Chronicle
import TrnComputer.Proofs.Machine.Fetched

/-! # Instructions that are carried out

The machine reports `execute` at the first micro-step of EXECUTE. An instruction that finds no value
there tries again, and reports again whenever it does.

* `Execution`: an instruction that reaches EXECUTE, with the report that is due to it.
* `executions`: those on a way, which is given by the machines in front of its micro-steps.
* `Machine.Trail`: a way on which values are supplied and the machine is set up anew.
* `Settled.executes_microStep`: when a micro-step reports `execute`.
* `Trail.executesOn_eq`: the reports on a way are those of its executions, each once and once more
  for every further try.
* `Recounts`: the same of the records that are made of the reports.
-/

namespace TrnComputer
set_option autoImplicit false

/-! ## Executions -/

/-- An instruction that has reached EXECUTE. -/
structure Execution where
  /-- What programs saw in front of the instruction. -/
  start : Visible
  /-- The number of its EXECUTE phase. -/
  clock : Nat
  /-- How often it has tried again to get a value. -/
  retries : Nat

/-- The report due to an execution: the PC that follows that of the instruction, and the word that
programs saw there. -/
def Execution.report (e : Execution) : MachineReport :=
  .execute e.clock ((e.start.pc + 1) % 2 ^ 13) e.start.word

namespace Machine

/-- The next micro-step begins EXECUTE with an instruction. -/
def beginsExecution (m : Machine) : Bool :=
  m.status = .running && m.atBoundary && m.registers.f = .execute &&
    (Instruction.decode m.registers.ir).isOk

/-- With the next micro-step an instruction that has waited for a value looks again. -/
def triesAgain (m : Machine) : Bool := m.status = .running && m.phaseOpen && m.awaitsInput

end Machine

/-- The tries before the next execution begins. -/
def retries (steps : List Machine) : Nat :=
  (steps.takeWhile (!·.beginsExecution)).countP Machine.triesAgain

/-- The executions on a way, which is given by the machines in front of its micro-steps. If it
begins inside an instruction, programs saw `start` in front of that. -/
def executions (start : Visible) : List Machine → List Execution
  | [] => []
  | m :: rest =>
    let start := if m.atInstruction then m.visible else start
    if m.beginsExecution then
      ⟨start, m.registers.clock + 1, retries rest⟩ :: executions start rest
    else executions start rest

section
variable {m : Machine}

theorem retries_of_begins (h : m.beginsExecution = true) (rest : List Machine) :
    retries (m :: rest) = 0 := by
  simp [retries, h]

theorem retries_of_tries (h : m.beginsExecution = false) (hagain : m.triesAgain = true)
    (rest : List Machine) : retries (m :: rest) = retries rest + 1 := by
  simp [retries, h, hagain]

theorem retries_of_not (h : m.beginsExecution = false) (hagain : m.triesAgain = false)
    (rest : List Machine) : retries (m :: rest) = retries rest := by
  simp [retries, h, hagain]

theorem not_triesAgain_of_begins (h : m.beginsExecution = true) : m.triesAgain = false := by
  simp only [Machine.beginsExecution, Machine.atBoundary, Bool.and_eq_true] at h
  simp_all [Machine.triesAgain]

/-- Every try belongs to an execution, or to the one that was under way at the beginning. -/
theorem never_triesAgain_iff (start : Visible) (steps : List Machine) :
    (∀ m ∈ steps, m.triesAgain = false) ↔
      retries steps = 0 ∧ ∀ e ∈ executions start steps, e.retries = 0 := by
  induction steps generalizing start with
  | nil => simp [retries, executions]
  | cons m rest ih =>
    rw [List.forall_mem_cons, ih (if m.atInstruction then m.visible else start)]
    simp only [executions]
    cases hbegins : m.beginsExecution with
    | true => simp [not_triesAgain_of_begins hbegins, retries_of_begins hbegins]
    | false =>
      cases hagain : m.triesAgain with
      | true => simp [retries_of_tries hbegins hagain]
      | false => simp [retries_of_not hbegins hagain]

end

/-! ## Reports -/

def MachineReport.isExecute : MachineReport → Bool
  | .execute .. => true
  | .halted .. | .stopped .. => false

/-- The reports that instructions are carried out. -/
def executes (reports : List MachineReport) : List MachineReport :=
  reports.filter MachineReport.isExecute

@[simp] theorem executes_append (reports more : List MachineReport) :
    executes (reports ++ more) = executes reports ++ executes more :=
  List.filter_append _ _

namespace Machine

/-- What is reported of the instruction that a machine carries out. -/
def executeReport (m : Machine) : MachineReport :=
  .execute m.registers.clock m.registers.pc m.registers.ir

@[simp] theorem executes_beginReports (m : Machine) :
    executes m.beginReports = m.beginReports := by
  unfold beginReports
  split <;> rfl

theorem beginReports_opened (m : Machine) :
    m.opened.beginReports =
      if m.registers.f = .execute ∧ m.registers.sc = 0 then [m.opened.executeReport] else [] := by
  rw [beginReports, opened_eq]
  rfl

/-- What holds between any two micro-steps on a way that begins in front of an instruction. -/
structure Settled (start : Visible) (m : Machine) : Prop where
  wellFormed : m.WellFormed
  amid : m.status = .running → Amid start m
  /-- Inside a phase SC is past the first micro-step, unless that waits for a value. -/
  begun : m.status = .running → m.phaseOpen = true → m.registers.sc = 0 → m.awaitsInput = true

section
variable {m : Machine} {start : Visible}

theorem settled_ofMemory (start : Visible) (memory : Memory) : Settled start (ofMemory memory) where
  wellFormed := wellFormed_ofMemory memory
  amid := fun _ => amid_of_fetch rfl rfl
  begun := fun _ hopen => (by cases hopen)

theorem Settled.supply (h : Settled start m) (value : Nat) : Settled start (m.supply value) where
  wellFormed := wellFormed_supply h.wellFormed value
  amid := fun hrun => ⟨(h.amid hrun).addressed, (h.amid hrun).buffered, (h.amid hrun).fetched⟩
  begun := h.begun

theorem Settled.microStep (h : Settled start m) :
    Settled (if m.atInstruction then m.visible else start) m.microStep.machine where
  wellFormed := (wellFormed_microStep h.wellFormed).1
  amid := fun hnext => by
    by_cases hrun : m.status = .running
    · by_cases hat : m.atInstruction = true
      · have hinstruction := h.wellFormed.atInstruction hrun hat
        rw [if_pos hat]
        exact amid_fetch h.wellFormed hrun hinstruction.fetching hinstruction.counted
      · rw [if_neg hat]
        refine (h.amid hrun).microStep h.wellFormed hrun (fun hf hsc => hat ?_) hnext
        -- FETCH waits for nothing, so it has not begun.
        have hclosed : m.phaseOpen = false := by
          cases hopen : m.phaseOpen with
          | false => rfl
          | true =>
            have hwish := h.begun hrun hopen hsc
            cases hf.symm.trans (h.wellFormed.awaiting hrun hwish).1
        simp [atInstruction, atBoundary, hclosed, hf]
    · rw [microStep_of_not_running hrun] at hnext
      exact absurd hnext hrun
  begun := fun hnext => by
    by_cases hrun : m.status = .running
    · have hprogressed := progressed_microStep h.wellFormed hrun
      generalize m.microStep.result = result at hprogressed
      cases hprogressed with
      | counts _ _ _ hsc => exact fun _ hzero => absurd hzero hsc
      | closes _ _ hclosed => exact fun hopen => by rw [hclosed] at hopen; cases hopen
      | waits _ _ _ hwish => exact fun _ _ => hwish
      | halts hhalted => rw [hhalted] at hnext; cases hnext
      | fails _ hfaulted => rw [hfaulted] at hnext; cases hnext
    · rw [microStep_of_not_running hrun] at hnext
      exact absurd hnext hrun

/-- A micro-step that would report `execute` begins an execution or tries again. -/
theorem Settled.begins_or_tries (h : Settled start m) (hrun : m.status = .running)
    (hf : m.registers.f = .execute) (hsc : m.registers.sc = 0) {i : Instruction}
    (hdecode : Instruction.decode m.registers.ir = .ok i) :
    (m.beginsExecution || m.triesAgain) = true := by
  cases hopen : m.phaseOpen with
  | false =>
    simp [beginsExecution, atBoundary, hrun, hopen, hf, hdecode, Except.isOk, Except.toBool]
  | true => simp [triesAgain, hrun, hopen, h.begun hrun hopen hsc]

theorem Settled.executing (h : Settled start m)
    (hlooks : (m.beginsExecution || m.triesAgain) = true) :
    m.status = .running ∧ m.registers.f = .execute ∧ m.registers.sc = 0 ∧
      ∃ i, Instruction.decode m.registers.ir = .ok i := by
  obtain hbegins | hagain := Bool.or_eq_true_iff.1 hlooks
  · simp only [beginsExecution, Bool.and_eq_true, decide_eq_true_eq] at hbegins
    obtain ⟨⟨⟨hrun, hboundary⟩, hf⟩, hok⟩ := hbegins
    have hclosed : m.phaseOpen = false := by simpa [atBoundary] using hboundary
    refine ⟨hrun, hf, h.wellFormed.closed hclosed, ?_⟩
    cases hdecode : Instruction.decode m.registers.ir with
    | ok i => exact ⟨i, rfl⟩
    | error e =>
      rw [hdecode] at hok
      cases hok
  · simp only [triesAgain, Bool.and_eq_true, decide_eq_true_eq] at hagain
    obtain ⟨⟨hrun, -⟩, hwish⟩ := hagain
    obtain ⟨hf, hsc, -, i, hdecode, -⟩ := h.wellFormed.awaiting hrun hwish
    exact ⟨hrun, hf, hsc, i, hdecode⟩

theorem Settled.beginReports (h : Settled start m) (hrun : m.status = .running)
    {steps : List (List MicroOp)} {closing : Closing}
    (hsteps : m.opened.phaseSteps = .ok (steps, closing)) :
    m.opened.beginReports =
      if m.beginsExecution || m.triesAgain then [m.opened.executeReport] else [] := by
  rw [beginReports_opened]
  by_cases hlooks : (m.beginsExecution || m.triesAgain) = true
  · obtain ⟨-, hf, hsc, -⟩ := h.executing hlooks
    rw [if_pos hlooks, if_pos ⟨hf, hsc⟩]
  · rw [if_neg hlooks, if_neg]
    rintro ⟨hf, hsc⟩
    obtain ⟨i, hdecode, -⟩ := decode_of_phaseSteps hf hsteps
    exact hlooks (h.begins_or_tries hrun hf hsc hdecode)

/-- A micro-step reports `execute` when it begins an execution and when it tries again. -/
theorem Settled.executes_microStep (h : Settled start m) :
    executes m.microStep.reports =
      if m.beginsExecution || m.triesAgain then [m.opened.executeReport] else [] := by
  by_cases hrun : m.status = .running
  · have hstepped := stepped_microStep hrun
    generalize m.microStep = act at hstepped
    cases hstepped with
    | undecodable herror =>
      have hlooks : ¬(m.beginsExecution || m.triesAgain) = true := fun hlooks => by
        obtain ⟨-, hf, -, i, hdecode⟩ := h.executing hlooks
        rw [opened_eq] at herror
        simp [phaseSteps, hf, hdecode] at herror
      rw [if_neg hlooks]
      rfl
    | awaits hsteps | counts hsteps | closes hsteps =>
      rw [executes_beginReports]
      exact h.beginReports hrun hsteps
    | faults hsteps | halts hsteps =>
      rw [← h.beginReports hrun hsteps]
      refine (executes_append _ _).trans ?_
      rw [executes_beginReports]
      exact List.append_nil _
  · have hlooks : ¬(m.beginsExecution || m.triesAgain) = true :=
      fun hlooks => hrun (h.executing hlooks).1
    rw [microStep_of_not_running hrun, if_neg hlooks]
    rfl

/-- A micro-step after which the machine waits for a value has begun an execution or tried again,
and what is reported of the instruction is the same at the next try. -/
theorem Settled.triesAgain_microStep (h : Settled start m)
    (hagain : m.microStep.machine.triesAgain = true) :
    (m.beginsExecution || m.triesAgain) = true ∧
      m.microStep.machine.executeReport = m.opened.executeReport := by
  simp only [triesAgain, Bool.and_eq_true, decide_eq_true_eq] at hagain
  obtain ⟨⟨hnext, -⟩, hwish⟩ := hagain
  have hrun : m.status = .running := by
    by_contra hrun
    rw [microStep_of_not_running hrun] at hnext
    exact hrun hnext
  have hwaits : m.microStep.result = .ok .awaitsInput := by
    have hprogressed := progressed_microStep h.wellFormed hrun
    generalize m.microStep.result = result at hprogressed ⊢
    cases hprogressed with
    | waits => rfl
    | counts _ hnot | closes _ hnot => rw [hnot] at hwish; cases hwish
    | halts hhalted => rw [hhalted] at hnext; cases hnext
    | fails _ hfaulted => rw [hfaulted] at hnext; cases hnext
  obtain ⟨-, hasks, hinput⟩ := asks_of_awaits hwaits
  obtain ⟨i, hdecode, -⟩ := hasks.2.2
  refine ⟨h.begins_or_tries hrun hasks.1 hasks.2.1 hdecode, ?_⟩
  rw [microStep_of_asks_none hrun hasks hinput]
  rfl

theorem Settled.not_triesAgain_microStep (h : Settled start m) (hbegins : m.beginsExecution = false)
    (hagain : m.triesAgain = false) : m.microStep.machine.triesAgain = false := by
  cases hafter : m.microStep.machine.triesAgain with
  | false => rfl
  | true =>
    have hlooks := (h.triesAgain_microStep hafter).1
    rw [hbegins, hagain] at hlooks
    cases hlooks

end

/-! ## Ways -/

/-- A way from one machine to another, with the machines in front of its micro-steps. Between these
values may be supplied, and the machine may be set up anew from a memory. -/
inductive Trail : Machine → List Machine → Machine → Prop
  | rest (m : Machine) : Trail m [] m
  | supplied {m last : Machine} {steps : List Machine} (value : Nat)
    (later : Trail (m.supply value) steps last) : Trail m steps last
  | setUp {m last : Machine} {steps : List Machine} (memory : Memory)
    (later : Trail (ofMemory memory) steps last) : Trail m steps last
  | micro {m last : Machine} {steps : List Machine}
    (later : Trail m.microStep.machine steps last) : Trail m (m :: steps) last

/-- The reports of `execute` that are made on a way. -/
def executesOn (steps : List Machine) : List MachineReport :=
  executes (steps.flatMap (·.microStep.reports))

/-- The reports that are due to executions, repeated for every further try. -/
def repeated (executions : List Execution) : List MachineReport :=
  executions.flatMap fun e => List.replicate (e.retries + 1) e.report

section
variable {m n last : Machine} {steps more : List Machine} {start : Visible}

theorem Trail.trans (h : Trail m steps n) (hmore : Trail n more last) :
    Trail m (steps ++ more) last := by
  induction h with
  | rest => exact hmore
  | supplied value _ ih => exact .supplied value (ih hmore)
  | setUp memory _ ih => exact .setUp memory (ih hmore)
  | micro _ ih => exact .micro (ih hmore)

/-- The report of an execution that begins is the one that is due to it. -/
theorem Settled.executeReport_opened (h : Settled start m) (hbegins : m.beginsExecution = true)
    (retries : Nat) :
    m.opened.executeReport = (Execution.mk start (m.registers.clock + 1) retries).report := by
  obtain ⟨hrun, hf, hsc, -⟩ := h.executing (Bool.or_eq_true_iff.2 (.inl hbegins))
  have hclosed : m.phaseOpen = false := by
    simp_all [beginsExecution, atBoundary]
  obtain ⟨hpc, hir⟩ := (h.amid hrun).fetched (by rw [hf]; decide) fun _ => hsc
  have hclock : m.opened.registers.clock = m.registers.clock + 1 := by
    rw [opened_eq]
    simp [hclosed]
  rw [Machine.executeReport, Execution.report, hclock, ← hpc, ← hir, opened_eq]

/-- One micro-step before a way. Where it does not wait, nothing is tried again next, and where it
does, the next try reports the same as this one. -/
theorem Settled.executesOn_cons (h : Settled start m)
    (hafter : m.microStep.machine.triesAgain = false → retries steps = 0)
    (hrest : executesOn steps =
      List.replicate (retries steps) m.microStep.machine.executeReport ++
        repeated (executions (if m.atInstruction then m.visible else start) steps)) :
    executesOn (m :: steps) =
      List.replicate (retries (m :: steps)) m.executeReport ++
        repeated (executions start (m :: steps)) := by
  have hsplit : executesOn (m :: steps) = executes m.microStep.reports ++ executesOn steps :=
    executes_append _ _
  have hmore : List.replicate (retries steps) m.microStep.machine.executeReport =
      List.replicate (retries steps) m.opened.executeReport := by
    cases hagain : m.microStep.machine.triesAgain with
    | false => rw [hafter hagain]; rfl
    | true => rw [(h.triesAgain_microStep hagain).2]
  rw [hsplit, hrest, h.executes_microStep, hmore]
  simp only [executions]
  cases hbegins : m.beginsExecution with
  | true =>
    have hinside : m.atInstruction = false := by
      obtain ⟨-, hf, -⟩ := h.executing (Bool.or_eq_true_iff.2 (.inl hbegins))
      simp [atInstruction, hf]
    rw [retries_of_begins hbegins, hinside, h.executeReport_opened hbegins (retries steps)]
    rfl
  | false =>
    rw [if_neg Bool.false_ne_true, Bool.false_or]
    cases hagain : m.triesAgain with
    | true =>
      have hopen : m.phaseOpen = true := by
        simp_all [triesAgain]
      rw [retries_of_tries hbegins hagain, opened_of_open hopen, if_pos rfl, List.replicate_succ]
      rfl
    | false =>
      have hnone : retries steps = 0 := hafter (h.not_triesAgain_microStep hbegins hagain)
      rw [retries_of_not hbegins hagain, hnone]
      rfl

/-- Nothing is tried again that has not begun on the way. -/
theorem Trail.retries_eq_zero (htrail : Trail m steps last) (h : Settled start m)
    (hagain : m.triesAgain = false) : retries steps = 0 := by
  induction htrail generalizing start with
  | rest => rfl
  | supplied value _ ih => exact ih (h.supply value) hagain
  | setUp memory _ ih => exact ih (settled_ofMemory start memory) rfl
  | @micro m last steps _ ih =>
    cases hbegins : m.beginsExecution with
    | true => exact retries_of_begins hbegins _
    | false =>
      rw [retries_of_not hbegins hagain]
      exact ih h.microStep (h.not_triesAgain_microStep hbegins hagain)

/-- On a way the reports of `execute` are those of its executions, each repeated for every further
try, after those for the tries of the instruction that waits at the beginning. -/
theorem Trail.executesOn_eq (htrail : Trail m steps last) (h : Settled start m) :
    executesOn steps =
      List.replicate (retries steps) m.executeReport ++ repeated (executions start steps) := by
  induction htrail generalizing start with
  | rest => rfl
  | supplied value _ ih => exact ih (h.supply value)
  | setUp memory later ih =>
    have hfresh := settled_ofMemory start memory
    have heq := ih hfresh
    rw [later.retries_eq_zero hfresh rfl] at heq ⊢
    exact heq
  | micro later ih =>
    exact h.executesOn_cons (later.retries_eq_zero h.microStep) (ih h.microStep)

end

end Machine

/-! ## Records -/

/-- The records that an instruction is carried out. -/
def executeRecords (records : List Record) : List Record :=
  records.filter (·.message = "execute")

@[simp] theorem executeRecords_append (records more : List Record) :
    executeRecords (records ++ more) = executeRecords records ++ executeRecords more :=
  List.filter_append _ _

theorem executeRecords_map (stage : String) (reports : List MachineReport) :
    executeRecords (reports.map (·.record stage)) =
      (executes reports).map (·.record stage) := by
  unfold executeRecords executes
  rw [List.filter_map]
  congr 2
  funext report
  cases report <;> rfl

/-- What the records of `execute` tell of the micro-steps on a way. -/
structure Recounts (start : Visible) (stage : String) (steps : List Machine)
    (records : List Record) : Prop where
  /-- There is one for each execution, in order, and one more for every further try. -/
  repeated : executeRecords records =
    (executions start steps).flatMap fun e => List.replicate (e.retries + 1) (e.report.record stage)
  /-- There is one for each execution where nothing is tried again, and nowhere else. -/
  exact_iff : executeRecords records = (executions start steps).map (·.report.record stage) ↔
    ∀ m ∈ steps, m.triesAgain = false

theorem length_le_flatMap_replicate {α β : Type} (count : α → Nat) (f : α → β) (l : List α) :
    l.length ≤ (l.flatMap fun a => List.replicate (count a + 1) (f a)).length := by
  induction l with
  | nil => exact Nat.le_refl 0
  | cons a rest ih =>
    rw [List.flatMap_cons, List.length_append, List.length_replicate, List.length_cons]
    omega

/-- Values that are repeated are as they were only where none is repeated. -/
theorem flatMap_replicate_eq_map {α β : Type} {count : α → Nat} {f : α → β} {l : List α} :
    (l.flatMap fun a => List.replicate (count a + 1) (f a)) = l.map f ↔ ∀ a ∈ l, count a = 0 := by
  induction l with
  | nil => simp
  | cons a rest ih =>
    rw [List.forall_mem_cons, ← ih, List.flatMap_cons, List.map_cons, List.replicate_succ,
      List.cons_append, List.cons.injEq, and_iff_right rfl]
    constructor
    · intro heq
      have hle := length_le_flatMap_replicate count f rest
      have hlength := congrArg List.length heq
      rw [List.length_append, List.length_replicate, List.length_map] at hlength
      have hnone : count a = 0 := by omega
      rw [hnone] at heq
      exact ⟨hnone, heq⟩
    · rintro ⟨hnone, heq⟩
      rw [hnone, heq]
      rfl

theorem Machine.Trail.recounts {m last : Machine} {steps : List Machine} {start : Visible}
    (htrail : Trail m steps last) (h : Settled start m) (hagain : m.triesAgain = false)
    {stage : String} {records : List Record}
    (hrecords : executeRecords records = (executesOn steps).map (·.record stage)) :
    Recounts start stage steps records := by
  have hnone := htrail.retries_eq_zero h hagain
  have hrepeated : executeRecords records = (executions start steps).flatMap fun e =>
      List.replicate (e.retries + 1) (e.report.record stage) := by
    rw [hrecords, htrail.executesOn_eq h, hnone, Machine.repeated]
    simp [List.map_flatMap]
  refine ⟨hrepeated, ?_⟩
  rw [hrepeated, flatMap_replicate_eq_map, never_triesAgain_iff start, and_iff_right hnone]

end TrnComputer
