import TrnComputer.Proofs.Control.Usage
import TrnComputer.Proofs.Machine.Executions

/-! # The log of executions

Bare or under a controller, a machine records every instruction that it carries out, and once more
whenever an instruction that waits for a value looks for it again.

* `Machine.stepsOf`: the micro-steps of a call.
* `Logged`, `logged`: a machine on its own with its micro-steps and its reports.
* `Watch`, `watched`: a controller in use with the micro-steps of its workers.
* `execute_records`: the records of `execute` against the executions.
-/

namespace TrnComputer
set_option autoImplicit false

/-! ## Machines on their own -/

namespace Machine

/-- The machines in front of the micro-steps of a run. -/
def stepsUntil (done : Machine → Bool) : Nat → Machine → List Machine
  | 0, _ => []
  | fuel + 1, m =>
    match m.microStep.result with
    | .ok .proceeds =>
      m :: if done m.microStep.machine then [] else stepsUntil done fuel m.microStep.machine
    | _ => [m]

/-- The machines in front of the micro-steps of a call. -/
def stepsOf (m : Machine) : Call → List Machine
  | .microStep => [m]
  | .stepPhase => m.stepsUntil atBoundary 4
  | .stepInstruction => m.stepsUntil atInstruction 10
  | .run more => m.stepsUntil (fun _ => false) (more + 1)
  | .runLimited phases =>
    let limit := m.registers.clock + phases
    if m.reached limit then [] else m.stepsUntil (reached limit) (4 * phases + 4)

/-- Some micro-steps in a row, with what is reported on the way. -/
structure Does (m : Machine) (steps : List Machine) (act : Activity) : Prop where
  trail : Trail m steps act.machine
  reports : act.reports = steps.flatMap (·.microStep.reports)

theorem does_microStep (m : Machine) : m.Does [m] m.microStep :=
  ⟨.micro (.rest _), (List.append_nil _).symm⟩

theorem does_runUntil (done : Machine → Bool) (fuel : Nat) (m : Machine) :
    m.Does (m.stepsUntil done fuel) (m.runUntil done fuel) := by
  induction fuel generalizing m with
  | zero => exact ⟨.rest _, rfl⟩
  | succ fuel ih =>
    obtain hgo | hlast := goesOn_or_ends done m
    · have hsteps : m.stepsUntil done (fuel + 1) =
          m :: m.microStep.machine.stepsUntil done fuel := by
        simp [stepsUntil, hgo.1, hgo.2]
      obtain ⟨htrail, hreports⟩ := ih m.microStep.machine
      rw [hsteps, runUntil_of_proceeds fuel hgo.1 hgo.2]
      refine ⟨.micro htrail, ?_⟩
      rw [Activity.after, hreports]
      rfl
    · have hsteps : m.stepsUntil done (fuel + 1) = [m] := by
        simp only [stepsUntil]
        split
        · next hproceeds => rw [if_pos (hlast hproceeds)]
        · rfl
      rw [hsteps, runUntil_of_stop fuel hlast]
      exact m.does_microStep

theorem does_answer (m : Machine) (call : Call) : m.Does (m.stepsOf call) (m.answer call) := by
  cases call with
  | microStep => exact m.does_microStep
  | stepPhase | stepInstruction | run more => exact does_runUntil _ _ m
  | runLimited phases =>
    simp only [stepsOf, answer, runLimited]
    split
    · exact ⟨.rest _, rfl⟩
    · exact does_runUntil _ _ m

end Machine

/-- A machine with the machines in front of its micro-steps and with what it has reported. -/
structure Logged where
  machine : Machine
  steps : List Machine := []
  reports : List MachineReport := []

namespace Logged

def after (l : Logged) : Demand → Logged
  | .errand (.call call) =>
    ⟨(l.machine.answer call).machine, l.steps ++ l.machine.stepsOf call,
      l.reports ++ (l.machine.answer call).reports⟩
  | demand => { l with machine := l.machine.meet demand }

/-- The micro-steps lead to the machine, and the reports are theirs. -/
structure Sound (memory : Memory) (l : Logged) : Prop where
  trail : Machine.Trail (.ofMemory memory) l.steps l.machine
  reports : l.reports = l.steps.flatMap (·.microStep.reports)

theorem Sound.rest {memory : Memory} {l : Logged} (h : l.Sound memory) {m : Machine}
    (hrest : l.machine.Trail [] m) : Sound memory { l with machine := m } := by
  have htrail := h.trail.trans hrest
  rw [List.append_nil] at htrail
  exact ⟨htrail, h.reports⟩

theorem Sound.after {memory : Memory} {l : Logged} (h : l.Sound memory) (demand : Demand) :
    (l.after demand).Sound memory := by
  cases demand with
  | errand errand =>
    cases errand with
    | call call =>
      obtain ⟨htrail, hreports⟩ := l.machine.does_answer call
      refine ⟨h.trail.trans htrail, ?_⟩
      change l.reports ++ _ = (l.steps ++ _).flatMap _
      rw [h.reports, hreports, List.flatMap_append]
    | supply value => exact h.rest (.supplied value (.rest _))
  | reset => exact h.rest (.setUp l.machine.memory (.rest _))
  | load memory => exact h.rest (.setUp memory (.rest _))

end Logged

/-- A machine that starts from a memory, after all that is asked of it. -/
def logged (memory : Memory) (demands : List Demand) : Logged :=
  demands.foldl Logged.after { machine := .ofMemory memory }

theorem sound_logged (memory : Memory) (demands : List Demand) :
    (logged memory demands).Sound memory :=
  List.foldlRecOn demands Logged.after ⟨.rest _, rfl⟩ fun _ h demand _ => h.after demand

/-! ## Workers -/

namespace Worker

/-- The machine in front of the micro-step that the next move does, if it does one. -/
def working? (w : Worker) : Option Machine :=
  match w.point with
  | .ready => if w.limitReached then none else some w.machine
  | _ => none

variable {p : Panel} {w : Worker} {m : Move}

theorem working?_eq_none (h : w.point ≠ .ready) : w.working? = none := by
  unfold working?
  split
  · next hready => exact absurd hready h
  · rfl

/-- A move leads the machine on by its micro-step, if it does one, and reports what that does. -/
theorem Moved.logs (h : Moved p w m) :
    Machine.Trail w.machine w.working?.toList m.worker.machine ∧
      executeRecords (m.reports.map ControlReport.record) =
        (Machine.executesOn w.working?.toList).map (·.record ControlReport.stage) := by
  cases h with
  | passes hpoint | isHeld hpoint =>
    rw [working?_eq_none (by obtain h | h := hpoint <;> simp [h])]
    exact ⟨.rest _, rfl⟩
  | isInterrupted hpoint | goesOn hpoint =>
    rw [working?_eq_none (by simp [hpoint])]
    exact ⟨.rest _, rfl⟩
  | limited hpoint hlimit =>
    simp only [working?, hpoint, hlimit, if_true]
    exact ⟨.rest _, rfl⟩
  | drives hpoint hlimit =>
    simp only [working?, hpoint, hlimit, Bool.false_eq_true, if_false, Option.toList_some]
    obtain ⟨htrail, hreports⟩ := w.machine.does_microStep
    refine ⟨htrail, ?_⟩
    rw [Machine.executesOn, ← hreports, ← executeRecords_map, drive, List.map_map]
    rfl
  | takes hpoint hslot =>
    rw [working?_eq_none (by obtain h | h := hpoint <;> simp [h])]
    exact ⟨.supplied _ (.rest _), rfl⟩
  | isStarved hpoint =>
    rw [working?_eq_none (by obtain h | h := hpoint <;> simp [h])]
    exact ⟨.rest _, rfl⟩

theorem working?_of_blocked (h : w.move? p = none) : w.working? = none :=
  working?_eq_none fun hready => by simp [move?, hready] at h

end Worker

/-! ## Controllers in use -/

namespace Controller

/-- The records so far, in the order of time. -/
def log (c : Controller) : List Record := c.journal.reverse.map ControlReport.record

variable {c c' : Controller}

theorem log_report (c : Controller) (r : ControlReport) :
    (c.report r).log = c.log ++ [r.record] := by
  simp [log, Controller.report]

/-- Of the controller's own reports none is that an instruction is carried out. -/
theorem executeRecords_report {r : ControlReport} (h : ∀ report, r ≠ .machine report) :
    executeRecords (c.report r).log = executeRecords c.log := by
  have hnone : executeRecords [r.record] = [] := by
    cases r with
    | machine report => exact absurd rfl (h report)
    | loaded | started | interrupted | finished | failed => rfl
  rw [log_report, executeRecords_append, hnone, List.append_nil]

theorem executeRecords_load (memory : Memory) :
    executeRecords (c.load memory).1.log = executeRecords c.log := by
  unfold load
  split
  · rfl
  · exact executeRecords_report nofun

theorem executeRecords_start : executeRecords c.start.1.log = executeRecords c.log := by
  unfold start
  split
  · rfl
  · split
    · rfl
    · exact executeRecords_report nofun

theorem executeRecords_wait : executeRecords c.wait.1.log = executeRecords c.log := by
  unfold wait
  split
  · rfl
  · split
    · next result _ =>
      refine executeRecords_report ?_
      cases result <;> exact nofun
    · rfl

end Controller

/-- Only moves of the worker make records during a run. -/
theorem Course.log_steered (s : Course) {t : Turn} (h : t ≠ .move) :
    (s.after t).controller.log = s.controller.log := by
  cases t with
  | move => exact absurd rfl h
  | pause | setDelay | resume | setInput => rfl
  | step =>
    change s.controller.step.1.log = _
    unfold Controller.step Panel.grant
    by_cases hpaused : s.controller.panel.paused = true
    · rw [if_pos hpaused]
      rfl
    · rw [if_neg hpaused]

/-- A controller in use, with the machines in front of all micro-steps of its workers. -/
structure Watch where
  usage : Usage
  steps : List Machine := []

/-- The machine in front of the micro-step that is done with an act, if one is done. -/
def Usage.working? (u : Usage) : Act → Option Machine
  | .turn .move => u.controller.worker.bind Worker.working?
  | _ => none

namespace Watch

def after (v : Watch) (act : Act) : Watch :=
  ⟨v.usage.after act, v.steps ++ (v.usage.working? act).toList⟩

/-- The micro-steps lead to the machine of the worker, and the records are theirs. -/
structure Sound (first : Machine) (v : Watch) : Prop where
  trail : ∃ last, first.Trail v.steps last ∧
    ∀ w, v.usage.controller.worker = some w → w.machine = last
  records : executeRecords v.usage.controller.log =
    (Machine.executesOn v.steps).map (·.record ControlReport.stage)

variable {first : Machine} {v : Watch}

/-- An act that does no micro-step leaves the machine alone and records no execution. -/
theorem Sound.idle (h : v.Sound first) {u : Usage}
    (hworker : ∀ w', u.controller.worker = some w' →
      ∃ w, v.usage.controller.worker = some w ∧ w'.machine = w.machine)
    (hlog : executeRecords u.controller.log = executeRecords v.usage.controller.log) :
    Sound first ⟨u, v.steps ++ []⟩ := by
  obtain ⟨last, htrail, hlast⟩ := h.trail
  rw [List.append_nil]
  refine ⟨⟨last, htrail, fun w' hw' => ?_⟩, hlog.trans h.records⟩
  obtain ⟨w, hw, hsame⟩ := hworker w' hw'
  exact hsame.trans (hlast w hw)

theorem Sound.woken (h : v.Sound first) {u : Usage}
    (hworker : Option.Rel Worker.Woken v.usage.controller.worker u.controller.worker)
    (hlog : u.controller.log = v.usage.controller.log) : Sound first ⟨u, v.steps ++ []⟩ := by
  refine h.idle (fun w' hw' => ?_) (congrArg executeRecords hlog)
  rw [hw'] at hworker
  generalize v.usage.controller.worker = worker at hworker
  cases hworker with
  | some hwoken => exact ⟨_, rfl, hwoken.machine⟩

/-- A move of the worker does at most one micro-step, and records what that reports. -/
theorem Sound.move (h : v.Sound first) : (v.after (.turn .move)).Sound first := by
  obtain ⟨w, m, hworker, hmove, hafter⟩ | ⟨hnone, hsame⟩ :=
      ({ controller := v.usage.controller } : Course).move_cases
  · obtain ⟨last, htrail, hlast⟩ := h.trail
    obtain ⟨hon, hrecords⟩ := (Worker.moved_of_move? hmove).logs
    rw [hlast w hworker] at hon
    have hworking : v.usage.working? (.turn .move) = w.working? :=
      congrArg (·.bind Worker.working?) hworker
    have hlog : (v.usage.after (.turn .move)).controller.log =
        v.usage.controller.log ++ m.reports.map ControlReport.record := by
      simp [Usage.after, hafter, Controller.log]
    rw [after, hworking]
    refine ⟨⟨m.worker.machine, htrail.trans hon, fun w' hw' => ?_⟩, ?_⟩
    · simp only [Usage.after, hafter, Option.some.injEq] at hw'
      rw [hw']
    · rw [hlog, executeRecords_append, h.records, hrecords, ← List.map_append, Machine.executesOn,
        Machine.executesOn, Machine.executesOn, ← executes_append, ← List.flatMap_append]
  · have hworking : v.usage.working? (.turn .move) = none := by
      simp only [Usage.working?]
      cases hworker : v.usage.controller.worker with
      | none => rfl
      | some w =>
        refine Worker.working?_of_blocked (p := v.usage.controller.panel) ?_
        cases hmove : w.move? v.usage.controller.panel with
        | none => rfl
        | some m => simp [Controller.move?, hworker, hmove] at hnone
    rw [after, hworking]
    refine h.idle (fun w hw => ⟨w, ?_, rfl⟩) ?_
    · simpa only [Usage.after, hsame] using hw
    · simp only [Usage.after, hsame]

theorem Sound.after (h : v.Sound first) (act : Act) : (v.after act).Sound first := by
  have hself : Sound first ⟨v.usage, v.steps ++ []⟩ := h.idle (fun w hw => ⟨w, hw, rfl⟩) rfl
  have halone {next : Usage} (hnext : Sound first ⟨next, v.steps ++ []⟩) :
      Sound first ⟨v.usage.alone next, v.steps ++ []⟩ := by
    unfold Usage.alone
    split
    · exact hnext
    · exact hself
  cases act with
  | load memory =>
    refine halone (h.idle (fun w hw => ⟨w, ?_, rfl⟩) (Controller.executeRecords_load memory))
    exact (v.usage.controller.load_keeps memory).2.symm.trans hw
  | addListener id => exact halone (h.idle (fun w hw => ⟨w, hw, rfl⟩) rfl)
  | start =>
    have hrecords := v.usage.controller.executeRecords_start
    rw [Watch.after]
    obtain ⟨-, hsame⟩ | ⟨started, -, hstart, hafter⟩ := v.usage.after_start
    · rw [hsame]
      exact hself
    · obtain ⟨memory, hstarts⟩ := Controller.start_eq_ok hstart
      obtain ⟨last, htrail, -⟩ := h.trail
      rw [hafter]
      refine ⟨⟨_, htrail.trans (.setUp memory (.rest _)), fun w hw => ?_⟩, ?_⟩
      · obtain rfl := Option.some.inj (hstarts.worker.symm.trans hw)
        rfl
      · rw [hstart] at hrecords
        exact (List.append_nil v.steps).symm ▸ hrecords.trans h.records
  | wait =>
    refine halone (h.idle (fun w hw => ⟨w, ?_, rfl⟩) Controller.executeRecords_wait)
    exact v.usage.controller.wait_keeps.2 w hw
  | turn t =>
    by_cases ht : t = .move
    · subst ht
      exact h.move
    · have hworking : v.usage.working? (.turn t) = none := by
        cases t with
        | move => exact absurd rfl ht
        | pause | resume | step | setInput | setDelay => rfl
      rw [Watch.after, hworking]
      let s : Course := { controller := v.usage.controller }
      exact h.woken (s.steered ht).2.2.worker (s.log_steered ht)
  | flag => exact h.idle (fun w hw => ⟨w, hw, rfl⟩) rfl
  | wake => exact h.woken v.usage.controller.steered_wakeHeld.worker rfl
  | offer =>
    change Sound first ⟨v.usage.after .offer, v.steps ++ []⟩
    simp only [Usage.after]
    split
    · exact h.woken (woken_map Worker.woken_wakeStarved _) rfl
    · exact hself

end Watch

/-- A controller with the given settings after all that has been done with it, and the micro-steps
of its workers. -/
def watched (settings : Settings) (acts : List Act) : Watch :=
  acts.foldl Watch.after { usage := { controller := .ofSettings settings } }

theorem usage_watched (settings : Settings) (acts : List Act) :
    (watched settings acts).usage = usage settings acts := by
  unfold watched usage
  generalize ({ controller := .ofSettings settings } : Usage) = u
  suffices h : ∀ v : Watch, (acts.foldl Watch.after v).usage = acts.foldl Usage.after v.usage from
    h { usage := u }
  induction acts with
  | nil => exact fun _ => rfl
  | cons act rest ih => exact fun v => ih (v.after act)

theorem sound_watched (first : Machine) (settings : Settings) (acts : List Act) :
    (watched settings acts).Sound first := by
  refine List.foldlRecOn acts Watch.after ?_ fun _ h act _ => h.after act
  exact ⟨⟨first, .rest first, fun w hw => by cases hw⟩, rfl⟩

/-- The records of `execute` follow the executions, on its own or under a controller, whatever is
done. In the order of time each execution is recorded with the clock of its EXECUTE phase, the PC
that follows that of the instruction and the text of the instruction, once, and once more whenever
it tries again to get a value. So there is one record for each execution exactly where nothing is
tried again. Each way begins in front of an instruction, so `start` does not matter. -/
theorem execute_records (start : Visible) :
    (∀ (stage : String) (memory : Memory) (demands : List Demand),
      Recounts start stage (logged memory demands).steps
        ((logged memory demands).reports.map (·.record stage))) ∧
    ∀ (settings : Settings) (acts : List Act),
      Recounts start ControlReport.stage (watched settings acts).steps
        (usage settings acts).controller.log := by
  refine ⟨fun stage memory demands => ?_, fun settings acts => ?_⟩
  · obtain ⟨htrail, hreports⟩ := sound_logged memory demands
    refine htrail.recounts (Machine.settled_ofMemory start memory) rfl ?_
    rw [executeRecords_map, hreports]
    rfl
  · obtain ⟨⟨last, htrail, -⟩, hrecords⟩ := sound_watched (.ofMemory (.ofList [])) settings acts
    rw [usage_watched] at hrecords
    exact htrail.recounts (Machine.settled_ofMemory start _) rfl hrecords

/-- An input instruction for which the value comes late. It begins EXECUTE once, and is recorded
again with each of the two tries that follow. -/
theorem execute_repeated :
    let memory := Memory.ofList [29 * 2 ^ 15, 31 * 2 ^ 15]
    let l := logged memory
      [.errand (.call (.run 9)), .errand (.call .microStep), .errand (.supply 5),
        .errand (.call .microStep)]
    let due := executions (Machine.ofMemory memory).visible l.steps
    due.map Execution.report = [.execute 2 1 (29 * 2 ^ 15)] ∧
      executes l.reports = List.replicate 3 (.execute 2 1 (29 * 2 ^ 15)) ∧
      executeRecords (l.reports.map (·.record "execution")) ≠
        due.map (·.report.record "execution") := by
  intro memory l due
  have hdue : due.map Execution.report = [.execute 2 1 (29 * 2 ^ 15)] := by decide
  have hreports : executes l.reports = List.replicate 3 (.execute 2 1 (29 * 2 ^ 15)) := by decide
  refine ⟨hdue, hreports, fun heq => ?_⟩
  have hone : due.length = 1 := by simpa using congrArg List.length hdue
  rw [executeRecords_map, hreports] at heq
  have hlength := congrArg List.length heq
  rw [List.length_map, List.length_replicate, List.length_map, hone] at hlength
  cases hlength

end TrnComputer
