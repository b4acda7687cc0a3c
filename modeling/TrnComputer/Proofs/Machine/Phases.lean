import TrnComputer.Proofs.Machine.Microcode
import TrnComputer.Proofs.Machine.Runs

/-! # Phases as a whole

Between the micro-steps of a phase only the step counter changes, and no micro-operation looks at
it. So a phase carries out its micro-operations in a row, as if there were no micro-steps.

* `outputs`: what is handed out among the events.
* `Activity.outcome`: the machine and what it hands out, unless it stops for a fault or waits.
* `Machine.outcome_phase`: the outcome of a run that begins with a phase.
-/

namespace TrnComputer
set_option autoImplicit false

/-! ## What is handed out -/

/-- The values that are handed out, in the order of time. -/
def outputs (events : List Event) : List Nat :=
  events.filterMap fun event =>
    match event with
    | .output value => some value
    | _ => none

theorem outputs_append (earlier later : List Event) :
    outputs (earlier ++ later) = outputs earlier ++ outputs later := List.filterMap_append

/-- The machine after some micro-operations and what they have handed out, unless they are cut
short. -/
def completed : Machine × List Event × Option Stop → Option (Machine × List Nat)
  | (_, _, some _) => none
  | (after, events, none) => some (after, outputs events)

theorem completed_cons {n after : Machine} {op : MicroOp} {events : List Event}
    (h : MicroOp.perform n op = (after, events, none)) (hquiet : outputs events = [])
    (rest : List MicroOp) :
    completed (MicroOp.performAll n (op :: rest)) = completed (MicroOp.performAll after rest) := by
  rw [MicroOp.performAll_cons, h]
  simp only
  obtain ⟨last, later, stop⟩ := MicroOp.performAll after rest
  cases stop with
  | some why => rfl
  | none => simp only [completed, outputs_append, hquiet, List.nil_append]

namespace Machine

theorem outputs_of_routine {events : List Event} (h : ∀ e ∈ events, e.Routine) :
    outputs events = [] :=
  List.filterMap_eq_nil_iff.2 fun e he => by cases h e he <;> rfl

theorem outputs_openPhase (m : Machine) : outputs m.openPhase.2 = [] :=
  outputs_of_routine m.routine_openPhase

theorem outputs_count (m : Machine) (sc : Nat) : outputs (m.count sc).2 = [] :=
  outputs_of_routine (m.routine_count sc)

theorem outputs_close (m : Machine) (closing : Closing) : outputs (m.close closing).2 = [] :=
  outputs_of_routine (m.routine_close closing)

end Machine

/-- The machine and what it has handed out, unless a fault stops it or it waits. -/
def Activity.outcome (act : Activity) : Option (Machine × List Nat) :=
  match act.result with
  | .ok .proceeds | .ok .halted => some (act.machine, outputs act.events)
  | .ok .awaitsInput | .error _ => none

def outcomeAfter (out : List Nat) (outcome : Option (Machine × List Nat)) :
    Option (Machine × List Nat) :=
  outcome.map fun found => (found.1, out ++ found.2)

theorem outcomeAfter_append (out more : List Nat) (outcome : Option (Machine × List Nat)) :
    outcomeAfter out (outcomeAfter more outcome) = outcomeAfter (out ++ more) outcome := by
  cases outcome with
  | none => rfl
  | some found => simp [outcomeAfter]

namespace Machine

/-- The outcome of going on from a machine until `done`. -/
def outcomeFrom (done : Machine → Bool) (fuel : Nat) (m : Machine) :
    Option (Machine × List Nat) :=
  if done m then some (m, []) else (m.runUntil done fuel).outcome

theorem outcome_runUntil (done : Machine → Bool) (fuel : Nat) {m : Machine}
    (h : m.microStep.result = .ok .proceeds) :
    (m.runUntil done (fuel + 1)).outcome =
      outcomeAfter (outputs m.microStep.events) (outcomeFrom done fuel m.microStep.machine) := by
  unfold outcomeFrom
  by_cases hdone : done m.microStep.machine = true
  · rw [runUntil_of_stop fuel (fun _ => hdone), if_pos hdone]
    simp [Activity.outcome, h, outcomeAfter]
  · have hfalse : done m.microStep.machine = false := by simpa using hdone
    rw [runUntil_of_proceeds fuel h hfalse, if_neg hdone]
    generalize m.microStep.machine.runUntil done fuel = later
    obtain ⟨machine, result, events, reports⟩ := later
    simp only [Activity.outcome, Activity.after, outputs_append]
    cases result with
    | error cause => rfl
    | ok tick => cases tick <;> rfl

/-! ## A phase -/

theorem close_count (m : Machine) (k : Nat) (closing : Closing) :
    ((m.setRegister .sc k).close closing).1 = (m.close closing).1 := by
  rw [close_machine, close_machine]
  rfl

section
variable {done : Machine → Bool} {steps : List (List MicroOp)} {closing : Closing}

/-- What is left of a run after the micro-operations of a phase. -/
def afterPhase (done : Machine → Bool) (fuel : Nat) (closing : Closing)
    (performed : Machine × List Event × Option Stop) : Option (Machine × List Nat) :=
  (completed performed).bind fun found =>
    outcomeAfter found.2 (outcomeFrom done fuel (found.1.close closing).1)

theorem phaseSteps_performAll {m : Machine} (hsteps : m.phaseSteps = .ok (steps, closing))
    {ops : List MicroOp} (hops : ops ∈ steps) (hmore : 1 < steps.length) (k : Nat) :
    ((MicroOp.performAll m ops).1.setRegister .sc k).phaseSteps = .ok (steps, closing) := by
  have hf : (MicroOp.performAll m ops).1.registers.f = m.registers.f := by
    apply Phase.code_injective
    apply MicroOp.get_performAll (q := .f)
    intro op hop hw
    exact ((orderly_phaseSteps hsteps hops hop).1.writes .f hw).1 (by simp)
  apply phaseSteps_congr hsteps hmore hf
  intro hne
  apply MicroOp.get_performAll (q := .ir)
  intro op hop
  exact (orderly_phaseSteps hsteps hops hop).2.1 hne

theorem stepAt_of_drop {sc : Nat} {ops : List MicroOp} {rest : List (List MicroOp)}
    (hleft : steps.drop sc = ops :: rest) :
    Microcode.stepAt steps sc = ops ∧ ops ∈ steps ∧ steps.length = sc + 1 + rest.length ∧
      steps.drop (sc + 1) = rest := by
  have hlength : (steps.drop sc).length = (ops :: rest).length := congrArg List.length hleft
  rw [List.length_drop, List.length_cons] at hlength
  have hlt : sc < steps.length := by omega
  have hget : steps[sc] :: steps.drop (sc + 1) = ops :: rest := by
    rw [← List.drop_eq_getElem_cons hlt, hleft]
  obtain ⟨hops, hrest⟩ := List.cons.inj hget
  refine ⟨?_, ?_, by omega, hrest⟩
  · rw [Microcode.stepAt_of_lt hlt, hops]
  · rw [← hops]
    exact List.getElem_mem hlt

variable {m : Machine} {ops : List MicroOp} {rest : List (List MicroOp)}

theorem microStep_of_stop (hrun : m.status = .running)
    (hsteps : m.opened.phaseSteps = .ok (steps, closing))
    (hleft : steps.drop m.registers.sc = ops :: rest) {why : Stop}
    (hstop : (MicroOp.performAll m.opened ops).2.2 = some why) :
    m.microStep.result ≠ .ok .proceeds ∧ m.microStep.outcome = none := by
  have hsc : m.opened.registers.sc = m.registers.sc := by rw [opened_eq]
  have hat := (stepAt_of_drop hleft).1
  have hstepped := stepped_microStep hrun
  generalize m.microStep = act at hstepped ⊢
  cases hstepped with
  | undecodable herror =>
    rw [hsteps] at herror
    cases herror
  | awaits => simp [Activity.outcome]
  | faults => simp [Activity.outcome, fail]
  | halts hfound hops | counts hfound hops | closes hfound hops =>
    rw [hsteps] at hfound
    cases hfound
    rw [hsc, hat] at hops
    rw [hops] at hstop
    cases hstop

theorem microStep_of_go (hrun : m.status = .running)
    (hsteps : m.opened.phaseSteps = .ok (steps, closing))
    (hleft : steps.drop m.registers.sc = ops :: rest) (hhalt : .halt ∉ ops)
    {after : Machine} {events : List Event}
    (hgo : MicroOp.performAll m.opened ops = (after, events, none)) :
    m.microStep.result = .ok .proceeds ∧ outputs m.microStep.events = outputs events ∧
      m.microStep.machine =
        if rest = [] then (after.close closing).1
        else after.setRegister .sc (m.registers.sc + 1) := by
  have hsc : m.opened.registers.sc = m.registers.sc := by rw [opened_eq]
  obtain ⟨hat, -, hlength, -⟩ := stepAt_of_drop hleft
  have hopening := outputs_openPhase m
  have hstatus : after.status = .running := by
    have hkept := MicroOp.status_performAll hhalt m.opened
    rw [hgo, status_opened, hrun] at hkept
    exact hkept
  have hstepped := stepped_microStep hrun
  generalize m.microStep = act at hstepped ⊢
  cases hstepped with
  | undecodable herror =>
    rw [hsteps] at herror
    cases herror
  | awaits hfound hops | faults hfound hops =>
    rw [hsteps] at hfound
    cases hfound
    rw [hsc, hat, hgo] at hops
    cases hops
  | halts hfound hops hhalted =>
    rw [hsteps] at hfound
    cases hfound
    rw [hsc, hat, hgo] at hops
    cases hops
    rw [hstatus] at hhalted
    cases hhalted
  | counts hfound hops _ hmore =>
    rw [hsteps] at hfound
    cases hfound
    rw [hsc, hat, hgo] at hops
    cases hops
    have hrest : rest ≠ [] := by
      intro hnil
      rw [hnil, List.length_nil] at hlength
      omega
    refine ⟨rfl, ?_, ?_⟩
    · simp only [outputs_append, hopening, outputs_count, List.nil_append, List.append_nil]
    · rw [if_neg hrest, count_machine, hsc]
  | closes hfound hops _ hlast =>
    rw [hsteps] at hfound
    cases hfound
    rw [hsc, hat, hgo] at hops
    cases hops
    have hrest : rest = [] := by
      apply List.eq_nil_of_length_eq_zero
      omega
    refine ⟨rfl, ?_, ?_⟩
    · simp only [outputs_append, hopening, outputs_close, List.nil_append, List.append_nil]
    · rw [if_pos hrest]

theorem outcome_of_stop (done : Machine → Bool) (fuel : Nat) (hrun : m.status = .running)
    (hsteps : m.opened.phaseSteps = .ok (steps, closing))
    (hleft : steps.drop m.registers.sc = ops :: rest) {why : Stop}
    (hstop : (MicroOp.performAll m.opened ops).2.2 = some why) :
    (m.runUntil done (fuel + 1)).outcome = none := by
  obtain ⟨hresult, hnone⟩ := microStep_of_stop hrun hsteps hleft hstop
  rw [runUntil_of_stop fuel (fun hproceeds => absurd hproceeds hresult)]
  exact hnone

theorem ready_count (hrun : m.status = .running)
    (hsteps : m.opened.phaseSteps = .ok (steps, closing))
    (hleft : steps.drop m.registers.sc = ops :: rest) (hrest : rest ≠ []) (hhalt : .halt ∉ ops)
    {after : Machine} (hafter : after = (MicroOp.performAll m.opened ops).1) :
    (after.setRegister .sc (m.registers.sc + 1)).status = .running ∧
      (after.setRegister .sc (m.registers.sc + 1)).phaseOpen = true ∧
      (after.setRegister .sc (m.registers.sc + 1)).phaseSteps = .ok (steps, closing) ∧
      (after.setRegister .sc (m.registers.sc + 1)).registers.sc = m.registers.sc + 1 := by
  obtain ⟨-, hmem, hlength, -⟩ := stepAt_of_drop hleft
  have hpos : 0 < rest.length := List.length_pos_iff.2 hrest
  have hle := m.opened.phaseLength_le_four
  rw [← length_phaseSteps hsteps, hlength] at hle
  subst hafter
  refine ⟨?_, ?_, ?_, ?_⟩
  · change (MicroOp.performAll m.opened ops).1.status = _
    rw [MicroOp.status_performAll hhalt, status_opened, hrun]
  · change (MicroOp.performAll m.opened ops).1.phaseOpen = _
    rw [(MicroOp.control_performAll m.opened ops).2.1, phaseOpen_opened]
  · exact phaseSteps_performAll hsteps hmem (by omega) _
  · simp only [registers_setRegister, Registers.set]
    omega

/-- What is left of a phase neither reads nor writes the step counter. -/
theorem count_free (hsteps : m.phaseSteps = .ok (steps, closing)) (k : Nat) :
    ∀ op ∈ (steps.drop k).flatten, .sc ∉ op.reads ∧ .sc ∉ op.writes := by
  intro op hop
  obtain ⟨found, hin, hop⟩ := List.mem_flatten.1 hop
  have horderly := (orderly_phaseSteps hsteps (List.mem_of_mem_drop hin) hop).1
  refine ⟨horderly.reads, fun hw => ?_⟩
  exact (horderly.writes .sc hw).1 (by simp)

theorem outcome_rest (hdone : ∀ n : Machine, n.phaseOpen = true → done n = false) (fuel : Nat)
    (hhalt : .halt ∉ steps.flatten) (hrun : m.status = .running)
    (hsteps : m.opened.phaseSteps = .ok (steps, closing))
    (hleft : steps.drop m.registers.sc = ops :: rest) :
    (m.runUntil done (fuel + rest.length + 1)).outcome =
      afterPhase done fuel closing (MicroOp.performAll m.opened (ops :: rest).flatten) := by
  induction rest generalizing m ops with
  | nil =>
    obtain ⟨-, hmem, -, -⟩ := stepAt_of_drop hleft
    have hhalt' : .halt ∉ ops := fun h => hhalt (List.mem_flatten.2 ⟨ops, hmem, h⟩)
    rw [List.flatten_cons, List.flatten_nil, List.append_nil]
    cases hops : MicroOp.performAll m.opened ops with
    | mk after told =>
      obtain ⟨events, stop⟩ := told
      cases stop with
      | some why =>
        exact outcome_of_stop done fuel hrun hsteps hleft (by rw [hops])
      | none =>
        obtain ⟨hresult, hout, hmachine⟩ := microStep_of_go hrun hsteps hleft hhalt' hops
        rw [if_pos rfl] at hmachine
        rw [List.length_nil, Nat.add_zero, outcome_runUntil done fuel hresult, hout, hmachine]
        rfl
  | cons next rest ih =>
    obtain ⟨-, hmem, hlength, hdrop⟩ := stepAt_of_drop hleft
    have hhalt' : .halt ∉ ops := fun h => hhalt (List.mem_flatten.2 ⟨ops, hmem, h⟩)
    rw [List.flatten_cons, MicroOp.performAll_append]
    cases hops : MicroOp.performAll m.opened ops with
    | mk after told =>
      obtain ⟨events, stop⟩ := told
      cases stop with
      | some why =>
        exact outcome_of_stop done _ hrun hsteps hleft (by rw [hops])
      | none =>
        have hafter : after = (MicroOp.performAll m.opened ops).1 := by rw [hops]
        obtain ⟨hresult, hout, hmachine⟩ := microStep_of_go hrun hsteps hleft hhalt' hops
        obtain ⟨hstatus, hopen, hsame, hsc⟩ :=
          ready_count hrun hsteps hleft (List.cons_ne_nil _ _) hhalt' hafter
        rw [if_neg (List.cons_ne_nil _ _)] at hmachine
        have hlen : fuel + (next :: rest).length + 1 = fuel + rest.length + 1 + 1 := by
          rw [List.length_cons]
          omega
        have hnext := @ih _ next hstatus (by rw [opened_of_open hopen]; exact hsame)
          (by rw [hsc]; exact hdrop)
        -- The step counter that was counted up does not matter to the micro-operations left.
        have hfree := count_free hsteps (m.registers.sc + 1)
        rw [hdrop] at hfree
        rw [opened_of_open hopen, MicroOp.performAll_count (fun op hop => (hfree op hop).1)
          (fun op hop => (hfree op hop).2)] at hnext
        rw [hlen, outcome_runUntil done _ hresult, hout, hmachine, outcomeFrom,
          hdone _ hopen, if_neg Bool.false_ne_true, hnext]
        simp only
        obtain ⟨last, later, stop⟩ := MicroOp.performAll after (next :: rest).flatten
        cases stop with
        | some why => rfl
        | none =>
          simp only [afterPhase, completed, Option.bind_some, close_count, outcomeAfter_append,
            outputs_append]

/-- A run that begins with a phase carries out the micro-operations of the phase in a row, closes
the phase and goes on. -/
theorem outcome_phase (hdone : ∀ n : Machine, n.phaseOpen = true → done n = false) (fuel : Nat)
    (hrun : m.status = .running) (hsc : m.registers.sc = 0)
    (hsteps : m.opened.phaseSteps = .ok (steps, closing)) (hhalt : .halt ∉ steps.flatten) :
    (m.runUntil done (fuel + steps.length)).outcome =
      afterPhase done fuel closing (MicroOp.performAll m.opened steps.flatten) := by
  obtain ⟨ops, rest, rfl⟩ := List.exists_cons_of_ne_nil (ne_nil_of_phaseSteps hsteps)
  apply outcome_rest hdone fuel hhalt hrun hsteps
  rw [hsc]
  rfl

end

end Machine

end TrnComputer
