import Mathlib.Logic.Function.Iterate
import TrnComputer.Proofs.Machine.Calls
import TrnComputer.Proofs.Machine.Underway

/-! # The time of an input does not matter

An instruction that finds no value asks for one and waits. Until it gets one, no call changes
anything. When it has got one it goes on as if the value had been there before.

* `Machine.Waiting`: a machine that waits; `Waiting.answer`: every call leaves it as it is.
* `waiting_answer`: a call that comes to wait has asked once.
* `Journey`: a machine with what it has told and how it stood at the end of each instruction.
* `Fed`: a journey on which the next value is always at hand.
* `Tracks`, `Tracks.microStep`: every journey on which a value is supplied when the one before has
  been taken keeps abreast of the one that is fed.
* `input_timing`: a machine that waits stays as it is, and two journeys with the same values pass
  the same stations.
-/

namespace TrnComputer
set_option autoImplicit false

/-! ## Requests -/

/-- How often a value is asked for. -/
def requests (events : List Event) : Nat := events.count .inputRequested

/-- What is told besides requests. -/
def quiet (events : List Event) : List Event := events.filter (· ≠ .inputRequested)

@[simp] theorem requests_append (events more : List Event) :
    requests (events ++ more) = requests events + requests more :=
  List.count_append

@[simp] theorem quiet_append (events more : List Event) :
    quiet (events ++ more) = quiet events ++ quiet more :=
  List.filter_append _ _

theorem requests_of_inner {events : List Event} (h : ∀ e ∈ events, e.Inner) :
    requests events = 0 :=
  List.count_eq_zero.2 fun hmem => h _ hmem

namespace Machine

@[simp] theorem requests_openPhase (m : Machine) : requests m.openPhase.2 = 0 :=
  requests_of_inner fun e he => (m.routine_openPhase e he).inner

section
variable {m : Machine}

/-- A micro-step that neither takes an input nor waits for one has nothing to do with values from
outside. -/
theorem inner_microStep (h : ¬m.Asks) : ∀ e ∈ m.microStep.events, e.Inner := by
  by_cases hrun : m.status = .running
  · have hopening : ∀ e ∈ m.openPhase.2, e.Inner := fun e he => (m.routine_openPhase e he).inner
    have hops {steps : List (List MicroOp)} {closing : Closing} {after : Machine}
        {events : List Event} {stop : Option Stop}
        (hsteps : m.opened.phaseSteps = .ok (steps, closing))
        (hperformed : MicroOp.performAll m.opened
          (Microcode.stepAt steps m.opened.registers.sc) = (after, events, stop)) :
        ∀ e ∈ m.openPhase.2 ++ events, e.Inner := by
      have hinner := MicroOp.inner_performAll (fun hmem => h (asks_of_takeInput hsteps hmem))
        m.opened
      rw [hperformed] at hinner
      exact List.forall_mem_append.2 ⟨hopening, hinner⟩
    have hstepped := stepped_microStep hrun
    generalize m.microStep = act at hstepped ⊢
    cases hstepped with
    | undecodable => exact List.forall_mem_append.2 ⟨hopening, by simp [Event.Inner]⟩
    | awaits hsteps hperformed | halts hsteps hperformed => exact hops hsteps hperformed
    | faults hsteps hperformed =>
      exact List.forall_mem_append.2 ⟨hops hsteps hperformed, by simp [Event.Inner]⟩
    | counts hsteps hperformed =>
      exact List.forall_mem_append.2
        ⟨hops hsteps hperformed, fun e he => (routine_count _ _ e he).inner⟩
    | closes hsteps hperformed =>
      exact List.forall_mem_append.2
        ⟨hops hsteps hperformed, fun e he => (routine_close _ _ e he).inner⟩
  · simp [microStep_of_not_running hrun]

/-! ## Waiting -/

/-- A value has been asked for and has not come. -/
def waits (m : Machine) : Bool := m.awaitsInput && m.input.isNone

/-- An instruction has begun and waits for a value. -/
structure Waiting (m : Machine) : Prop where
  running : m.status = .running
  asks : m.Asks
  inside : m.phaseOpen = true
  waits : m.waits = true

theorem asks_of_awaits (h : m.microStep.result = .ok .awaitsInput) :
    m.status = .running ∧ m.Asks ∧ m.input = none := by
  have hrun := running_of_ok h
  have hasks : m.Asks := by
    have hstepped := stepped_microStep hrun
    generalize m.microStep = act at hstepped h
    cases hstepped with
    | awaits hsteps hops => exact asks_of_takeInput hsteps (MicroOp.takeInput_mem_of_awaits hops)
    | undecodable | faults | halts | counts | closes => cases h
  refine ⟨hrun, hasks, ?_⟩
  cases hinput : m.input with
  | none => rfl
  | some value => simp [microStep_of_asks_some hrun hasks hinput] at h

theorem waiting_asked (hrun : m.status = .running) (hasks : m.Asks) (hinput : m.input = none) :
    m.asked.Waiting where
  running := (status_asked m).trans hrun
  asks := hasks.asked
  inside := phaseOpen_asked m
  waits := by
    rw [Machine.waits, input_asked, hinput]
    rfl

/-- A machine that comes to wait, or has waited before, has asked once. -/
theorem waiting_of_awaits (h : m.microStep.result = .ok .awaitsInput) :
    m.microStep.machine.Waiting ∧ requests m.microStep.events = if m.waits then 0 else 1 := by
  obtain ⟨hrun, hasks, hinput⟩ := asks_of_awaits h
  rw [microStep_of_asks_none hrun hasks hinput]
  refine ⟨waiting_asked hrun hasks hinput, ?_⟩
  rw [requests_append, requests_openPhase]
  cases hwish : m.awaitsInput <;> simp [waits, hwish, hinput, requests]

/-- A machine that goes on has not waited, asks for nothing and does not wait. -/
theorem requests_of_proceeds (h : m.WellFormed) (hproceeds : m.microStep.result = .ok .proceeds) :
    m.waits = false ∧ requests m.microStep.events = 0 ∧ m.microStep.machine.waits = false := by
  have hrun := running_of_ok hproceeds
  have hafter : m.microStep.machine.waits = false := by
    have hprogressed := progressed_microStep h hrun
    rw [hproceeds] at hprogressed
    cases hprogressed with
    | counts _ hwish | closes _ hwish => rw [waits, hwish, Bool.false_and]
  by_cases hasks : m.Asks
  · cases hinput : m.input with
    | none => simp [microStep_of_asks_none hrun hasks hinput] at hproceeds
    | some value =>
      refine ⟨by simp [waits, hinput], ?_, hafter⟩
      rw [microStep_of_asks_some hrun hasks hinput, requests_append, requests_openPhase]
      simp [requests, loadedEvents, movedEvents]
  · refine ⟨?_, requests_of_inner (inner_microStep hasks), hafter⟩
    cases hwish : m.awaitsInput with
    | false => rw [waits, hwish, Bool.false_and]
    | true =>
      obtain ⟨hf, hsc, -, i, hdecode, hi⟩ := h.awaiting hrun hwish
      exact absurd ⟨hf, hsc, i, hdecode, hi⟩ hasks

theorem waiting_runUntil {done : Machine → Bool} {fuel : Nat} (h : m.WellFormed)
    (hwaits : (m.runUntil done fuel).result = .ok .awaitsInput) :
    (m.runUntil done fuel).machine.Waiting ∧
      requests (m.runUntil done fuel).events = if m.waits then 0 else 1 := by
  induction fuel generalizing m with
  | zero => cases hwaits
  | succ fuel ih =>
    obtain hgo | hlast := goesOn_or_ends done m
    · obtain ⟨hbefore, hnone, hafter⟩ := requests_of_proceeds h hgo.1
      rw [runUntil_of_proceeds fuel hgo.1 hgo.2] at hwaits ⊢
      obtain ⟨hwaiting, hasked⟩ := ih (wellFormed_microStep h).1 hwaits
      refine ⟨hwaiting, ?_⟩
      rw [Activity.after, requests_append, hnone, hasked, hbefore, hafter]
      rfl
    · rw [runUntil_of_stop fuel hlast] at hwaits ⊢
      exact waiting_of_awaits hwaits

/-- A call that comes to wait has asked once, however many inputs it has taken before. -/
theorem waiting_answer (h : m.WellFormed) {call : Call}
    (hwaits : (m.answer call).result = .ok .awaitsInput) :
    (m.answer call).machine.Waiting ∧
      requests (m.answer call).events = if m.waits then 0 else 1 := by
  cases call with
  | microStep => exact waiting_of_awaits hwaits
  | stepPhase | stepInstruction | run more => exact waiting_runUntil h hwaits
  | runLimited phases =>
    simp only [answer, runLimited] at hwaits ⊢
    split at hwaits
    · cases hwaits
    · next hlimit =>
      rw [if_neg hlimit]
      exact waiting_runUntil h hwaits

/-- A machine that waits still waits after a micro-step, as it was. -/
theorem Waiting.microStep (h : m.Waiting) :
    m.microStep = ⟨m, .ok .awaitsInput, [], m.beginReports⟩ := by
  obtain ⟨hwish, hinput⟩ := Bool.and_eq_true_iff.1 h.waits
  have hsame : m.asked = m := by
    rw [asked, opened_of_open h.inside, ← hwish]
  rw [microStep_of_asks_none h.running h.asks (Option.isNone_iff_eq_none.1 hinput),
    openPhase_of_open h.inside, opened_of_open h.inside, if_pos hwish, hsame]
  rfl

/-- A micro-step first tells that a phase begins. -/
theorem openPhase_prefix (hrun : m.status = .running) : m.openPhase.2 <+: m.microStep.events := by
  have hstepped := stepped_microStep hrun
  generalize m.microStep = act at hstepped ⊢
  cases hstepped with
  | undecodable | awaits | halts => exact List.prefix_append _ _
  | faults | counts | closes => exact (List.prefix_append _ _).trans (List.prefix_append _ _)

/-- When the value has come, an instruction that has asked for it does what is left of the
micro-step with which it would have taken the value. -/
theorem microStep_asked_some (hrun : m.status = .running) (hasks : m.Asks) (value : Nat) :
    (m.asked.withInput (some value)).microStep.machine =
        (m.withInput (some value)).microStep.machine ∧
      m.openPhase.2 ++ (m.asked.withInput (some value)).microStep.events =
        (m.withInput (some value)).microStep.events := by
  have hopen : (m.asked.withInput (some value)).phaseOpen = true := phaseOpen_asked m
  have hclock : (m.asked.withInput (some value)).registers.clock = m.opened.registers.clock := rfl
  have hlate := microStep_of_asks_some (m := m.asked.withInput (some value))
    ((status_asked m).trans hrun) hasks.asked rfl
  have hearly := microStep_of_asks_some (m := m.withInput (some value)) hrun hasks rfl
  rw [hlate, hearly]
  refine ⟨loaded_asked m _ value, ?_⟩
  simp only [openPhase_of_open hopen, (aside_withInput _).openPhase m, loadedEvents, movedEvents,
    opened_of_open hopen, opened_withInput, hclock]
  rfl

theorem Waiting.answer (h : m.Waiting) (call : Call) :
    m.answer call = ⟨m, .ok .awaitsInput, [], m.beginReports⟩ := by
  rw [answer_of_standstill h.inside (by simp [h.microStep]) call, h.microStep]

theorem Waiting.attendAll (h : m.Waiting) (calls : List Call) :
    m.attendAll (calls.map .call) = m := by
  refine List.foldlRecOn (motive := (· = m)) _ attend rfl fun n hn errand hmem => ?_
  obtain ⟨call, -, rfl⟩ := List.mem_map.1 hmem
  rw [hn]
  exact congrArg Activity.machine (h.answer call)

end

/-! ## Micro-steps of a call -/

/-- How many micro-steps a run does. -/
def paceUntil (done : Machine → Bool) : Nat → Machine → Nat
  | 0, _ => 0
  | fuel + 1, m =>
    match m.microStep.result with
    | .ok .proceeds =>
      if done m.microStep.machine then 1 else paceUntil done fuel m.microStep.machine + 1
    | _ => 1

/-- How many micro-steps a call does. -/
def pace (m : Machine) : Call → Nat
  | .microStep => 1
  | .stepPhase => m.paceUntil atBoundary 4
  | .stepInstruction => m.paceUntil atInstruction 10
  | .run more => m.paceUntil (fun _ => false) (more + 1)
  | .runLimited phases =>
    let limit := m.registers.clock + phases
    if m.reached limit then 0 else m.paceUntil (reached limit) (4 * phases + 4)

end Machine

namespace Machine
variable (m : Machine) (i : Option Nat)

@[simp] theorem status_withInput : (m.withInput i).status = m.status := rfl

@[simp] theorem atInstruction_withInput : (m.withInput i).atInstruction = m.atInstruction := rfl

theorem withInput_input : m.withInput m.input = m := rfl

end Machine

/-! ## Journeys -/

/-- How a machine stands at the end of an instruction, apart from a value that has been supplied,
and what it has told so far, apart from requests. -/
structure Station where
  machine : Machine
  told : List Event

/-- A machine with what it has told and the ends of the instructions that it has carried out. -/
structure Journey where
  machine : Machine
  events : List Event := []
  stations : List Station := []

namespace Journey

/-- Goes on by a micro-step. A running machine that comes to the end of an instruction, or stops
inside one, is a station. -/
def advance (j : Journey) (act : Activity) : Journey where
  machine := act.machine
  events := j.events ++ act.events
  stations :=
    if j.machine.status = .running ∧
        (act.machine.atInstruction = true ∨ act.machine.status ≠ .running) then
      j.stations ++ [⟨act.machine.withInput none, quiet (j.events ++ act.events)⟩]
    else j.stations

def microStep (j : Journey) : Journey := j.advance j.machine.microStep

def attend (j : Journey) : Errand → Journey
  | .call call => microStep^[j.machine.pace call] j
  | .supply value => { j with machine := j.machine.supply value }

def attendAll (j : Journey) (errands : List Errand) : Journey := errands.foldl attend j

/-- A call is the micro-steps it does. -/
theorem runUntil_eq (done : Machine → Bool) (fuel : Nat) (j : Journey) :
    (microStep^[j.machine.paceUntil done fuel] j).machine = (j.machine.runUntil done fuel).machine ∧
      (microStep^[j.machine.paceUntil done fuel] j).events =
        j.events ++ (j.machine.runUntil done fuel).events := by
  induction fuel generalizing j with
  | zero => exact ⟨rfl, (List.append_nil _).symm⟩
  | succ fuel ih =>
    obtain hgo | hlast := Machine.goesOn_or_ends done j.machine
    · have hpace : j.machine.paceUntil done (fuel + 1) =
          j.microStep.machine.paceUntil done fuel + 1 := by
        simp only [Machine.paceUntil, hgo.1, hgo.2]
        rfl
      rw [Machine.runUntil_of_proceeds fuel hgo.1 hgo.2, hpace, Function.iterate_succ_apply]
      obtain ⟨hmachine, hevents⟩ := ih j.microStep
      exact ⟨hmachine, hevents.trans (List.append_assoc _ _ _)⟩
    · have hpace : j.machine.paceUntil done (fuel + 1) = 1 := by
        simp only [Machine.paceUntil]
        split
        · next hproceeds => rw [if_pos (hlast hproceeds)]
        · rfl
      rw [Machine.runUntil_of_stop fuel hlast, hpace]
      exact ⟨rfl, rfl⟩

theorem answer_eq (j : Journey) (call : Call) :
    (j.attend (.call call)).machine = (j.machine.answer call).machine ∧
      (j.attend (.call call)).events = j.events ++ (j.machine.answer call).events := by
  cases call with
  | microStep => exact ⟨rfl, rfl⟩
  | stepPhase | stepInstruction | run more => exact runUntil_eq _ _ j
  | runLimited phases =>
    simp only [attend, Machine.pace, Machine.answer, Machine.runLimited]
    split
    · exact ⟨rfl, (List.append_nil _).symm⟩
    · exact runUntil_eq _ _ j

/-- What has come on the way of one journey has come on the way of another. -/
structure Within (j k : Journey) : Prop where
  stations : j.stations <+: k.stations
  told : quiet j.events <+: quiet k.events

theorem Within.refl (j : Journey) : j.Within j := ⟨List.prefix_rfl, List.prefix_rfl⟩

theorem Within.trans {j k l : Journey} (h : j.Within k) (hl : k.Within l) : j.Within l :=
  ⟨h.stations.trans hl.stations, h.told.trans hl.told⟩

theorem within_advance (j : Journey) (act : Activity) : j.Within (j.advance act) := by
  refine ⟨?_, List.IsPrefix.filter _ (List.prefix_append _ _)⟩
  unfold advance
  split
  · exact List.prefix_append _ _
  · exact List.prefix_rfl

theorem advance_stations {j k : Journey} {act other : Activity}
    (hstatus : j.machine.status = k.machine.status) (hstations : j.stations = k.stations)
    (hmachine : act.machine.withInput none = other.machine.withInput none)
    (htold : quiet (j.events ++ act.events) = quiet (k.events ++ other.events)) :
    (j.advance act).stations = (k.advance other).stations := by
  have hat : (act.machine.withInput none).atInstruction =
      (other.machine.withInput none).atInstruction := by rw [hmachine]
  have hafter : (act.machine.withInput none).status = (other.machine.withInput none).status := by
    rw [hmachine]
  simp only [Machine.atInstruction_withInput, Machine.status_withInput] at hat hafter
  simp only [advance, hstatus, hstations, hmachine, htold, hat, hafter]

end Journey

/-! ## Journeys that are fed -/

/-- A journey with values at hand. The next is supplied for each micro-step, and taken back if the
micro-step leaves it. -/
structure Fed where
  journey : Journey
  left : List Nat

def Fed.microStep (f : Fed) : Fed :=
  let act := (f.journey.machine.withInput f.left.head?).microStep
  { journey := f.journey.advance { act with machine := act.machine.withInput none }
    left := act.machine.input.toList ++ f.left.tail }

theorem Journey.within_microSteps (j : Journey) (n : Nat) : j.Within (Journey.microStep^[n] j) := by
  induction n with
  | zero => exact .refl _
  | succ n ih =>
    rw [Function.iterate_succ_apply']
    exact ih.trans (Journey.within_advance _ _)

theorem Fed.within_microSteps (f : Fed) (n : Nat) :
    f.journey.Within (Fed.microStep^[n] f).journey := by
  induction n with
  | zero => exact .refl _
  | succ n ih =>
    rw [Function.iterate_succ_apply']
    exact ih.trans (Journey.within_advance _ _)

/-- How a journey stands to one that is fed. -/
inductive Abreast (j k : Journey) : Prop
  | even (hmachine : j.machine.withInput none = k.machine) (htold : quiet j.events = quiet k.events)
  /-- It waits for a value that the other has at hand. -/
  | behind (hrun : k.machine.status = .running) (hasks : k.machine.Asks)
    (hmachine : j.machine.withInput none = k.machine.asked)
    (htold : quiet j.events = quiet k.events ++ quiet k.machine.openPhase.2)

/-- A journey to which the values `coming` are still to be supplied keeps abreast of one that has
them at hand. -/
structure Tracks (coming : List Nat) (j : Journey) (f : Fed) : Prop where
  left : f.left = j.machine.input.toList ++ coming
  stations : j.stations = f.journey.stations
  abreast : Abreast j f.journey

section
variable {coming : List Nat} {j : Journey} {f : Fed}

/-- Two micro-steps that come to the same lead from one place to one place. -/
theorem tracks_of_same (hstatus : j.machine.status = f.journey.machine.status)
    (hstations : j.stations = f.journey.stations)
    (hmachine : j.machine.microStep.machine.withInput none =
      (f.journey.machine.withInput f.left.head?).microStep.machine.withInput none)
    (htold : quiet (j.events ++ j.machine.microStep.events) =
      quiet (f.journey.events ++ (f.journey.machine.withInput f.left.head?).microStep.events))
    (hleft : (f.journey.machine.withInput f.left.head?).microStep.machine.input.toList ++
      f.left.tail = j.machine.microStep.machine.input.toList ++ coming) :
    Tracks coming j.microStep f.microStep :=
  ⟨hleft, Journey.advance_stations hstatus hstations hmachine htold, .even hmachine htold⟩

/-- A journey that begins to wait, or goes on waiting, for a value that the other has at hand. -/
theorem tracks_of_awaits (h : Tracks coming j f) (hcoming : coming ≠ [])
    (hrun : f.journey.machine.status = .running) (hasks : f.journey.machine.Asks)
    (hpending : j.machine.input = none)
    (hmachine : j.machine.microStep.machine = f.journey.machine.asked)
    (hinput : f.journey.machine.input = none)
    (htold : quiet (j.events ++ j.machine.microStep.events) =
      quiet f.journey.events ++ quiet f.journey.machine.openPhase.2) :
    coming ≠ [] ∧ Tracks coming j.microStep f := by
  have hleft := h.left
  rw [hpending] at hleft
  refine ⟨hcoming, ⟨?_, ?_, .behind hrun hasks ?_ htold⟩⟩
  · simp [Journey.microStep, Journey.advance, hmachine, hinput, hleft]
  · rw [← h.stations]
    simp [Journey.microStep, Journey.advance, hmachine, hrun,
      Machine.atInstruction_of_open (Machine.phaseOpen_asked _)]
  · change j.machine.microStep.machine.withInput none = _
    rw [hmachine, ← hinput, ← Machine.input_asked, Machine.withInput_input]

/-- A journey that comes to a micro-step at the same time. -/
theorem Tracks.microStep_of_even (h : Tracks coming j f)
    (hmachine : j.machine.withInput none = f.journey.machine)
    (htold : quiet j.events = quiet f.journey.events) :
    Tracks coming j.microStep f.microStep ∨ (coming ≠ [] ∧ Tracks coming j.microStep f) := by
  have hj : j.machine = f.journey.machine.withInput j.machine.input := by
    rw [← hmachine]
    rfl
  have hinput : f.journey.machine.input = none := by rw [← hmachine]; rfl
  have hstatus : j.machine.status = f.journey.machine.status := by rw [hj, Machine.status_withInput]
  have hleft := h.left
  generalize hpending : j.machine.input = pending at hj hleft
  by_cases hsame : f.left.head? = pending
  · -- Both have the same value at hand, or none.
    have hacts : j.machine.microStep = (f.journey.machine.withInput f.left.head?).microStep := by
      rw [hj, hsame]
    have htail : f.left.tail = coming := by
      cases pending with
      | some value => rw [hleft]; rfl
      | none =>
        have hnil : f.left = [] := List.head?_eq_none_iff.1 hsame
        rw [hleft] at hnil ⊢
        rw [hnil]
        exact hnil.symm
    exact .inl (tracks_of_same hstatus h.stations (by rw [hacts]) (by simp [hacts, htold])
      (by rw [hacts, htail]))
  · have hnone : pending = none := by
      cases pending with
      | none => rfl
      | some value => exact absurd (by rw [hleft]; rfl) hsame
    subst hnone
    obtain ⟨value, rest, rfl⟩ : ∃ value rest, coming = value :: rest := by
      cases coming with
      | nil => exact absurd (by rw [hleft]; rfl) hsame
      | cons value rest => exact ⟨value, rest, rfl⟩
    rw [hleft] at hsame
    by_cases htakes : f.journey.machine.status = .running → ¬f.journey.machine.Asks
    · have hacts := Machine.microStep_withInput htakes
      refine .inl (tracks_of_same hstatus h.stations ?_ ?_ ?_)
      · rw [hj, hacts, hacts]
        rfl
      · rw [hj, hacts, hacts, quiet_append, quiet_append, htold]
      · rw [hj, hacts, hacts, hleft]
        rfl
    · obtain ⟨hrun, hnot⟩ := Classical.not_imp.1 htakes
      have hasks := Classical.not_not.1 hnot
      have hact := Machine.microStep_of_asks_none hrun hasks hinput
      have hsame : j.machine = f.journey.machine := by
        rw [hj, ← hinput, Machine.withInput_input]
      refine .inr (tracks_of_awaits h (List.cons_ne_nil _ _) hrun hasks hpending ?_ hinput ?_)
      · rw [hsame, hact]
      · rw [hsame, hact, quiet_append, quiet_append, htold]
        split <;> simp [quiet]

/-- A journey that waits for a value that the other has at hand. -/
theorem Tracks.microStep_of_behind (h : Tracks coming j f)
    (hrun : f.journey.machine.status = .running) (hasks : f.journey.machine.Asks)
    (hmachine : j.machine.withInput none = f.journey.machine.asked)
    (htold : quiet j.events = quiet f.journey.events ++ quiet f.journey.machine.openPhase.2) :
    Tracks coming j.microStep f.microStep ∨ (coming ≠ [] ∧ Tracks coming j.microStep f) := by
  have hj : j.machine = f.journey.machine.asked.withInput j.machine.input := by
    rw [← hmachine]
    rfl
  have hinput : f.journey.machine.input = none := by
    rw [← Machine.input_asked, ← hmachine]
    rfl
  have hstatus : j.machine.status = f.journey.machine.status := by
    rw [hj, Machine.status_withInput, Machine.status_asked]
  have hleft := h.left
  cases hpending : j.machine.input with
  | some value =>
    rw [hpending] at hj hleft
    have hhead : f.left.head? = some value := by
      rw [hleft]
      rfl
    obtain ⟨hafter, hevents⟩ := Machine.microStep_asked_some hrun hasks value
    refine .inl (tracks_of_same hstatus h.stations ?_ ?_ ?_)
    · rw [hj, hhead, hafter]
    · rw [hj, hhead, ← hevents, quiet_append, htold, quiet_append, quiet_append, List.append_assoc]
    · rw [hj, hhead, hafter, hleft]
      rfl
  | none =>
    rw [hpending] at hj hleft
    have hsame : j.machine = f.journey.machine.asked := by
      rw [hj, ← hinput, ← Machine.input_asked, Machine.withInput_input]
    have hact := (Machine.waiting_asked hrun hasks hinput).microStep
    rw [← hsame] at hact
    by_cases hcoming : coming = []
    · have hact' := Machine.microStep_of_asks_none hrun hasks hinput
      have hother : f.journey.machine.withInput f.left.head? = f.journey.machine := by
        have hhead : f.left.head? = f.journey.machine.input := by
          rw [hleft, hcoming, hinput]
          rfl
        rw [hhead, Machine.withInput_input]
      refine .inl (tracks_of_same hstatus h.stations ?_ ?_ ?_)
      · rw [hact, hother, hact', hsame]
      · rw [hact, hother, hact', List.append_nil, htold, quiet_append, quiet_append]
        split <;> simp [quiet]
      · rw [hact, hother, hact', hleft, hcoming, hsame]
        rfl
    · refine .inr (tracks_of_awaits h hcoming hrun hasks hpending ?_ hinput ?_)
      · rw [hact, hsame]
      · rw [hact, List.append_nil, htold]

/-- A micro-step keeps abreast, unless it waits for a value that is still to be supplied. -/
theorem Tracks.microStep (h : Tracks coming j f) :
    Tracks coming j.microStep f.microStep ∨ (coming ≠ [] ∧ Tracks coming j.microStep f) := by
  obtain ⟨hmachine, htold⟩ | ⟨hrun, hasks, hmachine, htold⟩ := h.abreast
  · exact h.microStep_of_even hmachine htold
  · exact h.microStep_of_behind hrun hasks hmachine htold

theorem Tracks.microSteps (h : Tracks coming j f) (n : Nat) :
    ∃ p, Tracks coming (Journey.microStep^[n] j) (Fed.microStep^[p] f) := by
  induction n with
  | zero => exact ⟨0, h⟩
  | succ n ih =>
    obtain ⟨p, hp⟩ := ih
    rw [Function.iterate_succ_apply']
    obtain hnext | ⟨-, hnext⟩ := hp.microStep
    · exact ⟨p + 1, by rw [Function.iterate_succ_apply']; exact hnext⟩
    · exact ⟨p, hnext⟩

/-- When all values have been supplied, nothing is waited for that the other has. -/
theorem Tracks.microSteps_of_supplied (h : Tracks [] j f) (n : Nat) :
    Tracks [] (Journey.microStep^[n] j) (Fed.microStep^[n] f) := by
  induction n with
  | zero => exact h
  | succ n ih =>
    rw [Function.iterate_succ_apply', Function.iterate_succ_apply']
    obtain hnext | ⟨hcoming, -⟩ := ih.microStep
    · exact hnext
    · exact absurd rfl hcoming

theorem Tracks.supply {value : Nat} (h : Tracks (Word.significant value :: coming) j f)
    (hinput : j.machine.input = none) : Tracks coming (j.attend (.supply value)) f := by
  have hleft := h.left
  rw [hinput] at hleft
  refine ⟨hleft, h.stations, ?_⟩
  obtain ⟨hmachine, htold⟩ | ⟨hrun, hasks, hmachine, htold⟩ := h.abreast
  · exact .even hmachine htold
  · exact .behind hrun hasks hmachine htold

/-- One micro-step further, the journey that is fed has passed all that the other has. -/
theorem Tracks.within (h : Tracks coming j f) : j.Within f.microStep.journey := by
  have hstations : j.stations <+: f.microStep.journey.stations :=
    h.stations ▸ (Journey.within_advance _ _).stations
  refine ⟨hstations, ?_⟩
  obtain ⟨-, htold⟩ | ⟨hrun, hasks, -, htold⟩ := h.abreast
  · exact htold ▸ (Journey.within_advance _ _).told
  · obtain ⟨events, hevents⟩ :=
      Machine.openPhase_prefix (m := f.journey.machine.withInput f.left.head?) hrun
    rw [(Machine.aside_withInput _).openPhase] at hevents
    refine ⟨quiet events, ?_⟩
    change _ = quiet
      (f.journey.events ++ (f.journey.machine.withInput f.left.head?).microStep.events)
    rw [← hevents, htold, quiet_append, quiet_append, List.append_assoc]

/-- It has passed nothing that the other has not. -/
theorem Tracks.within' (h : Tracks coming j f) : f.journey.Within j := by
  refine ⟨h.stations ▸ List.prefix_rfl, ?_⟩
  obtain ⟨-, htold⟩ | ⟨-, -, -, htold⟩ := h.abreast
  · exact htold ▸ List.prefix_rfl
  · exact htold ▸ List.prefix_append _ _

end

/-! ## Errands -/

/-- The values supplied, of which the low 20 bits count. -/
def given (errands : List Errand) : List Nat :=
  errands.filterMap fun errand =>
    match errand with
    | .supply value => some (Word.significant value)
    | .call _ => none

namespace Machine

/-- Each value is supplied after the one before has been taken. -/
def Timely : Machine → List Errand → Prop
  | _, [] => True
  | m, errand :: rest =>
    (∀ value, errand = .supply value → m.input = none) ∧ Timely (m.attend errand) rest

/-- The way of a machine on which errands are attended to. -/
def journey (m : Machine) (errands : List Errand) : Journey :=
  Journey.attendAll { machine := m } errands

end Machine

theorem Tracks.attendAll {coming : List Nat} {errands : List Errand} {j : Journey} {f : Fed}
    (h : Tracks (given errands ++ coming) j f) (htimely : j.machine.Timely errands) :
    ∃ p, Tracks coming (j.attendAll errands) (Fed.microStep^[p] f) := by
  induction errands generalizing j f with
  | nil => exact ⟨0, h⟩
  | cons errand rest ih =>
    obtain ⟨hsupply, hrest⟩ := htimely
    cases errand with
    | supply value => exact ih (h.supply (hsupply value rfl)) hrest
    | call call =>
      obtain ⟨p, hp⟩ := Tracks.microSteps h (j.machine.pace call)
      have hrest : (j.attend (.call call)).machine.Timely rest := by
        rw [(j.answer_eq call).1]
        exact hrest
      obtain ⟨q, hq⟩ := ih hp hrest
      exact ⟨q + p, by rw [Function.iterate_add_apply]; exact hq⟩

namespace Machine
variable {m : Machine}

theorem journey_eq (m : Machine) (errands : List Errand) :
    (m.journey errands).machine = m.attendAll errands := by
  suffices h : ∀ j : Journey, (j.attendAll errands).machine = j.machine.attendAll errands from h _
  induction errands with
  | nil => exact fun _ => rfl
  | cons errand rest ih =>
    intro j
    refine (ih (j.attend errand)).trans (congrArg (attendAll · rest) ?_)
    cases errand with
    | call call => exact (j.answer_eq call).1
    | supply value => rfl

theorem journey_append (m : Machine) (errands : List Errand) (n : Nat) :
    m.journey (errands ++ List.replicate n (.call .microStep)) =
      Journey.microStep^[n] (m.journey errands) := by
  have happend : m.journey (errands ++ List.replicate n (.call .microStep)) =
      (m.journey errands).attendAll (List.replicate n (.call .microStep)) := List.foldl_append
  rw [happend]
  clear happend
  generalize m.journey errands = j
  induction n generalizing j with
  | zero => rfl
  | succ n ih => exact ih j.microStep

/-- What comes on one journey comes on every other on which the same values are supplied, and on
which the machine is driven on far enough. -/
theorem journey_within {errands others : List Errand} (hinput : m.input = none)
    (htimely : m.Timely errands) (hothers : m.Timely others)
    (hgiven : given errands <+: given others) :
    ∃ n, (m.journey errands).Within
      (m.journey (others ++ List.replicate n (.call .microStep))) := by
  obtain ⟨coming, hcoming⟩ := hgiven
  let fed : Fed := ⟨{ machine := m }, given others⟩
  have hstart : Tracks (given others) { machine := m } fed := by
    refine ⟨?_, rfl, .even ?_ rfl⟩
    · rw [hinput]
      rfl
    · rw [← hinput, withInput_input]
  obtain ⟨p, hp⟩ := Tracks.attendAll (hcoming ▸ hstart) htimely
  have hwhole : Tracks (given others ++ []) { machine := m } fed := by rwa [List.append_nil]
  obtain ⟨q, hq⟩ := hwhole.attendAll hothers
  have hsame : Fed.microStep^[p + 1] (Fed.microStep^[q] fed) =
      Fed.microStep^[q] (Fed.microStep^[p] fed).microStep := by
    rw [← Function.iterate_add_apply, Nat.add_comm, Function.iterate_add_apply,
      Function.iterate_succ_apply']
  have hfar := hq.microSteps_of_supplied (p + 1)
  rw [hsame] at hfar
  refine ⟨p + 1, ?_⟩
  rw [journey_append]
  exact hp.within.trans ((Fed.within_microSteps _ q).trans hfar.within')

/-- The time of an input does not matter. A machine whose call comes to wait has asked once, and
however it is called then, it waits as it is and tells nothing. Of two journeys on which each value
is supplied after the one before has been taken, and the values of the one begin those of the other,
each passes the stations of the other as far as it gets, and tells what the other tells besides
requests; and the other comes as far, if it is driven on. -/
theorem input_timing {memory : Memory} {demands : List Demand}
    (hm : (ofMemory memory).meetAll demands = m) :
    (∀ call, (m.answer call).result = .ok .awaitsInput →
      requests (m.answer call).events = (if m.waits then 0 else 1) ∧
        ∀ calls : List Call,
          (m.answer call).machine.attendAll (calls.map .call) = (m.answer call).machine ∧
          ∀ next, (m.answer call).machine.answer next =
            ⟨(m.answer call).machine, .ok .awaitsInput, [], (m.answer call).machine.beginReports⟩) ∧
    ∀ errands others, m.input = none → m.Timely errands → m.Timely others →
      given errands <+: given others →
      let here := m.journey errands
      let there := m.journey others
      (here.stations <+: there.stations ∨ there.stations <+: here.stations) ∧
        (quiet here.events <+: quiet there.events ∨ quiet there.events <+: quiet here.events) ∧
        ∃ n, here.Within (m.journey (others ++ List.replicate n (.call .microStep))) := by
  have hdriven := (driven_ofMemory memory).meetAll demands
  rw [hm] at hdriven
  refine ⟨fun call hwaits => ?_, fun errands others hinput htimely hothers hgiven => ?_⟩
  · obtain ⟨hwaiting, hasked⟩ := waiting_answer hdriven.wellFormed hwaits
    exact ⟨hasked, fun calls => ⟨hwaiting.attendAll calls, hwaiting.answer⟩⟩
  · obtain ⟨n, hwithin⟩ := journey_within hinput htimely hothers hgiven
    have hlater := Journey.within_microSteps (m.journey others) n
    rw [← journey_append] at hlater
    exact ⟨List.prefix_or_prefix_of_prefix hwithin.stations hlater.stations,
      List.prefix_or_prefix_of_prefix hwithin.told hlater.told, n, hwithin⟩

/-- A program that takes a value, puts it out and stops. It comes to the same whether it has to wait
for the value or not. -/
theorem input_timing_echo :
    let m := ofMemory (.ofList [29 * 2 ^ 15, 29 * 2 ^ 15 + 1, 31 * 2 ^ 15])
    let early := [Errand.supply 5, .call (.run 20)]
    let late :=
      [Errand.call (.run 20), .call (.runLimited 0), .supply (2 ^ 20 + 5), .call (.run 20)]
    (m.answer (.run 20)).result = .ok .awaitsInput ∧ requests (m.answer (.run 20)).events = 1 ∧
      (m.answer (.run 20)).machine.attendAll [.call .stepPhase, .call (.runLimited 0)] =
        (m.answer (.run 20)).machine ∧
      (m.journey early).machine.status = .halted ∧
      ∃ n, (m.journey early).Within (m.journey (late ++ List.replicate n (.call .microStep))) := by
  intro m early late
  have hwaits : (m.answer (.run 20)).result = .ok .awaitsInput := by decide
  have hearly : m.Timely early := ⟨fun _ _ => rfl, nofun, trivial⟩
  have hlate : m.Timely late := ⟨nofun, nofun, fun _ _ => by decide, nofun, trivial⟩
  have hm : (ofMemory m.memory).meetAll [] = m := rfl
  obtain ⟨hwaiting, hjourneys⟩ := input_timing hm
  obtain ⟨hasked, hstays⟩ := hwaiting _ hwaits
  obtain ⟨-, -, hwithin⟩ := hjourneys early late rfl hearly hlate List.prefix_rfl
  have hhalted : (m.journey early).machine.status = .halted := by
    rw [journey_eq]
    decide
  exact ⟨hwaits, hasked, (hstays [.stepPhase, .runLimited 0]).1, hhalted, hwithin⟩

end Machine

end TrnComputer
