import TrnComputer.Control.Controller
import TrnComputer.Proofs.Control.Bare

/-! # The controller does not show

However a run is paused, resumed, stepped, delayed and supplied with input, the machine of the
worker is one on its own that is given the same inputs.

* `Turn`, `Course`: what happens to a run, and what has come of it.
* `Follows`: the machine of the worker is the machine on its own after `n` micro-steps.
* `Follows.run`: this holds throughout a run.
* `controller_transparent`: what can be said of runs without mentioning the controller.
-/

namespace TrnComputer
set_option autoImplicit false

/-- What happens next: a call of the controller or a move of the worker. -/
inductive Turn
  | pause
  | resume
  | step
  | setInput (value : Nat)
  | setDelay (delay : Nat)
  | move

/-- A controller, with the events that its worker has delivered and the inputs that it has taken. -/
structure Course where
  controller : Controller
  events : List Event := []
  taken : List Nat := []

/-- The value that the next move of the worker takes from the slot, if it takes one. -/
def Controller.taking (c : Controller) : Option Nat :=
  match c.worker with
  | none => none
  | some w =>
    match w.point with
    | .reading | .starved true => c.panel.slot.value?
    | _ => none

namespace Course

/-- What has come of a run after one more turn. -/
def after (s : Course) : Turn → Course
  | .pause => { s with controller := s.controller.pause }
  | .resume => { s with controller := s.controller.resume }
  | .step => { s with controller := s.controller.step.1 }
  | .setInput value => { s with controller := s.controller.setInput value }
  | .setDelay delay => { s with controller := s.controller.setDelay delay }
  | .move =>
    match s.controller.move? with
    | none => s
    | some (c, events) =>
      ⟨c, s.events ++ events, s.taken ++ s.controller.taking.toList⟩

def run (s : Course) (turns : List Turn) : Course := turns.foldl after s

/-- The run of a controller that has just been started. -/
def ofStarted (c : Controller) (turns : List Turn) : Course := run { controller := c } turns

/-- The worker of a run has the machine on its own after `n` micro-steps, and the same events have
been delivered. -/
structure Shows (s : Course) (memory : Memory) (w : Worker) (n : Nat) : Prop where
  worker : s.controller.worker = some w
  machine : w.machine = (bare memory s.taken n).machine
  events : s.events = (bare memory s.taken n).events

/-- A run has finished. -/
def Finished (s : Course) (w : Worker) (r : Except MachineError Termination) : Prop :=
  s.controller.worker = some w ∧ w.point = .finished r

end Course

/-! ## Following a machine on its own -/

/-- A point of the worker fits the last micro-step of the machine. -/
def Point.Fits (limit : Option Nat) (b : Bare) : Point → Prop
  | .checkpoint | .held _ | .boundary | .ready => b.result = .ok .proceeds
  | .reading | .starved _ => b.result = .ok .awaitsInput
  | .finished r => b.verdict limit = some r

/-- The worker has got as far as the machine on its own after `n` micro-steps, with the inputs that
it has taken for answers. -/
structure Follows (memory : Memory) (limit : Option Nat) (listeners : List Listener) (s : Course)
    (w : Worker) (n : Nat) : Prop where
  worker : s.controller.worker = some w
  calm : s.controller.panel.interrupted = false
  limited : w.limit = limit
  machine : w.machine = (bare memory s.taken n).machine
  answered : (bare memory s.taken n).answers = []
  events : s.events = (bare memory s.taken n).events
  heard : w.listeners = listeners.map (·.hear s.events)
  point : w.point.Fits limit (bare memory s.taken n)
  before : ∀ k < n, (bare memory s.taken k).result = .ok .proceeds ∧
    (bare memory s.taken k).verdict limit = none

section
variable {memory : Memory} {limit : Option Nat} {listeners : List Listener} {s : Course}
  {w : Worker} {n : Nat}

theorem Follows.steer (h : Follows memory limit listeners s w n) {c : Controller} {p : Point}
    (hworker : c.worker = some { w with point := p }) (hcalm : c.panel.interrupted = false)
    (hpoint : p.Fits limit (bare memory s.taken n)) :
    Follows memory limit listeners { s with controller := c } { w with point := p } n where
  worker := hworker
  calm := hcalm
  limited := h.limited
  machine := h.machine
  answered := h.answered
  events := h.events
  heard := h.heard
  point := hpoint
  before := h.before

/-! ## Turns of the controller -/

theorem Point.fits_wakeHeld {b : Bare} {w : Worker} (h : w.point.Fits limit b) :
    ∃ p, w.wakeHeld = { w with point := p } ∧ p.Fits limit b := by
  unfold Worker.wakeHeld
  split
  · next hheld =>
    rw [hheld] at h
    exact ⟨.held true, rfl, h⟩
  · exact ⟨w.point, rfl, h⟩

theorem Point.fits_wakeStarved {b : Bare} {w : Worker} (h : w.point.Fits limit b) :
    ∃ p, w.wakeStarved = { w with point := p } ∧ p.Fits limit b := by
  unfold Worker.wakeStarved
  split
  · next hstarved =>
    rw [hstarved] at h
    exact ⟨.starved true, rfl, h⟩
  · exact ⟨w.point, rfl, h⟩

theorem Follows.pause (h : Follows memory limit listeners s w n) :
    Follows memory limit listeners (s.after .pause) w n :=
  h.steer (c := s.controller.pause) (p := w.point) h.worker h.calm h.point

theorem Follows.setDelay (h : Follows memory limit listeners s w n) (delay : Nat) :
    Follows memory limit listeners (s.after (.setDelay delay)) w n :=
  h.steer (c := s.controller.setDelay delay) (p := w.point) h.worker h.calm h.point

theorem Follows.resume (h : Follows memory limit listeners s w n) :
    ∃ w', Follows memory limit listeners (s.after .resume) w' n := by
  obtain ⟨p, hwake, hp⟩ := Point.fits_wakeHeld h.point
  have hworker : s.controller.resume.worker = some { w with point := p } := by
    simp [Controller.resume, Controller.wakeHeld, h.worker, hwake]
  exact ⟨_, h.steer hworker h.calm hp⟩

theorem Follows.setInput (h : Follows memory limit listeners s w n) (value : Nat) :
    ∃ w', Follows memory limit listeners (s.after (.setInput value)) w' n := by
  obtain ⟨p, hwake, hp⟩ := Point.fits_wakeStarved h.point
  have hworker : (s.controller.setInput value).worker = some { w with point := p } := by
    simp [Controller.setInput, Controller.wakeStarved, h.worker, hwake]
  exact ⟨_, h.steer hworker h.calm hp⟩

theorem Follows.step (h : Follows memory limit listeners s w n) :
    ∃ w', Follows memory limit listeners (s.after .step) w' n := by
  change ∃ w', Follows memory limit listeners { s with controller := s.controller.step.1 } w' n
  unfold Controller.step Panel.grant
  by_cases hpaused : s.controller.panel.paused = true
  · obtain ⟨p, hwake, hp⟩ := Point.fits_wakeHeld h.point
    rw [if_pos hpaused]
    refine ⟨{ w with point := p }, h.steer ?_ h.calm hp⟩
    simp [Controller.wakeHeld, h.worker, hwake]
  · rw [if_neg hpaused]
    exact ⟨w, h⟩

/-! ## Moves of the worker -/

theorem Course.after_move {m : Move} (hworker : s.controller.worker = some w)
    (hmove : w.move? s.controller.panel = some m) :
    s.after .move =
      ⟨{ s.controller with
          panel := m.panel
          worker := some m.worker
          journal := m.reports.reverse ++ s.controller.journal },
        s.events ++ m.events, s.taken ++ s.controller.taking.toList⟩ := by
  simp [after, Controller.move?, hworker, hmove]

theorem Follows.quiet (h : Follows memory limit listeners s w n) {m : Move}
    (hmove : w.move? s.controller.panel = some m) (hevents : m.events = [])
    (htaking : s.controller.taking = none) (hcalm : m.panel.interrupted = false) {p : Point}
    (hworker : m.worker = { w with point := p })
    (hpoint : p.Fits limit (bare memory s.taken n)) :
    Follows memory limit listeners (s.after .move) { w with point := p } n := by
  rw [Course.after_move h.worker hmove, hevents, htaking]
  simp only [List.append_nil, Option.toList_none]
  exact h.steer (by rw [hworker]) hcalm hpoint

theorem Follows.pass (h : Follows memory limit listeners s w n)
    (hpoint : w.point = .checkpoint ∨ w.point = .held true) :
    ∃ w', Follows memory limit listeners (s.after .move) w' n := by
  have hmove : w.move? s.controller.panel = some (w.pass s.controller.panel) := by
    unfold Worker.move?
    obtain hp | hp := hpoint <;> rw [hp]
  have htaking : s.controller.taking = none := by
    unfold Controller.taking
    rw [h.worker]
    obtain hp | hp := hpoint <;> simp [hp]
  have hresult : (bare memory s.taken n).result = .ok .proceeds := by
    have hfits := h.point
    obtain hp | hp := hpoint <;> rw [hp] at hfits <;> exact hfits
  by_cases hpass : s.controller.panel.mayPass = true
  · have hmoved : w.pass s.controller.panel =
        { panel := s.controller.panel.pass, worker := { w with point := .boundary } } := by
      rw [Worker.pass, if_pos hpass]
    rw [hmoved] at hmove
    refine ⟨_, h.quiet (p := .boundary) hmove rfl htaking ?_ rfl hresult⟩
    unfold Panel.pass
    split
    · exact h.calm
    · exact h.calm
  · have hmoved : w.pass s.controller.panel =
        { panel := s.controller.panel, worker := { w with point := .held false } } := by
      rw [Worker.pass, if_neg hpass]
    rw [hmoved] at hmove
    exact ⟨_, h.quiet (p := .held false) hmove rfl htaking h.calm rfl hresult⟩

theorem Follows.testInterruption (h : Follows memory limit listeners s w n)
    (hpoint : w.point = .boundary) :
    ∃ w', Follows memory limit listeners (s.after .move) w' n := by
  have hmove : w.move? s.controller.panel =
      some { panel := s.controller.panel, worker := { w with point := .ready } } := by
    simp [Worker.move?, hpoint, Worker.testInterruption, h.calm]
  have htaking : s.controller.taking = none := by
    simp [Controller.taking, h.worker, hpoint]
  have hresult : (bare memory s.taken n).result = .ok .proceeds := by
    have hfits := h.point
    rw [hpoint] at hfits
    exact hfits
  exact ⟨_, h.quiet (p := .ready) hmove rfl htaking h.calm rfl hresult⟩

theorem Listener.hear_append (l : Listener) (earlier later : List Event) :
    l.hear (earlier ++ later) = (l.hear earlier).hear later := by
  simp [Listener.hear]

theorem Follows.verdict_of_proceeds (h : Follows memory limit listeners s w n)
    (hresult : (bare memory s.taken n).result = .ok .proceeds) :
    (bare memory s.taken n).verdict limit =
      if w.limitReached = true then some (.ok .cycleLimit) else none := by
  unfold Bare.verdict Worker.limitReached
  rw [hresult, h.machine, h.limited]

theorem Follows.drive (h : Follows memory limit listeners s w n)
    (hmove : w.move? s.controller.panel = some (w.drive s.controller.panel))
    (htaking : s.controller.taking = none)
    (hresult : (bare memory s.taken n).result = .ok .proceeds)
    (hverdict : (bare memory s.taken n).verdict limit = none) :
    ∃ w', Follows memory limit listeners (s.after .move) w' (n + 1) := by
  have hbare : bare memory s.taken (n + 1) =
      ⟨w.machine.microStep.machine, [], s.events ++ w.machine.microStep.events,
        w.machine.microStep.result⟩ := by
    change (bare memory s.taken n).next = _
    rw [Bare.next_of_nil h.answered, ← h.machine, ← h.events]
  rw [Course.after_move h.worker hmove, htaking]
  refine ⟨(w.drive s.controller.panel).worker, ?_⟩
  simp only [Option.toList_none, List.append_nil]
  exact {
    worker := rfl
    calm := h.calm
    limited := h.limited
    machine := by rw [hbare]; rfl
    answered := by rw [hbare]
    events := by rw [hbare]; rfl
    heard := by
      have hheard : (w.drive s.controller.panel).worker.listeners =
          w.listeners.map (·.hear w.machine.microStep.events) := rfl
      rw [hheard, h.heard, List.map_map]
      apply List.map_congr_left
      intro l _
      exact (l.hear_append s.events w.machine.microStep.events).symm
    point := by
      rw [hbare]
      change (Worker.pointAfter w.machine.microStep.result).Fits limit _
      match w.machine.microStep.result with
      | .error e => rfl
      | .ok .proceeds => rfl
      | .ok .awaitsInput => rfl
      | .ok .halted => rfl
    before := by
      intro k hk
      obtain hlt | rfl : k < n ∨ k = n := by omega
      · exact h.before k hlt
      · exact ⟨hresult, hverdict⟩ }

theorem Follows.work (h : Follows memory limit listeners s w n) (hpoint : w.point = .ready) :
    ∃ w' n', Follows memory limit listeners (s.after .move) w' n' := by
  have hmove : w.move? s.controller.panel = some (w.work s.controller.panel) := by
    rw [Worker.move?, hpoint]
  have htaking : s.controller.taking = none := by
    simp [Controller.taking, h.worker, hpoint]
  have hresult : (bare memory s.taken n).result = .ok .proceeds := by
    have hfits := h.point
    rw [hpoint] at hfits
    exact hfits
  have hverdict := h.verdict_of_proceeds hresult
  unfold Worker.work at hmove
  by_cases hlimit : w.limitReached = true
  · rw [if_pos hlimit] at hmove hverdict
    exact ⟨_, n, h.quiet (p := .finished (.ok .cycleLimit)) hmove rfl htaking h.calm rfl hverdict⟩
  · rw [if_neg hlimit] at hmove hverdict
    obtain ⟨w', hnext⟩ := h.drive hmove htaking hresult hverdict
    exact ⟨w', n + 1, hnext⟩

theorem Follows.takeInput (h : Follows memory limit listeners s w n)
    (hpoint : w.point = .reading ∨ w.point = .starved true) :
    ∃ w', Follows memory limit listeners (s.after .move) w' n := by
  have hmove : w.move? s.controller.panel = some (w.takeInput s.controller.panel) := by
    unfold Worker.move?
    obtain hp | hp := hpoint <;> rw [hp]
  have htaking : s.controller.taking = s.controller.panel.slot.value? := by
    unfold Controller.taking
    rw [h.worker]
    obtain hp | hp := hpoint <;> simp [hp]
  have hresult : (bare memory s.taken n).result = .ok .awaitsInput := by
    have hfits := h.point
    obtain hp | hp := hpoint <;> rw [hp] at hfits <;> exact hfits
  unfold Worker.takeInput at hmove
  cases hslot : s.controller.panel.slot.value? with
  | none =>
    rw [hslot] at hmove htaking
    exact ⟨_, h.quiet (p := .starved false) hmove rfl htaking h.calm rfl hresult⟩
  | some value =>
    rw [hslot] at hmove htaking
    have hproceeds : ∀ k < n, (bare memory s.taken k).result = .ok .proceeds :=
      fun k hk => (h.before k hk).1
    have hbare := bare_extend_of_awaits hproceeds hresult value
    rw [Course.after_move h.worker hmove, htaking]
    simp only [Option.toList_some, List.append_nil]
    refine ⟨{ w with machine := w.machine.supply value, point := .boundary }, ?_⟩
    exact {
      worker := rfl
      calm := h.calm
      limited := h.limited
      machine := by rw [hbare, h.machine]
      answered := by rw [hbare]; exact h.answered
      events := by rw [hbare]; exact h.events
      heard := h.heard
      point := by rw [hbare]; rfl
      before := by
        intro k hk
        have hsame := bare_extend (n := k) (fun j hj => hproceeds j (by omega)) value
        rw [hsame]
        exact h.before k hk }

/-! ## Whole runs -/

theorem Follows.move (h : Follows memory limit listeners s w n) :
    ∃ w' n', Follows memory limit listeners (s.after .move) w' n' := by
  have hstays : w.move? s.controller.panel = none → s.after .move = s := by
    intro hnone
    simp [Course.after, Controller.move?, h.worker, hnone]
  cases hpoint : w.point with
  | checkpoint =>
    obtain ⟨w', hnext⟩ := h.pass (.inl hpoint)
    exact ⟨w', n, hnext⟩
  | held woken =>
    cases woken with
    | true =>
      obtain ⟨w', hnext⟩ := h.pass (.inr hpoint)
      exact ⟨w', n, hnext⟩
    | false =>
      rw [hstays (by rw [Worker.move?, hpoint])]
      exact ⟨w, n, h⟩
  | boundary =>
    obtain ⟨w', hnext⟩ := h.testInterruption hpoint
    exact ⟨w', n, hnext⟩
  | ready => exact h.work hpoint
  | reading =>
    obtain ⟨w', hnext⟩ := h.takeInput (.inl hpoint)
    exact ⟨w', n, hnext⟩
  | starved woken =>
    cases woken with
    | true =>
      obtain ⟨w', hnext⟩ := h.takeInput (.inr hpoint)
      exact ⟨w', n, hnext⟩
    | false =>
      rw [hstays (by rw [Worker.move?, hpoint])]
      exact ⟨w, n, h⟩
  | finished r =>
    rw [hstays (by rw [Worker.move?, hpoint])]
    exact ⟨w, n, h⟩

theorem Follows.after (h : Follows memory limit listeners s w n) (turn : Turn) :
    ∃ w' n', Follows memory limit listeners (s.after turn) w' n' := by
  cases turn with
  | pause => exact ⟨w, n, h.pause⟩
  | resume => exact ⟨_, n, h.resume.choose_spec⟩
  | step => exact ⟨_, n, h.step.choose_spec⟩
  | setInput value => exact ⟨_, n, (h.setInput value).choose_spec⟩
  | setDelay delay => exact ⟨w, n, h.setDelay delay⟩
  | move => exact h.move

/-- Throughout a run the worker follows the machine on its own. -/
theorem Follows.run (h : Follows memory limit listeners s w n) (turns : List Turn) :
    ∃ w' n', Follows memory limit listeners (s.run turns) w' n' := by
  induction turns generalizing s w n with
  | nil => exact ⟨w, n, h⟩
  | cons turn rest ih =>
    obtain ⟨w', n', hnext⟩ := h.after turn
    exact ih hnext

end

theorem follows_start {c started : Controller} {memory : Memory}
    (hprogram : c.program = some memory) (hstart : c.start = (started, .ok ())) :
    ∃ w, Follows memory c.limit c.listeners { controller := started } w 0 := by
  unfold Controller.start at hstart
  rw [hprogram] at hstart
  split at hstart
  · cases hstart
  · cases hstart
    have hcalm : c.panel.renew.interrupted = false := by
      unfold Panel.renew
      split
      · rfl
      · next hcalm => simpa using hcalm
    refine ⟨{ machine := .ofMemory memory, limit := c.limit, listeners := c.listeners }, ?_⟩
    exact {
      worker := rfl
      calm := hcalm
      limited := rfl
      machine := rfl
      answered := rfl
      events := rfl
      heard := by simp [Listener.hear]
      point := rfl
      before := fun k hk => absurd hk (Nat.not_lt_zero k) }

/-! ## Endings -/

/-- How a worker has come to its end, unless it has failed. -/
def Worker.termination? (w : Worker) : Option Termination :=
  match w.point with
  | .finished (.ok termination) => some termination
  | _ => none

theorem Course.exists_finished {s : Course} {termination : Termination}
    (h : s.controller.worker.bind Worker.termination? = some termination) :
    ∃ w, s.Finished w (.ok termination) := by
  obtain ⟨w, hworker, hw⟩ := Option.bind_eq_some_iff.1 h
  unfold Worker.termination? at hw
  split at hw
  · next hpoint =>
    cases hw
    exact ⟨w, hworker, hpoint⟩
  · cases hw

/-- The machine on its own comes to its end after `n` micro-steps, with the result `r`. -/
structure Ends (memory : Memory) (limit : Option Nat) (answers : List Nat) (n : Nat)
    (r : Except MachineError Termination) : Prop where
  verdict : (bare memory answers n).verdict limit = some r
  before : ∀ k < n, (bare memory answers k).result = .ok .proceeds ∧
    (bare memory answers k).verdict limit = none

/-- The machine on its own comes to a phase boundary at which the limit is reached, without having
halted, failed or run out of answers. -/
def ReachesLimit (memory : Memory) (limit : Option Nat) (answers : List Nat) : Prop :=
  ∃ k, (∀ j ≤ k, (bare memory answers j).result = .ok .proceeds) ∧
    (bare memory answers k).machine.atBoundary = true ∧
    limit.any (· ≤ (bare memory answers k).machine.registers.clock) = true

section
variable {memory : Memory} {limit : Option Nat} {answers : List Nat} {n k : Nat}
  {r q : Except MachineError Termination}

theorem Ends.unique (h : Ends memory limit answers n r) (h' : Ends memory limit answers k q) :
    n = k ∧ r = q := by
  have hnot : ∀ {n k : Nat} {r q : Except MachineError Termination},
      Ends memory limit answers n r → Ends memory limit answers k q → ¬n < k := by
    intro n k r q h h' hlt
    have hnone := (h'.before n hlt).2
    rw [h.verdict] at hnone
    cases hnone
  have heq : n = k := by
    have hle := hnot h h'
    have hge := hnot h' h
    omega
  subst heq
  have hverdict := h.verdict
  rw [h'.verdict] at hverdict
  exact ⟨rfl, (Option.some.inj hverdict).symm⟩

theorem Ends.cycleLimit_iff (h : Ends memory limit answers n r) :
    r = .ok .cycleLimit ↔ ReachesLimit memory limit answers := by
  have hverdict := h.verdict
  constructor
  · rintro rfl
    unfold Bare.verdict at hverdict
    cases hresult : (bare memory answers n).result with
    | error e =>
      rw [hresult] at hverdict
      cases hverdict
    | ok tick =>
      rw [hresult] at hverdict
      cases tick with
      | awaitsInput | halted => cases hverdict
      | proceeds =>
        simp only at hverdict
        split at hverdict
        · next hreached =>
          rw [Bool.and_eq_true] at hreached
          refine ⟨n, fun j hj => ?_, hreached.1, hreached.2⟩
          obtain hlt | rfl : j < n ∨ j = n := by omega
          · exact (h.before j hlt).1
          · exact hresult
        · cases hverdict
  · rintro ⟨k, hproceeds, hboundary, hlimit⟩
    have hk : (bare memory answers k).verdict limit = some (.ok .cycleLimit) := by
      unfold Bare.verdict
      rw [hproceeds k (Nat.le_refl k)]
      simp [hboundary, hlimit]
    have hle : n ≤ k := by
      by_cases hlt : k < n
      · rw [(h.before k hlt).2] at hk
        cases hk
      · omega
    unfold Bare.verdict at hverdict
    rw [hproceeds n hle] at hverdict
    simp only at hverdict
    split at hverdict
    · exact (Option.some.inj hverdict).symm
    · cases hverdict

end

theorem Follows.ends {memory : Memory} {limit : Option Nat} {listeners : List Listener}
    {s : Course} {w : Worker} {n : Nat} (h : Follows memory limit listeners s w n)
    {r : Except MachineError Termination} (hfinished : w.point = .finished r) :
    Ends memory limit s.taken n r where
  verdict := by
    have hfits := h.point
    rw [hfinished] at hfits
    exact hfits
  before := h.before

theorem Follows.shows {memory : Memory} {limit : Option Nat} {listeners : List Listener}
    {s : Course} {w : Worker} {n : Nat} (h : Follows memory limit listeners s w n) :
    s.Shows memory w n :=
  ⟨h.worker, h.machine, h.events⟩

/-- The controller does not show. At every moment of a run the machine of the worker is the one on
its own after some micro-steps, given the inputs that the worker has taken, and the events are the
same. A run that finishes has come to the end of the machine on its own. So two runs of a program
with one limit that take the same inputs end alike. -/
theorem controller_transparent {c started : Controller} {memory : Memory}
    (hprogram : c.program = some memory) (hstart : c.start = (started, .ok ())) :
    (∀ turns, ∃ w n, (Course.ofStarted started turns).Shows memory w n ∧
      w.listeners = c.listeners.map (·.hear (Course.ofStarted started turns).events)) ∧
    (∀ turns w r, (Course.ofStarted started turns).Finished w r →
      ∃ n, (Course.ofStarted started turns).Shows memory w n ∧
        Ends memory c.limit (Course.ofStarted started turns).taken n r ∧
        (r = .ok .cycleLimit ↔
          ReachesLimit memory c.limit (Course.ofStarted started turns).taken)) ∧
    ∀ (other startedOther : Controller) turns turnsOther w wOther r rOther,
      other.program = some memory → other.limit = c.limit → other.start = (startedOther, .ok ()) →
      (Course.ofStarted started turns).Finished w r →
      (Course.ofStarted startedOther turnsOther).Finished wOther rOther →
      (Course.ofStarted started turns).taken = (Course.ofStarted startedOther turnsOther).taken →
        r = rOther ∧ w.machine = wOther.machine ∧
          (Course.ofStarted started turns).events =
            (Course.ofStarted startedOther turnsOther).events := by
  obtain ⟨w₀, hfollows⟩ := follows_start hprogram hstart
  refine ⟨?_, ?_, ?_⟩
  · intro turns
    obtain ⟨w, n, h⟩ := hfollows.run turns
    exact ⟨w, n, h.shows, h.heard⟩
  · intro turns w r hfinished
    obtain ⟨w', n, h⟩ := hfollows.run turns
    obtain rfl : w' = w := Option.some.inj (h.worker.symm.trans hfinished.1)
    have hends := h.ends hfinished.2
    exact ⟨n, h.shows, hends, hends.cycleLimit_iff⟩
  · intro other startedOther turns turnsOther w wOther r rOther hprogramOther hlimit hstartOther
      hfinished hfinishedOther htaken
    obtain ⟨v₀, hfollowsOther⟩ := follows_start hprogramOther hstartOther
    obtain ⟨w', n, h⟩ := hfollows.run turns
    obtain ⟨v', k, hOther⟩ := hfollowsOther.run turnsOther
    obtain rfl : w' = w := Option.some.inj (h.worker.symm.trans hfinished.1)
    obtain rfl : v' = wOther := Option.some.inj (hOther.worker.symm.trans hfinishedOther.1)
    have hshows : (Course.ofStarted started turns).Shows memory w' n := h.shows
    have hshowsOther : (Course.ofStarted startedOther turnsOther).Shows memory v' k :=
      hOther.shows
    have hends : Ends memory c.limit (Course.ofStarted started turns).taken n r :=
      h.ends hfinished.2
    have hendsOther : Ends memory other.limit (Course.ofStarted startedOther turnsOther).taken k
      rOther := hOther.ends hfinishedOther.2
    rw [hlimit, ← htaken] at hendsOther
    obtain ⟨rfl, rfl⟩ := hends.unique hendsOther
    refine ⟨rfl, ?_, ?_⟩
    · rw [hshows.machine, hshowsOther.machine, htaken]
    · rw [hshows.events, hshowsOther.events, htaken]

/-- A run that is stepped until it waits for a value, and resumed then, halts as one does that is
never held and has the value from the start. Another one, without input, ends at its limit. -/
theorem controller_transparent_paused :
    let memory := Memory.ofList [29 * 2 ^ 15, 31 * 2 ^ 15]
    let c : Controller := { panel := { paused := true }, limit := some 9, program := some memory }
    let free : Controller := { c with panel := {} }
    let s := Course.ofStarted c.start.1 <|
      (List.replicate 5 [Turn.step, .move, .move, .move]).flatten ++ [.setInput 5, .resume] ++
        List.replicate 18 .move
    let s' := Course.ofStarted free.start.1 (.setInput 5 :: List.replicate 30 .move)
    let endless : Controller := { panel := {}, limit := some 2, program := some (.ofList [0]) }
    let t := Course.ofStarted endless.start.1 (List.replicate 15 .move)
    (∀ turns, ∃ w n, (Course.ofStarted c.start.1 turns).Shows memory w n ∧
      w.listeners = c.listeners.map (·.hear (Course.ofStarted c.start.1 turns).events)) ∧
    (∃ w w' n, s.Finished w (.ok .halted) ∧ s'.Finished w' (.ok .halted) ∧
      Ends memory (some 9) s.taken n (.ok .halted) ∧ ¬ReachesLimit memory (some 9) s.taken ∧
      w.machine = w'.machine ∧ s.events = s'.events) ∧
    ∃ w, t.Finished w (.ok .cycleLimit) ∧ ReachesLimit (.ofList [0]) (some 2) t.taken := by
  intro memory c free s s' endless t
  obtain ⟨hshows, hfinished, halike⟩ := controller_transparent (c := c) rfl rfl
  obtain ⟨-, hlimited, -⟩ := controller_transparent (c := endless) rfl rfl
  obtain ⟨w, hs⟩ : ∃ w, s.Finished w (.ok .halted) := Course.exists_finished (by decide +kernel)
  obtain ⟨w', hs'⟩ : ∃ w', s'.Finished w' (.ok .halted) :=
    Course.exists_finished (by decide +kernel)
  obtain ⟨v, ht⟩ : ∃ v, t.Finished v (.ok .cycleLimit) :=
    Course.exists_finished (by decide +kernel)
  obtain ⟨n, -, hends, hlimit⟩ := hfinished _ w _ hs
  have hnot : ¬ReachesLimit memory c.limit s.taken := fun hreaches => by cases hlimit.2 hreaches
  obtain ⟨-, hmachine, hevents⟩ := halike free _ _ _ w w' _ _ rfl rfl rfl hs hs' (by decide +kernel)
  obtain ⟨-, -, -, hreached⟩ := hlimited _ v _ ht
  exact ⟨hshows, ⟨w, w', n, hs, hs', hends, hnot, hmachine, hevents⟩, v, ht, hreached.1 rfl⟩

end TrnComputer
