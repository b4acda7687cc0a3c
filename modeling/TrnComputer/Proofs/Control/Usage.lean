import TrnComputer.Proofs.Control.Soundness
import TrnComputer.Proofs.Control.Transparency

/-! # All that is done with a controller

* `Controller.Steered`: what the calls that are made during a run can do.
* `Controller.Spares`: a call between runs that is refused leaves the controller as it was; `Loads`,
  `Starts`, `Returns` tell what is done by one that is not.
* `Act`, `Usage`: all calls of a controller over any number of runs, with the moves of the workers.
* `Refuses`, `after_of_refused`: a call that is refused changes nothing.
* `Usage.Sound`, `usage_sound`: the slot is lawful and the worker is sound, whatever is done.
-/

namespace TrnComputer
set_option autoImplicit false

/-! ## Calls during a run -/

/-- What a turn gives as input. -/
def Turn.given : Turn → Option Nat
  | .setInput value => some value
  | _ => none

/-- What a call that is made during a run can do to a controller: give a value and wake the worker.
Interruption is left alone. -/
structure Controller.Steered (c : Controller) (given : Option Nat) (c' : Controller) : Prop where
  flag : c'.panel.interrupted = c.panel.interrupted
  slot : c'.panel.slot = (given.map Slot.supplied).getD c.panel.slot
  worker : Option.Rel Worker.Woken c.worker c'.worker

theorem woken_map {f : Worker → Worker} (hf : ∀ w : Worker, w.Woken (f w))
    (worker : Option Worker) :
    Option.Rel Worker.Woken worker (worker.map f) := by
  cases worker with
  | none => exact .none
  | some w => exact .some (hf w)

theorem woken_refl (worker : Option Worker) : Option.Rel Worker.Woken worker worker := by
  cases worker with
  | none => exact .none
  | some w => exact .some .not

theorem Controller.Steered.lawful {c c' : Controller} {given : Option Nat}
    (h : c.Steered given c') (hslot : c.panel.slot.Lawful) : c'.panel.slot.Lawful := by
  rw [h.slot]
  cases given with
  | none => exact hslot
  | some value => exact c.panel.lawful_supply value

theorem Controller.steered_wakeHeld (c : Controller) : c.Steered none c.wakeHeld :=
  ⟨rfl, rfl, woken_map Worker.woken_wakeHeld _⟩

/-- Every turn that is not a move of the worker steers it. -/
theorem Course.steered (s : Course) {t : Turn} (h : t ≠ .move) :
    (s.after t).events = s.events ∧ (s.after t).taken = s.taken ∧
      s.controller.Steered t.given (s.after t).controller := by
  cases t with
  | move => exact absurd rfl h
  | pause | setDelay => exact ⟨rfl, rfl, rfl, rfl, woken_refl _⟩
  | resume => exact ⟨rfl, rfl, rfl, rfl, woken_map Worker.woken_wakeHeld _⟩
  | setInput value => exact ⟨rfl, rfl, rfl, rfl, woken_map Worker.woken_wakeStarved _⟩
  | step =>
    refine ⟨rfl, rfl, ?_⟩
    change s.controller.Steered none s.controller.step.1
    unfold Controller.step Panel.grant
    by_cases hpaused : s.controller.panel.paused = true
    · rw [if_pos hpaused]
      exact ⟨rfl, rfl, woken_map Worker.woken_wakeHeld _⟩
    · rw [if_neg hpaused]
      exact ⟨rfl, rfl, woken_refl _⟩

/-- Either the worker has made a move or nothing has changed. -/
theorem Course.move_cases (s : Course) :
    (∃ w m, s.controller.worker = some w ∧ w.move? s.controller.panel = some m ∧
      s.after .move =
        ⟨{ s.controller with
            panel := m.panel
            worker := some m.worker
            journal := m.reports.reverse ++ s.controller.journal },
          s.events ++ m.events, s.taken ++ s.controller.taking.toList⟩) ∨
      s.controller.move? = none ∧ s.after .move = s := by
  cases hworker : s.controller.worker with
  | none =>
    have hnone : s.controller.move? = none := by simp [Controller.move?, hworker]
    exact .inr ⟨hnone, by simp [after, hnone]⟩
  | some w =>
    cases hmove : w.move? s.controller.panel with
    | none =>
      have hnone : s.controller.move? = none := by simp [Controller.move?, hworker, hmove]
      exact .inr ⟨hnone, by simp [after, hnone]⟩
    | some m => exact .inl ⟨w, m, rfl, hmove, after_move hworker hmove⟩

/-! ## Calls between runs -/

namespace Controller
variable {c c' : Controller}

/-- If a call is refused, it gives back the controller on which it was made. -/
def Spares {α : Type} (c : Controller) (call : Controller × Except ControlError α) : Prop :=
  ∀ e, call.2 = .error e → call.1 = c

theorem Spares.cases {α : Type} {call : Controller × Except ControlError α} (h : c.Spares call) :
    (∃ e, call = (c, .error e)) ∨ ∃ c' result, call = (c', .ok result) := by
  obtain ⟨c', answer⟩ := call
  cases answer with
  | error e =>
    obtain rfl : c' = c := h e rfl
    exact .inl ⟨e, rfl⟩
  | ok result => exact .inr ⟨c', result, rfl⟩

theorem load_spares (c : Controller) (memory : Memory) : c.Spares (c.load memory) := by
  unfold load
  split <;> simp [Spares]

theorem start_spares (c : Controller) : c.Spares c.start := by
  unfold start
  split
  · simp [Spares]
  · split <;> simp [Spares]

theorem wait_spares (c : Controller) : c.Spares c.wait := by
  unfold wait
  split
  · simp [Spares]
  · split <;> simp [Spares]

/-- One who waits for a run that has not finished blocks, and nothing is done. -/
theorem wait_blocks (h : c.wait.2 = .ok none) : c.wait.1 = c := by
  unfold wait at h ⊢
  split at h
  · rfl
  · split at h
    · cases h
    · rfl

/-- Loading leaves the panel and the worker alone, whether it is refused or not. -/
theorem load_keeps (c : Controller) (memory : Memory) :
    (c.load memory).1.panel = c.panel ∧ (c.load memory).1.worker = c.worker := by
  unfold load
  split <;> exact ⟨rfl, rfl⟩

/-- Nobody gets a worker from `wait`. -/
theorem wait_keeps (c : Controller) :
    c.wait.1.panel = c.panel ∧ ∀ w, c.wait.1.worker = some w → c.worker = some w := by
  unfold wait
  split
  · exact ⟨rfl, fun _ => id⟩
  · split
    · exact ⟨rfl, by simp [report]⟩
    · exact ⟨rfl, fun _ => id⟩

/-- What becomes of a controller that is given a program. -/
structure Loads (c : Controller) (memory : Memory) (c' : Controller) : Prop where
  idle : c.worker = none
  worker : c'.worker = none
  program : c'.program = some memory
  listeners : c'.listeners = c.listeners

/-- What becomes of a controller that starts a run. -/
structure Starts (c : Controller) (memory : Memory) (c' : Controller) : Prop where
  idle : c.worker = none
  stored : c.program = some memory
  panel : c'.panel = c.panel.renew
  worker : c'.worker =
    some { machine := .ofMemory memory, limit := c.limit, listeners := c.listeners }
  program : c'.program = none
  listeners : c'.listeners = []

/-- What becomes of a controller whose run has been waited for. -/
structure Returns (c : Controller) (w : Worker) (c' : Controller) : Prop where
  busy : c.worker = some w
  finished : ∃ result, w.point = .finished result
  panel : c'.panel = c.panel
  worker : c'.worker = none
  program : c'.program = c.program
  listeners : c'.listeners = c.listeners ++ w.listeners

theorem load_eq_ok {memory : Memory} (h : c.load memory = (c', .ok ())) : c.Loads memory c' := by
  unfold load at h
  split at h
  · cases h
  · next hidle =>
    have hnone : c.worker = none := by simpa using hidle
    cases h
    exact ⟨hnone, hnone, rfl, rfl⟩

theorem start_eq_ok (h : c.start = (c', .ok ())) : ∃ memory, c.Starts memory c' := by
  unfold start at h
  split at h
  · cases h
  · next hidle =>
    split at h
    · cases h
    · next memory hprogram =>
      cases h
      exact ⟨memory, by simpa using hidle, hprogram, rfl, rfl, rfl, rfl⟩

theorem wait_eq_ok {outcome : Outcome} (h : c.wait = (c', .ok (some outcome))) :
    ∃ w, c.Returns w c' := by
  unfold wait at h
  split at h
  · cases h
  · next w hworker =>
    split at h
    · next result hpoint =>
      cases h
      exact ⟨w, hworker, ⟨result, hpoint⟩, rfl, rfl, rfl, rfl⟩
    · cases h

end Controller

/-! ## Any number of runs -/

/-- What is done next with a controller. A request for interruption has three parts, between which
the worker may move: the flag is raised, a worker that is held is woken, a placeholder is
offered. -/
inductive Act
  | load (memory : Memory)
  | addListener (id : Nat)
  | start
  | wait
  /-- A call that steers a run, or a move of the worker. -/
  | turn (t : Turn)
  | flag
  | wake
  | offer

/-- What is worth noting in the use of a controller: a value given by `setInput`, a request for
interruption, the start of a run, a value loaded by an input instruction. -/
inductive Mark
  | given (value : Nat)
  | requested
  | started
  | loaded (value : Nat)
  deriving DecidableEq, Repr

/-- A controller in use, with the number of requests that have begun and not ended and with what has
been noted so far. -/
structure Usage where
  controller : Controller
  pending : Nat := 0
  marks : List Mark := []

namespace Usage

/-- Some calls need the controller for themselves: they are not made while a request is under
way. -/
def alone (u next : Usage) : Usage := if u.pending = 0 then next else u

/-- A controller in use after one more act. A start is noted only if it is not refused. -/
def after (u : Usage) : Act → Usage
  | .load memory => u.alone { u with controller := (u.controller.load memory).1 }
  | .addListener id => u.alone { u with controller := u.controller.addListener id }
  | .start =>
    u.alone { u with
      controller := u.controller.start.1
      marks := u.marks ++ if u.controller.start.2.isOk then [.started] else [] }
  | .wait => u.alone { u with controller := u.controller.wait.1 }
  | .turn t =>
    let s := ({ controller := u.controller } : Course).after t
    { u with
      controller := s.controller
      marks := u.marks ++ t.given.toList.map .given ++ (loads s.events).map .loaded }
  | .flag => ⟨u.controller.raiseFlag, u.pending + 1, u.marks ++ [.requested]⟩
  | .wake => { u with controller := u.controller.wakeHeld }
  | .offer =>
    if 0 < u.pending then { u with
      controller := u.controller.offerPlaceholder
      pending := u.pending - 1 }
    else u

end Usage

/-- The act is a call that is refused. -/
def Controller.Refuses (c : Controller) : Act → Prop
  | .load memory => ∃ e, (c.load memory).2 = .error e
  | .start => ∃ e, c.start.2 = .error e
  | .wait => ∃ e, c.wait.2 = .error e
  | .turn .step => c.step.2 = false
  | _ => False

theorem Controller.step_spares {c : Controller} (h : c.step.2 = false) : c.step.1 = c := by
  unfold step at h ⊢
  split at h
  · cases h
  · rfl

namespace Usage
variable {u : Usage}

theorem alone_self (u : Usage) : u.alone u = u := ite_self u

/-- A call that is refused changes nothing. -/
theorem after_of_refused {act : Act} (h : u.controller.Refuses act) : u.after act = u := by
  cases act with
  | load memory =>
    obtain ⟨e, hload⟩ := h
    rw [after, Controller.load_spares _ _ e hload]
    exact u.alone_self
  | start =>
    obtain ⟨e, hstart⟩ := h
    rw [after, Controller.start_spares _ e hstart, hstart, if_neg nofun, List.append_nil]
    exact u.alone_self
  | wait =>
    obtain ⟨e, hwait⟩ := h
    rw [after, Controller.wait_spares _ e hwait]
    exact u.alone_self
  | turn t =>
    cases t with
    | step => simp [after, Course.after, Controller.step_spares h, Turn.given]
    | _ => exact h.elim
  | addListener | flag | wake | offer => exact h.elim

/-- A program is loaded, or nothing changes. -/
theorem after_load (u : Usage) (memory : Memory) :
    (¬(u.pending = 0 ∧ (u.controller.load memory).2.isOk) ∧ u.after (.load memory) = u) ∨
      ∃ loaded, u.pending = 0 ∧ u.controller.load memory = (loaded, .ok ()) ∧
        u.after (.load memory) = { u with controller := loaded } := by
  by_cases hpending : u.pending = 0
  · obtain ⟨e, hload⟩ | ⟨loaded, _, hload⟩ := (u.controller.load_spares memory).cases
    · have hrefused : (u.controller.load memory).2 = .error e := by rw [hload]
      exact .inl ⟨by simp [hrefused, Except.isOk, Except.toBool], after_of_refused ⟨e, hrefused⟩⟩
    · refine .inr ⟨loaded, hpending, hload, ?_⟩
      rw [after, hload, alone, if_pos hpending]
  · exact .inl ⟨fun h => hpending h.1, if_neg hpending⟩

/-- A run is started, or nothing changes. -/
theorem after_start (u : Usage) :
    (¬(u.pending = 0 ∧ u.controller.start.2.isOk) ∧ u.after .start = u) ∨
      ∃ started, u.pending = 0 ∧ u.controller.start = (started, .ok ()) ∧
        u.after .start = { u with controller := started, marks := u.marks ++ [.started] } := by
  by_cases hpending : u.pending = 0
  · obtain ⟨e, hstart⟩ | ⟨started, _, hstart⟩ := u.controller.start_spares.cases
    · have hrefused : u.controller.start.2 = .error e := by rw [hstart]
      exact .inl ⟨by simp [hrefused, Except.isOk, Except.toBool], after_of_refused ⟨e, hrefused⟩⟩
    · refine .inr ⟨started, hpending, hstart, ?_⟩
      rw [after, hstart, alone, if_pos hpending]
      rfl
  · exact .inl ⟨fun h => hpending h.1, if_neg hpending⟩

/-- A finished run is waited for, or nothing changes. -/
theorem after_wait (u : Usage) :
    (¬(u.pending = 0 ∧ ∃ outcome, u.controller.wait.2 = .ok (some outcome)) ∧
        u.after .wait = u) ∨
      ∃ returned outcome, u.pending = 0 ∧ u.controller.wait = (returned, .ok (some outcome)) ∧
        u.after .wait = { u with controller := returned } := by
  by_cases hpending : u.pending = 0
  · obtain ⟨e, hwait⟩ | ⟨returned, done, hwait⟩ := u.controller.wait_spares.cases
    · have hrefused : u.controller.wait.2 = .error e := by rw [hwait]
      exact .inl ⟨by simp [hrefused], after_of_refused ⟨e, hrefused⟩⟩
    · cases done with
      | none =>
        have hblocked : u.controller.wait.2 = .ok none := by rw [hwait]
        refine .inl ⟨by simp [hblocked], ?_⟩
        rw [after, Controller.wait_blocks hblocked]
        exact u.alone_self
      | some outcome =>
        refine .inr ⟨returned, outcome, hpending, hwait, ?_⟩
        rw [after, hwait, alone, if_pos hpending]
  · exact .inl ⟨fun h => hpending h.1, if_neg hpending⟩

end Usage

/-- A controller with the given settings after all that has been done with it. -/
def usage (settings : Settings) (acts : List Act) : Usage :=
  acts.foldl Usage.after { controller := .ofSettings settings }

structure Usage.Sound (u : Usage) : Prop where
  slot : u.controller.panel.slot.Lawful
  worker : ∀ w, u.controller.worker = some w → w.Sound

namespace Usage
variable {u next : Usage}

theorem Sound.alone (h : u.Sound) (hnext : u.pending = 0 → next.Sound) : (u.alone next).Sound := by
  unfold Usage.alone
  split
  next hpending => exact hnext hpending
  next => exact h

theorem Sound.woken (h : u.Sound) (hslot : next.controller.panel.slot.Lawful)
    (hworker : Option.Rel Worker.Woken u.controller.worker next.controller.worker) :
    next.Sound := by
  refine ⟨hslot, fun w' hw' => ?_⟩
  rw [hw'] at hworker
  generalize hworker' : u.controller.worker = worker at hworker
  cases hworker with
  | some hwoken => exact hwoken.sound (h.worker _ hworker')

theorem Sound.turn (h : u.Sound) (t : Turn) : (u.after (.turn t)).Sound := by
  by_cases ht : t = .move
  · subst ht
    obtain ⟨w, m, hworker, hmove, hafter⟩ | ⟨-, hsame⟩ :=
      ({ controller := u.controller } : Course).move_cases
    · refine ⟨?_, fun w' hw' => ?_⟩
      · simp only [Usage.after, hafter]
        exact (Worker.moved_of_move? hmove).lawful h.slot
      · simp only [Usage.after, hafter, Option.some.injEq] at hw'
        subst hw'
        exact (h.worker w hworker).move hmove
    · refine ⟨?_, fun w' hw' => ?_⟩
      · simpa only [Usage.after, hsame] using h.slot
      · simp only [Usage.after, hsame] at hw'
        exact h.worker w' hw'
  · have hsteered := (({ controller := u.controller } : Course).steered ht).2.2
    exact h.woken (hsteered.lawful h.slot) hsteered.worker

theorem Sound.after (h : u.Sound) (act : Act) : (u.after act).Sound := by
  cases act with
  | load memory =>
    obtain ⟨hpanel, hworker⟩ := u.controller.load_keeps memory
    refine h.alone fun _ => ⟨?_, fun w hw => h.worker w (hworker.symm.trans hw)⟩
    exact hpanel.symm ▸ h.slot
  | addListener id => exact h.alone fun _ => ⟨h.slot, h.worker⟩
  | start =>
    obtain ⟨-, hsame⟩ | ⟨started, -, hstart, hafter⟩ := u.after_start
    · rw [hsame]
      exact h
    · obtain ⟨memory, hstarts⟩ := Controller.start_eq_ok hstart
      rw [hafter]
      refine ⟨hstarts.panel.symm ▸ Panel.lawful_renew h.slot, fun w hw => ?_⟩
      obtain rfl := Option.some.inj (hstarts.worker.symm.trans hw)
      exact ⟨Machine.wellFormed_ofMemory memory, fun _ => rfl,
        fun _ hopen => Bool.noConfusion hopen, rfl, rfl⟩
  | wait =>
    obtain ⟨hpanel, hworker⟩ := u.controller.wait_keeps
    refine h.alone fun _ => ⟨?_, fun w hw => h.worker w (hworker w hw)⟩
    exact hpanel.symm ▸ h.slot
  | turn t => exact h.turn t
  | flag => exact ⟨h.slot, h.worker⟩
  | wake => exact h.woken h.slot u.controller.steered_wakeHeld.worker
  | offer =>
    simp only [Usage.after]
    split
    · exact h.woken (Panel.lawful_offerPlaceholder h.slot) (woken_map Worker.woken_wakeStarved _)
    · exact h

end Usage

/-- Whatever is done with a controller, its slot is lawful and its worker is sound. -/
theorem usage_sound (settings : Settings) (acts : List Act) : (usage settings acts).Sound := by
  refine List.foldlRecOn acts Usage.after ⟨Slot.lawful_empty, ?_⟩ fun u h act _ => h.after act
  intro w hw
  cases hw

end TrnComputer
