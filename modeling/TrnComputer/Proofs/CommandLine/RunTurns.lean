import TrnComputer.Proofs.CommandLine.Remarks

/-! # The turns of a run

A run that is not paused goes through a few stages. Each turn brings it from one stage to the next.

* `Stage`: what matters of a run between two turns.
* `RunOptions.Reaches`: a run comes from a stage to a stage in a number of turns.
* `reaches_boundary`, `reaches_ready`, `reaches_driven`, `reaches_given`, `reaches_asking`,
  `reaches_supplied`, `reaches_interrupted`: the turns, by stage.
* `RunOptions.Concludes`: a run ends; `concludes_finished`: its last turn shows the result.
-/

namespace TrnComputer
set_option autoImplicit false

/-! ## Stages -/

/-- What a run is done with: the limit, whether movements are shown, and whether the registers are
shown as an object. -/
structure RunOptions where
  limit : Option Nat
  trace : Bool
  json : Bool

/-- What matters of a run between two turns: the machine, where the worker stands, what the panel
holds, the values of the command line that are left, and whether a line is asked for. -/
structure Stage where
  machine : Machine
  point : Point
  slot : Slot := .empty
  interrupted : Bool := false
  inputs : List Int
  asking : Bool := false

/-- A run that is not paused stands at a stage. -/
structure RunOptions.Shows (o : RunOptions) (session : RunSession) (g : Stage) : Prop where
  worker : ∃ listeners, session.controller.worker =
    some { machine := g.machine, limit := o.limit, listeners, point := g.point }
  paused : session.controller.panel.paused = false
  slot : session.controller.panel.slot = g.slot
  interrupted : session.controller.panel.interrupted = g.interrupted
  inputs : session.inputs = g.inputs
  asking : session.asking = g.asking
  trace : session.trace = o.trace
  json : session.json = o.json

/-- A run that stands at a stage comes to another stage in `n` turns. -/
def RunOptions.Reaches (o : RunOptions) (n : Nat) (s : Surroundings) (g : Stage) (s' : Surroundings)
    (g' : Stage) : Prop :=
  ∀ session, o.Shows session g → ∃ session', o.Shows session' g' ∧
    Session.Leads n s (.going (.run session)) s' (.going (.run session'))

/-- A run that stands at a stage ends in `n` turns. -/
def RunOptions.Concludes (o : RunOptions) (n : Nat) (s : Surroundings) (g : Stage)
    (s' : Surroundings) (status : Nat) : Prop :=
  ∀ session, o.Shows session g → Session.Leads n s (.going (.run session)) s' (.ended status)

namespace RunOptions
variable {o : RunOptions} {n k status : Nat} {s s' s'' : Surroundings} {g g' g'' : Stage}

theorem Reaches.trans (h : o.Reaches n s g s' g') (h' : o.Reaches k s' g' s'' g'') :
    o.Reaches (n + k) s g s'' g'' := fun session hshows => by
  obtain ⟨session', hshows', hleads⟩ := h session hshows
  obtain ⟨session'', hshows'', hleads'⟩ := h' session' hshows'
  exact ⟨session'', hshows'', hleads.trans hleads'⟩

theorem Reaches.concludes (h : o.Reaches n s g s' g') (h' : o.Concludes k s' g' s'' status) :
    o.Concludes (n + k) s g s'' status := fun session hshows => by
  obtain ⟨session', hshows', hleads⟩ := h session hshows
  exact hleads.trans (h' session' hshows')

end RunOptions

/-! ## Moves -/

namespace RunSession

/-- The session after a move of the worker. -/
def moved (session : RunSession) (m : Move) : RunSession :=
  { session with
    controller := { session.controller with
      panel := m.panel
      worker := some m.worker
      journal := m.reports.reverse ++ session.controller.journal } }

theorem play_answerAll_append (session : RunSession) (events more : List Event) (s : Surroundings) :
    (session.answerAll (events ++ more)).play s =
      (((session.answerAll events).play s).2.answerAll more).play
        ((session.answerAll events).play s).1 := by
  induction events generalizing session s with
  | nil => rfl
  | cons e rest ih => simp only [List.cons_append, answerAll, Script.play_bind, ih]

theorem play_answer_of_ne (session : RunSession) {e : Event} (h : e ≠ .inputRequested)
    (s : Surroundings) :
    (session.answer e).play s = (s.say session.trace [.event e], session) := by
  cases e with
  | inputRequested => exact absurd rfl h
  | moved clock movement value =>
    cases htrace : session.trace <;>
      simp [answer, htrace, Script.play, Surroundings.say, Remark.output, Remark.message]
  | _ =>
    simp [answer, Script.play, Surroundings.say, Remark.output, Remark.message,
      String.append_assoc]

theorem play_answerAll_of_quiet (session : RunSession) {events : List Event}
    (h : .inputRequested ∉ events) (s : Surroundings) :
    (session.answerAll events).play s = (s.say session.trace (events.map .event), session) := by
  induction events generalizing s with
  | nil => simp [answerAll, Script.play]
  | cons e rest ih =>
    obtain ⟨hfirst, hrest⟩ := List.ne_and_not_mem_of_not_mem_cons h
    rw [answerAll, Script.play_bind, play_answer_of_ne session (Ne.symm hfirst), ih hrest,
      ← Surroundings.say_append]
    rfl

/-- A line with a number gives a value. -/
theorem play_ask_number (session : RunSession) (trace : Bool) (s : Surroundings) {text : String}
    (lines : List String) {value : Int} (hnumber : lineNumber? text = some value) :
    session.ask.play (s.withLines (text :: lines)) =
      ((s.withLines lines).say trace [.prompt], session.give value) := by
  unfold lineNumber? at hnumber
  simp [ask, Script.play, Surroundings.nextLine, Surroundings.withLines, hnumber,
    Surroundings.say, Remark.output, Remark.message]

/-- A line without a number is passed over. -/
theorem play_ask_rejected (session : RunSession) (trace : Bool) (s : Surroundings) {text : String}
    (lines : List String) (hnumber : lineNumber? text = none) :
    session.ask.play (s.withLines (text :: lines)) =
      ((s.withLines lines).say trace
        [.prompt, .rejected (String.ofList (Text.trim text.toList))], session) := by
  unfold lineNumber? at hnumber
  simp [ask, Script.play, Surroundings.nextLine, Surroundings.withLines, hnumber,
    Surroundings.say, Remark.output, Remark.message, String.append_assoc]

/-- When there are no more lines, the run is interrupted. -/
theorem play_ask_over (session : RunSession) (trace : Bool) (s : Surroundings) :
    session.ask.play (s.withLines []) =
      ((s.withLines []).say trace [.prompt, .exhausted],
        { session with
          controller := session.controller.requestInterruption
          asking := false }) := by
  simp [ask, Script.play, Surroundings.nextLine, Surroundings.withLines, Surroundings.say,
    Remark.output, Remark.message, String.append_assoc]

/-- A turn in which the worker moves. -/
theorem play_turn_of_move {session : RunSession} {w : Worker} {m : Move}
    (hasking : session.asking = false) (hworker : session.controller.worker = some w)
    (hmove : w.move? session.controller.panel = some m) (s : Surroundings) :
    session.turn.play s =
      ((((session.moved m).answerAll m.events).play s).1,
        .going (((session.moved m).answerAll m.events).play s).2) := by
  have hmoved : session.controller.move? =
      some ((session.moved m).controller, m.events) := by
    simp [Controller.move?, hworker, hmove, moved]
  have hbusy : ¬session.asking = true := by simp [hasking]
  rw [turn, if_neg hbusy, hmoved]
  change ((Script.pause _).bind fun _ => ((session.moved m).answerAll m.events).bind
    fun after => Script.done (Progress.going after)).play s = _
  rw [Script.play_bind, Script.play_bind, Script.play_pause]
  rfl

end RunSession

namespace RunOptions
variable {o : RunOptions} {s : Surroundings} {g : Stage}

/-- A move that tells of no request brings a run to the stage after it. -/
theorem reaches_of_move {point : Point} {slot : Slot} {machine : Machine} {events : List Event}
    (hasking : g.asking = false) (hquiet : .inputRequested ∉ events)
    (hmove : ∀ p : Panel, p.paused = false → p.slot = g.slot → p.interrupted = g.interrupted →
      ∀ listeners, ∃ m : Move,
        ({ machine := g.machine, limit := o.limit, listeners, point := g.point } : Worker).move? p =
          some m ∧ m.events = events ∧ m.panel.paused = false ∧ m.panel.slot = slot ∧
        m.panel.interrupted = g.interrupted ∧
        ∃ after, m.worker = { machine, limit := o.limit, listeners := after, point }) :
    o.Reaches 1 s g (s.say o.trace (events.map .event)) { g with machine, point, slot } := by
  intro session h
  obtain ⟨listeners, hworker⟩ := h.worker
  obtain ⟨m, hm, rfl, hpaused, hslot, hflag, after, hafter⟩ :=
    hmove _ h.paused h.slot h.interrupted listeners
  have hturn := RunSession.play_turn_of_move (h.asking.trans hasking) hworker hm s
  rw [RunSession.play_answerAll_of_quiet _ hquiet] at hturn
  refine ⟨session.moved m, ⟨⟨after, congrArg some hafter⟩, hpaused, hslot, hflag, h.inputs,
    h.asking, h.trace, h.json⟩, ?_⟩
  rw [← h.trace]
  exact Session.leads_of_runTurn hturn

/-- A move that tells nothing. -/
theorem reaches_of_silent {point : Point} {slot : Slot} {machine : Machine}
    (hasking : g.asking = false)
    (hmove : ∀ p : Panel, p.paused = false → p.slot = g.slot → p.interrupted = g.interrupted →
      ∀ listeners, ∃ m : Move,
        ({ machine := g.machine, limit := o.limit, listeners, point := g.point } : Worker).move? p =
          some m ∧ m.events = [] ∧ m.panel.paused = false ∧ m.panel.slot = slot ∧
        m.panel.interrupted = g.interrupted ∧
        ∃ after, m.worker = { machine, limit := o.limit, listeners := after, point }) :
    o.Reaches 1 s g s { g with machine, point, slot } := by
  have hreached := reaches_of_move (s := s) hasking List.not_mem_nil hmove
  rwa [List.map_nil, Surroundings.say_nil] at hreached

/-- A worker in front of the checkpoint passes it. -/
theorem reaches_boundary (hpoint : g.point = .checkpoint) (hasking : g.asking = false) :
    o.Reaches 1 s g s { g with point := .boundary } := by
  refine reaches_of_silent hasking fun p hpaused hslot hflag listeners => ?_
  have hmay : p.mayPass = true := by simp [Panel.mayPass, hpaused]
  have hpass : p.pass = p := by simp [Panel.pass, hpaused]
  refine ⟨_, by rw [Worker.move?, hpoint], ?_⟩
  simp [Worker.pass, hmay, hpass, hpaused, hslot, hflag]

/-- A worker inside a phase, or one that is not interrupted, goes on. -/
theorem reaches_ready (hpoint : g.point = .boundary) (hasking : g.asking = false)
    (hgoes : g.machine.phaseOpen = true ∨ g.interrupted = false) :
    o.Reaches 1 s g s { g with point := .ready } := by
  refine reaches_of_silent hasking fun p hpaused hslot hflag listeners => ?_
  have htest : ¬(g.machine.atBoundary && p.interrupted) = true := by
    obtain hopen | hcalm := hgoes
    · simp [Machine.atBoundary, hopen]
    · simp [hflag, hcalm]
  refine ⟨_, by rw [Worker.move?, hpoint], ?_⟩
  simp only [Worker.testInterruption, if_neg htest]
  exact ⟨trivial, hpaused, hslot, hflag, listeners, rfl⟩

/-- A worker that is interrupted ends at a boundary. -/
theorem reaches_interrupted (hpoint : g.point = .boundary) (hasking : g.asking = false)
    (hat : g.machine.atBoundary = true) (hinterrupted : g.interrupted = true) :
    o.Reaches 1 s g s { g with point := .finished (.ok .interrupted) } := by
  refine reaches_of_silent hasking fun p hpaused hslot hflag listeners => ?_
  have htest : (g.machine.atBoundary && p.interrupted) = true := by simp [hat, hflag, hinterrupted]
  refine ⟨_, by rw [Worker.move?, hpoint], ?_⟩
  simp only [Worker.testInterruption, if_pos htest]
  exact ⟨trivial, hpaused, hslot, hflag, listeners, rfl⟩

/-- The limit is reached at a boundary. -/
def Limits (o : RunOptions) (m : Machine) : Bool :=
  m.atBoundary && o.limit.any (· ≤ m.registers.clock)

/-- A worker at the limit ends. -/
theorem reaches_limit (hpoint : g.point = .ready) (hasking : g.asking = false)
    (hlimit : o.Limits g.machine = true) :
    o.Reaches 1 s g s { g with point := .finished (.ok .cycleLimit) } := by
  refine reaches_of_silent hasking fun p hpaused hslot hflag listeners => ?_
  have hreached : (⟨g.machine, o.limit, listeners, .ready⟩ : Worker).limitReached = true := hlimit
  refine ⟨_, by rw [Worker.move?, hpoint], ?_⟩
  rw [Worker.work, if_pos hreached]
  exact ⟨rfl, hpaused, hslot, hflag, listeners, rfl⟩

/-- A worker does a micro-step that does not come to wait. -/
theorem reaches_driven (hpoint : g.point = .ready) (hasking : g.asking = false)
    (hlimit : o.Limits g.machine = false) (hwaits : g.machine.waits = false)
    (hgoes : g.machine.microStep.result ≠ .ok .awaitsInput) :
    o.Reaches 1 s g (s.say o.trace (g.machine.microStep.events.map .event))
      { g with
        machine := g.machine.microStep.machine
        point := Worker.pointAfter g.machine.microStep.result } := by
  have hquiet := (Machine.request_microStep hwaits).2 hgoes
  refine reaches_of_move hasking hquiet fun p hpaused hslot hflag listeners => ?_
  have hreached : ¬(⟨g.machine, o.limit, listeners, .ready⟩ : Worker).limitReached = true :=
    Bool.eq_false_iff.1 hlimit
  refine ⟨_, by rw [Worker.move?, hpoint], ?_⟩
  rw [Worker.work, if_neg hreached]
  exact ⟨rfl, hpaused, hslot, hflag, _, rfl⟩

/-- A worker whose machine waits takes a value from the slot. -/
theorem reaches_supplied {value : Nat} (hpoint : g.point = .reading) (hasking : g.asking = false)
    (hslot : g.slot.value? = some value) :
    o.Reaches 1 s g s
      { g with machine := g.machine.supply value, point := .boundary, slot := .empty } := by
  refine reaches_of_silent hasking fun p hpaused hheld hflag listeners => ?_
  refine ⟨_, by rw [Worker.move?, hpoint], ?_⟩
  simp only [Worker.takeInput, hheld, hslot]
  exact ⟨trivial, hpaused, rfl, hflag, listeners, rfl⟩

/-! ## Requests -/

/-- A micro-step that comes to wait tells so at its end. -/
theorem play_turn_of_request {session : RunSession} (h : o.Shows session g)
    (hpoint : g.point = .ready) (hasking : g.asking = false)
    (hlimit : o.Limits g.machine = false) (hwaits : g.machine.waits = false)
    (hawaits : g.machine.microStep.result = .ok .awaitsInput) :
    ∃ next, o.Shows next { g with machine := g.machine.microStep.machine, point := .reading } ∧
      session.turn.play s =
        (((next.answer .inputRequested).play
          (s.say o.trace (g.machine.openPhase.2.map .event))).1,
        .going ((next.answer .inputRequested).play
          (s.say o.trace (g.machine.openPhase.2.map .event))).2) := by
  obtain ⟨listeners, hworker⟩ := h.worker
  rw [hpoint] at hworker
  let w : Worker := ⟨g.machine, o.limit, listeners, .ready⟩
  have hreached : ¬w.limitReached = true := Bool.eq_false_iff.1 hlimit
  have hmove : w.move? session.controller.panel = some (w.drive session.controller.panel) := by
    change some (w.work session.controller.panel) = _
    rw [Worker.work, if_neg hreached]
  have hturn := RunSession.play_turn_of_move (h.asking.trans hasking) hworker hmove s
  have hevents : (w.drive session.controller.panel).events =
      g.machine.openPhase.2 ++ [.inputRequested] :=
    (Machine.request_microStep hwaits).1 hawaits
  have hopening : .inputRequested ∉ g.machine.openPhase.2 :=
    List.count_eq_zero.1 g.machine.requests_openPhase
  have hafter : (w.drive session.controller.panel).worker =
      { w with
        machine := g.machine.microStep.machine
        listeners := w.listeners.map (·.hear g.machine.microStep.events)
        point := .reading } := by
    change { w with machine := _, listeners := _, point := Worker.pointAfter _ } = _
    rw [hawaits]
    rfl
  have htrace : (session.moved (w.drive session.controller.panel)).trace = o.trace := h.trace
  refine ⟨session.moved (w.drive session.controller.panel),
    ⟨⟨_, congrArg some hafter⟩, h.paused, h.slot, h.interrupted, h.inputs, h.asking, h.trace,
      h.json⟩, ?_⟩
  rw [hturn, hevents, RunSession.play_answerAll_append,
    RunSession.play_answerAll_of_quiet _ hopening, htrace]
  simp only [RunSession.answerAll, Script.play_bind]
  rfl

/-- The session after a value has been given to a machine that waits for it. -/
theorem shows_give {session : RunSession} (h : o.Shows session g) (hpoint : g.point = .reading)
    (value : Int) :
    o.Shows (session.give value)
      { g with slot := .supplied (inputWord value), asking := false } := by
  obtain ⟨listeners, hworker⟩ := h.worker
  refine ⟨⟨listeners, ?_⟩, h.paused, rfl, h.interrupted, h.inputs, rfl, h.trace, h.json⟩
  simp [RunSession.give, Controller.setInput, Controller.wakeStarved, hworker, Worker.wakeStarved,
    hpoint]

/-- A value of the command line is given to whoever asks. -/
theorem reaches_given {value : Int} {rest : List Int} (hpoint : g.point = .ready)
    (hasking : g.asking = false) (hlimit : o.Limits g.machine = false)
    (hwaits : g.machine.waits = false) (hawaits : g.machine.microStep.result = .ok .awaitsInput)
    (hinputs : g.inputs = value :: rest) :
    o.Reaches 1 s g (s.say o.trace (g.machine.openPhase.2.map .event))
      { g with
        machine := g.machine.microStep.machine
        point := .reading
        slot := .supplied (inputWord value)
        inputs := rest } := by
  intro session h
  obtain ⟨next, hnext, hturn⟩ :=
    play_turn_of_request (s := s) h hpoint hasking hlimit hwaits hawaits
  have hanswer : next.answer .inputRequested = .done ({ next with inputs := rest }.give value) := by
    simp [RunSession.answer, hnext.inputs, hinputs]
  rw [hanswer, Script.play] at hturn
  have hshows : o.Shows { next with inputs := rest }
      { g with machine := g.machine.microStep.machine, point := .reading, inputs := rest } :=
    ⟨hnext.worker, hnext.paused, hnext.slot, hnext.interrupted, rfl, hnext.asking, hnext.trace,
      hnext.json⟩
  have hgiven := shows_give hshows rfl value
  refine ⟨({ next with inputs := rest } : RunSession).give value, ?_,
    Session.leads_of_runTurn hturn⟩
  simpa only [hasking] using hgiven

/-- When the command line has no more values, a line is asked for. -/
theorem reaches_asking (hpoint : g.point = .ready) (hasking : g.asking = false)
    (hlimit : o.Limits g.machine = false) (hwaits : g.machine.waits = false)
    (hawaits : g.machine.microStep.result = .ok .awaitsInput) (hinputs : g.inputs = []) :
    o.Reaches 1 s g (s.say o.trace (g.machine.openPhase.2.map .event))
      { g with machine := g.machine.microStep.machine, point := .reading, asking := true } := by
  intro session h
  obtain ⟨next, hnext, hturn⟩ :=
    play_turn_of_request (s := s) h hpoint hasking hlimit hwaits hawaits
  have hanswer : next.answer .inputRequested = .done { next with asking := true } := by
    simp [RunSession.answer, hnext.inputs, hinputs]
  rw [hanswer] at hturn
  exact ⟨{ next with asking := true }, ⟨hnext.worker, hnext.paused, hnext.slot,
    hnext.interrupted, hnext.inputs, rfl, hnext.trace, hnext.json⟩, Session.leads_of_runTurn hturn⟩

/-! ## Dialogues -/

theorem play_turn_of_asking {session : RunSession} (hasking : session.asking = true) :
    session.turn.play s = ((session.ask.play s).1, .going (session.ask.play s).2) := by
  rw [RunSession.turn, if_pos hasking, Script.play_bind]
  rfl

/-- A line with a number gives a value. -/
theorem reaches_answered {text : String} {lines : List String} {value : Int}
    (hpoint : g.point = .reading) (hasking : g.asking = true)
    (hnumber : lineNumber? text = some value) :
    o.Reaches 1 (s.withLines (text :: lines)) g
      ((s.withLines lines).say o.trace [.prompt])
      { g with slot := .supplied (inputWord value), asking := false } := by
  intro session h
  have hturn := play_turn_of_asking (s := s.withLines (text :: lines))
    (h.asking.trans hasking)
  rw [session.play_ask_number o.trace s lines hnumber] at hturn
  exact ⟨_, shows_give h hpoint value, Session.leads_of_runTurn hturn⟩

/-- A line without a number is passed over. -/
theorem reaches_rejected {text : String} (lines : List String) (hasking : g.asking = true)
    (hnumber : lineNumber? text = none) :
    o.Reaches 1 (s.withLines (text :: lines)) g
      ((s.withLines lines).say o.trace
        [.prompt, .rejected (String.ofList (Text.trim text.toList))]) g := by
  intro session h
  have hturn := play_turn_of_asking (s := s.withLines (text :: lines))
    (h.asking.trans hasking)
  rw [session.play_ask_rejected o.trace s lines hnumber] at hturn
  exact ⟨_, h, Session.leads_of_runTurn hturn⟩

/-- When there are no more lines, the run is interrupted, and zero takes the place of the value. -/
theorem reaches_exhausted (hpoint : g.point = .reading) (hasking : g.asking = true)
    (hslot : g.slot = .empty) :
    o.Reaches 1 (s.withLines []) g
      ((s.withLines []).say o.trace [.prompt, .exhausted])
      { g with slot := .placeholder, interrupted := true, asking := false } := by
  intro session h
  have hturn := play_turn_of_asking (s := s.withLines []) (h.asking.trans hasking)
  rw [session.play_ask_over o.trace s] at hturn
  obtain ⟨listeners, hworker⟩ := h.worker
  have hpanel : session.controller.requestInterruption.panel =
      { session.controller.panel with interrupted := true, slot := .placeholder } := by
    have hempty : session.controller.panel.interrupt.slot.value? = none :=
      congrArg Slot.value? (h.slot.trans hslot)
    change session.controller.panel.interrupt.offerPlaceholder = _
    rw [Panel.offerPlaceholder, if_pos hempty]
    rfl
  have hkept : session.controller.requestInterruption.worker =
      some ⟨g.machine, o.limit, listeners, g.point⟩ := by
    change ((session.controller.worker.map Worker.wakeHeld).map Worker.wakeStarved) = _
    simp [hworker, Worker.wakeHeld, Worker.wakeStarved, hpoint]
  refine ⟨{ session with
    controller := session.controller.requestInterruption
    asking := false }, ⟨⟨listeners, hkept⟩, ?_, ?_, ?_, h.inputs, rfl, h.trace, h.json⟩,
    Session.leads_of_runTurn hturn⟩
  · exact (congrArg Panel.paused hpanel).trans h.paused
  · exact congrArg Panel.slot hpanel
  · exact congrArg Panel.interrupted hpanel

/-- A dialogue gives the first number on the lines, or interrupts the run. -/
theorem reaches_dialogue (lines : List String) (hpoint : g.point = .reading)
    (hasking : g.asking = true) (hslot : g.slot = .empty) :
    ∃ n, (∀ value rest, lines.filterMap lineNumber? = value :: rest →
      o.Reaches n (s.withLines lines) g
        ((s.withLines (dialogue lines).2).say o.trace (dialogue lines).1)
        { g with slot := .supplied (inputWord value), asking := false }) ∧
      (lines.filterMap lineNumber? = [] →
        o.Reaches n (s.withLines lines) g
          ((s.withLines (dialogue lines).2).say o.trace (dialogue lines).1)
          { g with slot := .placeholder, interrupted := true, asking := false }) := by
  induction lines generalizing s with
  | nil => exact ⟨1, nofun, fun _ => reaches_exhausted hpoint hasking hslot⟩
  | cons text lines ih =>
    cases hnumber : lineNumber? text with
    | some number =>
      refine ⟨1, fun value rest hnumbers => ?_, by simp [hnumber]⟩
      rw [List.filterMap_cons_some hnumber] at hnumbers
      obtain rfl := (List.cons.inj hnumbers).1
      simpa [dialogue, hnumber] using reaches_answered (s := s) hpoint hasking hnumber
    | none =>
      have hrejected := reaches_rejected (o := o) (s := s) lines hasking hnumber
      obtain ⟨n, hgiven, hover⟩ := ih (s := s.say o.trace
        [.prompt, .rejected (String.ofList (Text.trim text.toList))])
      have hsaid : (dialogue (text :: lines)).1 =
          [.prompt, .rejected (String.ofList (Text.trim text.toList))] ++ (dialogue lines).1 := by
        simp [dialogue, hnumber]
      have hleft : (dialogue (text :: lines)).2 = (dialogue lines).2 := by
        simp [dialogue, hnumber]
      rw [List.filterMap_cons_none hnumber, hsaid, hleft]
      refine ⟨1 + n, fun value rest hnumbers => ?_, fun hnone => ?_⟩
      · rw [Surroundings.say_append]
        exact hrejected.trans (hgiven value rest hnumbers)
      · rw [Surroundings.say_append]
        exact hrejected.trans (hover hnone)

end RunOptions

/-! ## The end -/

/-- What is shown of an outcome: how the run has ended, and the registers. -/
def resultLines (json : Bool) (outcome : Outcome) : List String :=
  ["", "━━━ Result ━━━", Presentation.ending outcome.result] ++
    Presentation.registerLines outcome.machine.registers ++
    (if json then [Presentation.registerObject outcome.machine.registers] else []) ++
    match outcome.result with
    | .ok .cycleLimit =>
      ["", Presentation.warning "Reached max cycles limit. Use --max-cycles to increase."]
    | _ => []

def exitStatus : Except MachineError Termination → Nat
  | .ok _ => 0
  | .error _ => failureStatus

theorem play_conclude (session : RunSession) (outcome : Outcome) (s : Surroundings) :
    (session.conclude outcome).play s =
      (s.printed (textOf (resultLines session.json outcome)), exitStatus outcome.result) := by
  have hfirst (lines : List String) (rest : Script Nat) (s : Surroundings) :
      Script.play s (Script.bind (Presentation.lines lines) fun _ => rest) =
        rest.play (s.printed (textOf lines)) := by
    rw [Script.play_bind, play_lines]
  obtain ⟨machine, result⟩ := outcome
  refine (hfirst _ _ s).trans ?_
  cases result with
  | error cause => simp only [resultLines, List.append_nil]; rfl
  | ok termination =>
    cases termination with
    | halted | interrupted => simp only [resultLines, List.append_nil]; rfl
    | cycleLimit =>
      refine (hfirst _ (.done 0) _).trans ?_
      rw [Surroundings.printed_printed, ← textOf_append]
      rfl

/-- The last turn of a run shows the outcome. -/
theorem play_turn_of_finished {session : RunSession} {w : Worker}
    {r : Except MachineError Termination} (hasking : session.asking = false)
    (hworker : session.controller.worker = some w) (hpoint : w.point = .finished r)
    (s : Surroundings) :
    session.turn.play s =
      (s.printed (textOf (resultLines session.json ⟨w.machine, r⟩)), .ended (exitStatus r)) := by
  have hbusy : ¬session.asking = true := by simp [hasking]
  have hmove : session.controller.move? = none := by
    simp [Controller.move?, hworker, Worker.move?, hpoint]
  rw [RunSession.turn, if_neg hbusy, hmove]
  simp only [Controller.wait, hworker, hpoint]
  change Script.play s ((session.conclude ⟨w.machine, r⟩).bind fun status =>
    Script.done (Progress.ended status)) = _
  rw [Script.play_bind, play_conclude]
  rfl

theorem RunOptions.concludes_finished {o : RunOptions} {s : Surroundings} {g : Stage}
    {r : Except MachineError Termination} (hpoint : g.point = .finished r)
    (hasking : g.asking = false) :
    o.Concludes 1 s g (s.printed (textOf (resultLines o.json ⟨g.machine, r⟩))) (exitStatus r) := by
  intro session h
  obtain ⟨listeners, hworker⟩ := h.worker
  have hturn := play_turn_of_finished (h.asking.trans hasking) hworker hpoint s
  rw [h.json] at hturn
  exact Session.leads_of_runTurn hturn

end TrnComputer
