import Mathlib.Data.List.Basic
import TrnComputer.Proofs.CommandLine.RunTurns
import TrnComputer.Proofs.Control.Soundness

/-! # A console that is late

The worker and the console go at their own pace. What the worker tells waits in a channel until the
console takes it. Such a run ends as the one does in which the console answers at once.

* `Relay`: a run with its channel; `Relay.work`, `Relay.attend`: what worker and console do.
* `Relay.caughtUp`: what comes of a run when the console has emptied the channel.
* `Relay.Tidy`: the worker does not go on while it is not answered.
* `relay_iff`: a run may end in a way just when it does so without delay.
-/

namespace TrnComputer
set_option autoImplicit false

/-! ## Worker and console -/

/-- A run, and the events that the console has not taken. -/
structure Relay where
  session : RunSession
  channel : List Event := []

inductive Actor
  | worker
  | console
  deriving DecidableEq, Repr

namespace Relay

/-- The worker moves. What it tells goes into the channel. -/
def work (r : Relay) : Relay :=
  match r.session.controller.move? with
  | none => r
  | some (controller, events) =>
    { session := { r.session with controller }, channel := r.channel ++ events }

/-- The console asks for a line, or answers the next event. When there is none and the run has
finished, it shows the outcome. -/
def attend (r : Relay) : Script (Progress Relay) :=
  if r.session.asking then r.session.ask.bind fun session => .done (.going { r with session })
  else match r.channel with
    | e :: rest => (r.session.answer e).bind fun session => .done (.going ⟨session, rest⟩)
    | [] =>
      match r.session.controller.wait.2 with
      | .ok (some outcome) =>
        (r.session.conclude outcome).bind fun status => .done (.ended status)
      | _ => .done (.going r)

/-- What comes of a run when worker and console act in some order. -/
def playAll (s : Surroundings) (p : Progress Relay) : List Actor → Surroundings × Progress Relay
  | [] => (s, p)
  | actor :: rest =>
    match p, actor with
    | .ended status, _ => (s, .ended status)
    | .going r, .worker => playAll s (.going r.work) rest
    | .going r, .console =>
      let (s, p) := r.attend.play s
      playAll s p rest

end Relay

/-! ## Catching up -/

/-- A worker that is starved stands where it has looked for a value. -/
def Point.awake : Point → Point
  | .starved _ => .reading
  | p => p

namespace Worker

def awake (w : Worker) : Worker := { w with point := w.point.awake }

theorem awake_wakeStarved (w : Worker) : w.wakeStarved.awake = w.awake.wakeStarved := by
  obtain ⟨machine, limit, listeners, point⟩ := w
  cases point <;> rfl

theorem awake_wakeHeld (w : Worker) : w.wakeHeld.awake = w.awake.wakeHeld := by
  obtain ⟨machine, limit, listeners, point⟩ := w
  cases point <;> rfl

section
variable {p : Panel} {w : Worker} {m : Move}

theorem wakeStarved_of_reading (h : w.point.awake = .reading) :
    w.wakeStarved.point.awake = .reading := by
  obtain ⟨machine, limit, listeners, point⟩ := w
  cases point with
  | reading | starved => rfl
  | _ => cases h

theorem wakeHeld_of_reading (h : w.point.awake = .reading) : w.wakeHeld = w := by
  obtain ⟨machine, limit, listeners, point⟩ := w
  cases point with
  | reading | starved => rfl
  | _ => cases h

theorem awake_of_ne (h : ∀ woken, w.point ≠ .starved woken) : w.awake = w := by
  obtain ⟨machine, limit, listeners, point⟩ := w
  cases point with
  | starved woken => exact absurd rfl (h woken)
  | _ => rfl

/-- A worker that looks for a value in vain stays where it is, apart from sleeping. Any other worker
moves as it does when it is awake, and does not sleep then. -/
theorem move_awake (h : w.move? p = some m) :
    (m = { panel := p, worker := { w with point := .starved false } } ∧
      w.point.awake = .reading) ∨
    (w.awake.move? p = some m ∧ m.worker.awake = m.worker ∧
      (w.point.awake = .reading → p.slot ≠ .empty)) := by
  have hmoved := moved_of_move? h
  cases hmoved with
  | isStarved hpoint hslot =>
    refine .inl ⟨rfl, ?_⟩
    obtain hp | hp := hpoint <;> rw [hp] <;> rfl
  | takes hpoint hslot =>
    refine .inr ⟨?_, rfl, fun _ hempty => ?_⟩
    · have hawake : w.awake.point = .reading := by
        change w.point.awake = _
        obtain hp | hp := hpoint <;> rw [hp] <;> rfl
      rw [move?, hawake]
      simp only [takeInput, hslot]
      rfl
    · rw [hempty] at hslot
      cases hslot
  | passes hpoint | isHeld hpoint =>
    refine .inr ⟨?_, rfl, ?_⟩
    · rwa [awake_of_ne]
      obtain hp | hp := hpoint <;> simp [hp]
    · obtain hp | hp := hpoint <;> simp [hp, Point.awake]
  | isInterrupted hpoint | goesOn hpoint | limited hpoint =>
    refine .inr ⟨?_, rfl, ?_⟩
    · rwa [awake_of_ne]
      simp [hpoint]
    · simp [hpoint, Point.awake]
  | drives hpoint =>
    refine .inr ⟨?_, ?_, ?_⟩
    · rwa [awake_of_ne]
      simp [hpoint]
    · apply awake_of_ne
      intro woken
      change pointAfter w.machine.microStep.result ≠ _
      unfold pointAfter
      split <;> simp
    · simp [hpoint, Point.awake]

end

end Worker

namespace RunSession

/-- The session with its worker awake. -/
def awake (session : RunSession) : RunSession :=
  { session with
    controller := { session.controller with
      worker := session.controller.worker.map Worker.awake } }

theorem awake_eq_self {session : RunSession} {w : Worker}
    (hworker : session.controller.worker = some w) (hawake : w.awake = w) :
    session.awake = session := by
  obtain ⟨⟨panel, limit, program, listeners, worker, journal⟩, inputs, trace, json, asking⟩ :=
    session
  obtain rfl : worker = some w := hworker
  simp [awake, hawake]

theorem awake_give (session : RunSession) (value : Int) :
    (session.give value).awake = session.awake.give value := by
  obtain ⟨⟨panel, limit, program, listeners, worker, journal⟩, inputs, trace, json, asking⟩ :=
    session
  cases worker with
  | none => rfl
  | some w =>
    simp [awake, give, Controller.setInput, Controller.wakeStarved, Worker.awake_wakeStarved]

theorem awake_moved_starved {session : RunSession} {w : Worker}
    (hworker : session.controller.worker = some w) (hpoint : w.point.awake = .reading) :
    (session.moved
      { panel := session.controller.panel
        worker := { w with point := .starved false } }).awake = session.awake := by
  have hstarved : (Point.starved false).awake = .reading := rfl
  simp [awake, moved, Worker.awake, hworker, hpoint, hstarved]

theorem awake_moved (session : RunSession) {m : Move} (hawake : m.worker.awake = m.worker) :
    (session.moved m).awake = session.awake.moved m := by
  simp [awake, moved, hawake]

/-- Answers do not depend on whether the worker is awake. -/
theorem play_answer_awake (session : RunSession) (e : Event) (s : Surroundings) :
    (session.awake.answer e).play s =
      (((session.answer e).play s).1, ((session.answer e).play s).2.awake) := by
  cases e with
  | inputRequested =>
    cases hinputs : session.inputs with
    | nil => simp [answer, awake, hinputs, Script.play]
    | cons value inputs =>
      have hawake : ({ session with inputs } : RunSession).awake = { session.awake with inputs } :=
        rfl
      have hleft : session.awake.inputs = value :: inputs := hinputs
      simp [answer, hinputs, hleft, Script.play, awake_give, hawake]
  | moved clock movement value =>
    have htrace : session.awake.trace = session.trace := rfl
    cases h : session.trace <;> simp [answer, htrace, h, Script.play]
  | _ => rfl

theorem awake_requestInterruption (session : RunSession) :
    ({ session with
        controller := session.controller.requestInterruption
        asking := false } : RunSession).awake =
      { session.awake with
        controller := session.awake.controller.requestInterruption
        asking := false } := by
  obtain ⟨⟨panel, limit, program, listeners, worker, journal⟩, inputs, trace, json, asking⟩ :=
    session
  cases worker with
  | none => rfl
  | some w =>
    simp [awake, Controller.requestInterruption, Controller.raiseFlag, Controller.wakeHeld,
      Controller.offerPlaceholder, Controller.wakeStarved, Worker.awake_wakeStarved,
      Worker.awake_wakeHeld]

/-- What a line comes to does not depend on it, either. -/
theorem play_ask_awake (session : RunSession) (s : Surroundings) :
    session.awake.ask.play s = ((session.ask.play s).1, (session.ask.play s).2.awake) := by
  have hs : s = s.withLines s.lines := rfl
  rw [hs]
  cases s.lines with
  | nil => rw [play_ask_over _ true, play_ask_over _ true, awake_requestInterruption]
  | cons text lines =>
    cases hnumber : lineNumber? text with
    | none =>
      rw [play_ask_rejected _ true s lines hnumber, play_ask_rejected _ true s lines hnumber]
    | some value =>
      rw [play_ask_number _ true s lines hnumber, play_ask_number _ true s lines hnumber,
        awake_give]

end RunSession

namespace Relay

/-- What comes of a run when the console has emptied the channel. -/
def caughtUp (r : Relay) (s : Surroundings) : Surroundings × RunSession :=
  (r.session.awake.answerAll r.channel).play s

/-- Whether the worker waits for a value, or for the answer to a request. -/
def Awaits (r : Relay) : Prop := r.session.asking = true ∨ .inputRequested ∈ r.channel

/-- The worker does not go on while it is not answered, and a request is the last event. -/
structure Tidy (r : Relay) (w : Worker) : Prop where
  worker : r.session.controller.worker = some w
  sound : w.Sound
  /-- The slot is filled only for a worker that waits. -/
  slot : r.session.controller.panel.slot = .empty ∨ w.point.awake = .reading
  awaits : r.Awaits → r.session.controller.panel.slot = .empty ∧ w.point.awake = .reading
  asking : r.session.asking = true → r.channel = []
  last : ∀ front rest, r.channel = front ++ .inputRequested :: rest → rest = []

section
variable {r : Relay} {w : Worker} {m : Move}

/-! ## Moves of the worker -/

theorem work_of_move (hworker : r.session.controller.worker = some w)
    (hmove : w.move? r.session.controller.panel = some m) :
    r.work = ⟨r.session.moved m, r.channel ++ m.events⟩ := by
  simp [work, Controller.move?, hworker, hmove, RunSession.moved]

theorem work_of_none (hworker : r.session.controller.worker = some w)
    (hmove : w.move? r.session.controller.panel = none) : r.work = r := by
  simp [work, Controller.move?, hworker, hmove]

/-- A move that asks for nothing leaves a run tidy on which nobody waits. -/
theorem tidy_of_quiet (hcalm : ¬r.Awaits) (hsound : m.worker.Sound)
    (hslot : m.panel.slot = .empty) (hquiet : .inputRequested ∉ m.events) :
    Tidy ⟨r.session.moved m, r.channel ++ m.events⟩ m.worker := by
  have hnone : .inputRequested ∉ r.channel ++ m.events := by
    rw [List.mem_append]
    rintro (hold | hnew)
    · exact hcalm (.inr hold)
    · exact hquiet hnew
  refine ⟨rfl, hsound, .inl hslot, ?_, fun hasking => absurd (.inl hasking) hcalm, ?_⟩
  · rintro (hasking | hrequest)
    · exact absurd (.inl hasking) hcalm
    · exact absurd hrequest hnone
  · intro front rest hchannel
    replace hchannel : r.channel ++ m.events = _ := hchannel
    exact absurd (by simp [hchannel]) hnone

/-- A micro-step that comes to wait is told of last. -/
theorem tidy_of_request (hcalm : ¬r.Awaits) (hsound : m.worker.Sound)
    (hslot : m.panel.slot = .empty) (hpoint : m.worker.point.awake = .reading)
    {opening : List Event} (hevents : m.events = opening ++ [.inputRequested])
    (hopening : .inputRequested ∉ opening) :
    Tidy ⟨r.session.moved m, r.channel ++ m.events⟩ m.worker := by
  have hfront : .inputRequested ∉ r.channel ++ opening := by
    rw [List.mem_append]
    rintro (hold | hnew)
    · exact hcalm (.inr hold)
    · exact hopening hnew
  refine ⟨rfl, hsound, .inl hslot, fun _ => ⟨hslot, hpoint⟩,
    fun hasking => absurd (.inl hasking) hcalm, fun front rest hchannel => ?_⟩
  replace hchannel :
      (r.channel ++ opening) ++ [.inputRequested] = front ++ .inputRequested :: rest := by
    rw [List.append_assoc, ← hevents]
    exact hchannel
  exact ((List.append_cons_inj_of_notMem hfront List.not_mem_nil).1 hchannel).2.2.symm

/-- The worker keeps a run tidy. -/
theorem Tidy.work (h : r.Tidy w) (hmove : w.move? r.session.controller.panel = some m) :
    Tidy ⟨r.session.moved m, r.channel ++ m.events⟩ m.worker := by
  have hsound := h.sound.move hmove
  have hmoved := Worker.moved_of_move? hmove
  obtain ⟨rfl, hpoint⟩ | ⟨-, hawake, hfilled⟩ := Worker.move_awake hmove
  · refine ⟨rfl, hsound, .inr rfl, fun hawaits => ?_, fun hasking => ?_, fun front rest => ?_⟩
    · rw [List.append_nil] at hawaits
      exact ⟨(h.awaits hawaits).1, rfl⟩
    · rw [List.append_nil]
      exact h.asking hasking
    · rw [List.append_nil]
      exact h.last front rest
  · have hcalm : ¬r.Awaits := fun hawaits =>
      hfilled (h.awaits hawaits).2 (h.awaits hawaits).1
    have hempty (hpoint : w.point.awake ≠ .reading) : r.session.controller.panel.slot = .empty :=
      h.slot.resolve_right hpoint
    cases hmoved with
    | takes => exact tidy_of_quiet hcalm hsound rfl List.not_mem_nil
    | isStarved => cases congrArg Worker.point hawake
    | passes hpoint =>
      refine tidy_of_quiet hcalm hsound ((Panel.slot_pass _).trans (hempty ?_)) List.not_mem_nil
      obtain hp | hp := hpoint <;> simp [hp, Point.awake]
    | isHeld hpoint =>
      refine tidy_of_quiet hcalm hsound (hempty ?_) List.not_mem_nil
      obtain hp | hp := hpoint <;> simp [hp, Point.awake]
    | isInterrupted hpoint | goesOn hpoint | limited hpoint =>
      exact tidy_of_quiet hcalm hsound (hempty (by simp [hpoint, Point.awake])) List.not_mem_nil
    | drives hpoint =>
      have hslot := hempty (by simp [hpoint, Point.awake])
      have hwaits : w.machine.waits = false := by
        rw [Machine.waits, h.sound.answered (.inr hpoint)]
        cases w.machine.input <;> rfl
      obtain ⟨hasks, hquiet⟩ := Machine.request_microStep hwaits
      by_cases hawaits : w.machine.microStep.result = .ok .awaitsInput
      · refine tidy_of_request hcalm hsound hslot ?_ (hasks hawaits)
          (List.count_eq_zero.1 w.machine.requests_openPhase)
        change (Worker.pointAfter _).awake = _
        rw [hawaits]
        rfl
      · exact tidy_of_quiet hcalm hsound hslot (hquiet hawaits)

/-- A run that has caught up follows the worker. Nothing shows of one that falls asleep. -/
theorem leads_work (h : r.Tidy w) (s : Surroundings) :
    ∃ k, Session.Leads k (r.caughtUp s).1 (.going (.run (r.caughtUp s).2))
      (r.work.caughtUp s).1 (.going (.run (r.work.caughtUp s).2)) := by
  cases hmove : w.move? r.session.controller.panel with
  | none =>
    rw [work_of_none h.worker hmove]
    exact ⟨0, Session.Leads.refl _ _⟩
  | some m =>
    rw [work_of_move h.worker hmove]
    obtain ⟨rfl, hpoint⟩ | ⟨hsame, hawake, hfilled⟩ := Worker.move_awake hmove
    · rw [caughtUp, caughtUp, List.append_nil, RunSession.awake_moved_starved h.worker hpoint]
      exact ⟨0, Session.Leads.refl _ _⟩
    · have hcalm : ¬r.Awaits := fun hawaits =>
        hfilled (h.awaits hawaits).2 (h.awaits hawaits).1
      have hasking : r.session.awake.asking = false :=
        Bool.eq_false_iff.2 fun hasking => hcalm (.inl hasking)
      have hquiet : .inputRequested ∉ r.channel := fun hrequest => hcalm (.inr hrequest)
      have hworker : r.session.awake.controller.worker = some w.awake :=
        congrArg (Option.map Worker.awake) h.worker
      rw [caughtUp, caughtUp, RunSession.awake_moved _ hawake, RunSession.play_answerAll_append,
        RunSession.play_answerAll_of_quiet _ hquiet, RunSession.play_answerAll_of_quiet _ hquiet]
      exact ⟨1, Session.leads_of_runTurn (RunSession.play_turn_of_move hasking hworker hsame _)⟩

/-! ## What the console does -/

/-- A worker that gets something into its slot wakes up. -/
theorem tidy_woken {session : RunSession} (hsound : w.Sound) (hpoint : w.point.awake = .reading)
    (hworker : session.controller.worker = some w.wakeStarved) (hasking : session.asking = false) :
    Tidy ⟨session, []⟩ w.wakeStarved := by
  have hcalm : ¬Awaits ⟨session, []⟩ := by
    rintro (hasks | hrequest)
    · cases hasking.symm.trans hasks
    · cases hrequest
  exact ⟨hworker, w.woken_wakeStarved.sound hsound, .inr (Worker.wakeStarved_of_reading hpoint),
    fun hawaits => absurd hawaits hcalm, fun _ => rfl, by simp⟩

theorem tidy_give (h : r.Tidy w) (hpoint : w.point.awake = .reading) (inputs : List Int)
    (value : Int) : Tidy ⟨({ r.session with inputs } : RunSession).give value, []⟩ w.wakeStarved :=
  tidy_woken h.sound hpoint
    (by simp [RunSession.give, Controller.setInput, Controller.wakeStarved, h.worker]) rfl

/-- A line that is asked for keeps a run tidy. -/
theorem tidy_ask (h : r.Tidy w) (hasking : r.session.asking = true) (s : Surroundings) :
    ∃ w', Tidy ⟨(r.session.ask.play s).2, []⟩ w' := by
  obtain ⟨-, hpoint⟩ := h.awaits (.inl hasking)
  have hs : s = s.withLines s.lines := rfl
  rw [hs]
  cases s.lines with
  | nil =>
    rw [RunSession.play_ask_over _ true]
    refine ⟨w.wakeStarved, tidy_woken h.sound hpoint ?_ rfl⟩
    change ((r.session.controller.worker.map Worker.wakeHeld).map Worker.wakeStarved) = _
    rw [h.worker, Option.map_some, Worker.wakeHeld_of_reading hpoint]
    rfl
  | cons text lines =>
    cases hnumber : lineNumber? text with
    | none =>
      rw [RunSession.play_ask_rejected _ true s lines hnumber]
      have hchannel := h.asking hasking
      exact ⟨w, by simpa [← hchannel] using h⟩
    | some value =>
      rw [RunSession.play_ask_number _ true s lines hnumber]
      exact ⟨_, tidy_give h hpoint r.session.inputs value⟩

/-- An answer keeps a run tidy. -/
theorem tidy_answer (h : r.Tidy w) (hasking : r.session.asking = false) {e : Event}
    {rest : List Event} (hchannel : r.channel = e :: rest) (s : Surroundings) :
    ∃ w', Tidy ⟨((r.session.answer e).play s).2, rest⟩ w' := by
  by_cases hrequest : e = .inputRequested
  · subst hrequest
    obtain rfl := h.last [] rest hchannel
    obtain ⟨hslot, hpoint⟩ := h.awaits (.inr (by simp [hchannel]))
    cases hinputs : r.session.inputs with
    | nil =>
      have hanswer : r.session.answer .inputRequested =
          .done { r.session with asking := true } := by
        simp [RunSession.answer, hinputs]
      rw [hanswer]
      exact ⟨w, h.worker, h.sound, h.slot, fun _ => ⟨hslot, hpoint⟩, fun _ => rfl, by simp⟩
    | cons value inputs =>
      have hanswer : r.session.answer .inputRequested =
          .done ({ r.session with inputs }.give value) := by
        simp [RunSession.answer, hinputs]
      rw [hanswer]
      exact ⟨_, tidy_give h hpoint inputs value⟩
  · rw [RunSession.play_answer_of_ne _ hrequest]
    refine ⟨w, h.worker, h.sound, h.slot, ?_, ?_, fun front later hrest => ?_⟩
    · rintro (hasks | hlater)
      · cases hasking.symm.trans hasks
      · exact h.awaits (.inr (by simp [hchannel, show Event.inputRequested ∈ rest from hlater]))
    · intro hasks
      cases hasking.symm.trans hasks
    · replace hrest : rest = _ := hrest
      exact h.last (e :: front) later (by rw [hchannel, hrest, List.cons_append])

/-- When a run has finished and the channel is empty, the console shows the outcome. -/
theorem play_attend_of_finished (hasking : r.session.asking = false) (hchannel : r.channel = [])
    (hworker : r.session.controller.worker = some w) {result : Except MachineError Termination}
    (hpoint : w.point = .finished result) (s : Surroundings) :
    r.attend.play s =
      (s.printed (textOf (resultLines r.session.json ⟨w.machine, result⟩)),
        .ended (exitStatus result)) := by
  have hidle : ¬r.session.asking = true := by simp [hasking]
  rw [attend, if_neg hidle, hchannel]
  simp only [Controller.wait, hworker, hpoint, Script.play_bind, play_conclude]
  rfl

/-- The console keeps a run tidy, and one that has caught up follows it. -/
theorem leads_attend (h : r.Tidy w) (s : Surroundings) :
    (∃ r' s', r.attend.play s = (s', .going r') ∧ (∃ w', r'.Tidy w') ∧
      ∃ k, Session.Leads k (r.caughtUp s).1 (.going (.run (r.caughtUp s).2))
        (r'.caughtUp s').1 (.going (.run (r'.caughtUp s').2))) ∨
    ∃ s' status, r.attend.play s = (s', .ended status) ∧
      Session.Leads 1 (r.caughtUp s).1 (.going (.run (r.caughtUp s).2)) s' (.ended status) := by
  by_cases hasking : r.session.asking = true
  · have hchannel := h.asking hasking
    refine .inl ⟨{ r with session := (r.session.ask.play s).2 }, (r.session.ask.play s).1, ?_, ?_,
      1, ?_⟩
    · rw [attend, if_pos hasking, Script.play_bind]
      rfl
    · rw [hchannel]
      exact tidy_ask h hasking s
    · rw [caughtUp, caughtUp, hchannel]
      have hasks : r.session.awake.asking = true := hasking
      have hturn := RunOptions.play_turn_of_asking (s := s) hasks
      rw [RunSession.play_ask_awake] at hturn
      exact Session.leads_of_runTurn hturn
  · have hcalm : r.session.asking = false := Bool.eq_false_iff.2 hasking
    cases hchannel : r.channel with
    | cons e rest =>
      refine .inl ⟨⟨((r.session.answer e).play s).2, rest⟩, ((r.session.answer e).play s).1, ?_,
        tidy_answer h hcalm hchannel s, 0, ?_⟩
      · rw [attend, if_neg hasking, hchannel]
        simp only [Script.play_bind]
        rfl
      · rw [caughtUp, caughtUp, hchannel, RunSession.answerAll, Script.play_bind,
          RunSession.play_answer_awake]
        exact Session.Leads.refl _ _
    | nil =>
      have hcaught : r.caughtUp s = (s, r.session.awake) := by
        rw [caughtUp, hchannel]
        rfl
      cases hpoint : w.point with
      | finished result =>
        have hworker : r.session.awake.controller.worker = some w.awake :=
          congrArg (Option.map Worker.awake) h.worker
        have hfinished : w.awake.point = .finished result := congrArg Point.awake hpoint
        have hidle : r.session.awake.asking = false := hcalm
        rw [hcaught]
        exact .inr ⟨_, _, play_attend_of_finished hcalm hchannel h.worker hpoint s,
          Session.leads_of_runTurn (play_turn_of_finished hidle hworker hfinished s)⟩
      | _ =>
        refine .inl ⟨r, s, ?_, ⟨w, h⟩, 0, Session.Leads.refl _ _⟩
        rw [attend, if_neg hasking, hchannel]
        simp only [Controller.wait, h.worker, hpoint]
        rfl

/-! ## Whole runs -/

theorem tidy_work (h : r.Tidy w) : ∃ w', r.work.Tidy w' := by
  cases hmove : w.move? r.session.controller.panel with
  | none =>
    rw [work_of_none h.worker hmove]
    exact ⟨w, h⟩
  | some m =>
    rw [work_of_move h.worker hmove]
    exact ⟨_, h.work hmove⟩

theorem playAll_ended (s : Surroundings) (status : Nat) (actors : List Actor) :
    playAll s (.ended status) actors = (s, .ended status) := by
  cases actors <;> rfl

theorem playAll_console {s s' : Surroundings} {p : Progress Relay}
    (h : r.attend.play s = (s', p)) (actors : List Actor) :
    playAll s (.going r) (.console :: actors) = playAll s' p actors := by
  rw [playAll, h]

theorem playAll_append (s : Surroundings) (p : Progress Relay) (actors more : List Actor) :
    playAll s p (actors ++ more) =
      playAll (playAll s p actors).1 (playAll s p actors).2 more := by
  induction actors generalizing s p with
  | nil => rfl
  | cons actor rest ih =>
    cases p with
    | ended status => simp only [playAll_ended]
    | going r =>
      cases actor with
      | worker => exact ih s (.going r.work)
      | console => exact ih (r.attend.play s).1 (r.attend.play s).2

theorem tidy_playAll (h : r.Tidy w) {s s' : Surroundings} {actors : List Actor} {r' : Relay}
    (hplayed : playAll s (.going r) actors = (s', .going r')) : ∃ w', r'.Tidy w' := by
  induction actors generalizing r w s with
  | nil =>
    cases hplayed
    exact ⟨w, h⟩
  | cons actor rest ih =>
    cases actor with
    | worker =>
      obtain ⟨w', h'⟩ := tidy_work h
      exact ih h' hplayed
    | console =>
      obtain ⟨next, later, hnext, ⟨w', h'⟩, -⟩ | ⟨later, status, hended, -⟩ := leads_attend h s
      · rw [playAll_console hnext] at hplayed
        exact ih h' hplayed
      · rw [playAll_console hended, playAll_ended] at hplayed
        cases hplayed

/-- What comes of a run comes of it without delay. -/
theorem leads_playAll (h : r.Tidy w) {s s' : Surroundings} {actors : List Actor} {status : Nat}
    (hplayed : playAll s (.going r) actors = (s', .ended status)) :
    ∃ k, Session.Leads k (r.caughtUp s).1 (.going (.run (r.caughtUp s).2)) s' (.ended status) := by
  induction actors generalizing r w s with
  | nil => cases hplayed
  | cons actor rest ih =>
    cases actor with
    | worker =>
      obtain ⟨w', h'⟩ := tidy_work h
      obtain ⟨k, hmoved⟩ := leads_work h s
      obtain ⟨more, hrest⟩ := ih h' hplayed
      exact ⟨k + more, hmoved.trans hrest⟩
    | console =>
      obtain ⟨next, later, hnext, ⟨w', h'⟩, k, hattended⟩ | ⟨later, last, hended, hattended⟩ :=
        leads_attend h s
      · rw [playAll_console hnext] at hplayed
        obtain ⟨more, hrest⟩ := ih h' hplayed
        exact ⟨k + more, hattended.trans hrest⟩
      · rw [playAll_console hended, playAll_ended] at hplayed
        cases hplayed
        exact ⟨1, hattended⟩

/-- The console empties the channel. -/
theorem playAll_consoles {session : RunSession} {channel : List Event} (s : Surroundings)
    (hasking : session.asking = false)
    (hlast : ∀ front rest, channel = front ++ .inputRequested :: rest → rest = []) :
    playAll s (.going ⟨session, channel⟩) (List.replicate channel.length .console) =
      (((session.answerAll channel).play s).1,
        .going ⟨((session.answerAll channel).play s).2, []⟩) := by
  induction channel generalizing s with
  | nil => rfl
  | cons e rest ih =>
    have hidle : ¬session.asking = true := by simp [hasking]
    have hanswered : (attend ⟨session, e :: rest⟩).play s =
        (((session.answer e).play s).1, .going ⟨((session.answer e).play s).2, rest⟩) := by
      rw [attend, if_neg hidle]
      simp only [Script.play_bind]
      rfl
    rw [List.length_cons, List.replicate_succ, playAll_console hanswered, RunSession.answerAll,
      Script.play_bind]
    by_cases hrequest : e = .inputRequested
    · subst hrequest
      obtain rfl := hlast [] rest rfl
      rfl
    · rw [RunSession.play_answer_of_ne _ hrequest]
      exact ih _ fun front later hrest => hlast (e :: front) later (by rw [hrest, List.cons_append])

/-- A turn without delay: the worker moves, and the console answers all that it tells. -/
theorem exists_actors {session : RunSession} (h : Tidy ⟨session, []⟩ w) (s : Surroundings) :
    ∃ actors, playAll s (.going ⟨session, []⟩) actors =
      ((session.turn.play s).1, (session.turn.play s).2.map (Relay.mk · [])) := by
  by_cases hasking : session.asking = true
  · refine ⟨[.console], ?_⟩
    have hasked : (attend ⟨session, []⟩).play s =
        ((session.ask.play s).1, .going ⟨(session.ask.play s).2, []⟩) := by
      rw [attend, if_pos hasking, Script.play_bind]
      rfl
    rw [playAll_console hasked, RunOptions.play_turn_of_asking hasking]
    rfl
  · have hidle : session.asking = false := Bool.eq_false_iff.2 hasking
    cases hmove : w.move? session.controller.panel with
    | some m =>
      refine ⟨.worker :: List.replicate m.events.length .console, ?_⟩
      have hwork : work ⟨session, []⟩ = ⟨session.moved m, m.events⟩ := work_of_move h.worker hmove
      have hconsoles : playAll s (.going ⟨session.moved m, m.events⟩) _ = _ :=
        playAll_consoles s hidle (h.work hmove).last
      change playAll s (.going (work ⟨session, []⟩)) _ = _
      rw [hwork, RunSession.play_turn_of_move hidle h.worker hmove]
      exact hconsoles
    | none =>
      cases hpoint : w.point with
      | finished result =>
        have hshown : (attend ⟨session, []⟩).play s = _ :=
          play_attend_of_finished hidle rfl h.worker hpoint s
        refine ⟨[.console], ?_⟩
        rw [playAll_console hshown, play_turn_of_finished hidle h.worker hpoint]
        rfl
      | _ =>
        refine ⟨[], ?_⟩
        have hworker : session.controller.worker = some w := h.worker
        have hstill : session.controller.move? = none := by simp [Controller.move?, hworker, hmove]
        have hwait : session.controller.wait.2 = .ok none := by
          simp only [Controller.wait, hworker, hpoint]
        have hturn : session.turn.play s = (s, .going session) := by
          rw [RunSession.turn, if_neg hasking, hstill, hwait]
          rfl
        rw [hturn]
        rfl

end

end Relay

/-- A run may end in a way just when it does so without delay. -/
theorem relay_iff {session : RunSession} {w : Worker} (h : Relay.Tidy ⟨session, []⟩ w)
    (hawake : session.awake = session) (s s' : Surroundings) (status : Nat) :
    (∃ actors, Relay.playAll s (.going ⟨session, []⟩) actors = (s', .ended status)) ↔
      ∃ fuel, Session.playOn fuel s (.going (.run session)) = (s', some status) := by
  constructor
  · rintro ⟨actors, hplayed⟩
    obtain ⟨k, hleads⟩ := Relay.leads_playAll h hplayed
    have hcaught : Relay.caughtUp ⟨session, []⟩ s = (s, session) := by
      rw [Relay.caughtUp, hawake]
      rfl
    rw [hcaught] at hleads
    exact ⟨k, (hleads 0).trans (Session.playOn_ended 0 _ _)⟩
  · rintro ⟨fuel, hplayed⟩
    clear hawake
    induction fuel generalizing session w s with
    | zero => cases hplayed
    | succ fuel ih =>
      obtain ⟨actors, hturn⟩ := Relay.exists_actors h s
      have hfirst : Session.playOn (fuel + 1) s (.going (.run session)) =
          Session.playOn fuel (session.turn.play s).1 ((session.turn.play s).2.map .run) := by
        rw [Session.playOn, Session.turn, Script.play_bind]
        rfl
      rw [hfirst] at hplayed
      cases hnext : (session.turn.play s).2 with
      | ended last =>
        rw [hnext] at hturn hplayed
        have hended := (Session.playOn_ended fuel _ _).symm.trans hplayed
        cases hended
        exact ⟨actors, hturn⟩
      | going next =>
        rw [hnext] at hturn hplayed
        obtain ⟨w', h'⟩ := Relay.tidy_playAll h hturn
        obtain ⟨more, hrest⟩ := ih h' _ hplayed
        refine ⟨actors ++ more, ?_⟩
        rw [Relay.playAll_append, hturn]
        exact hrest

end TrnComputer
