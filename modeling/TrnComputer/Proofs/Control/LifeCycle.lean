import TrnComputer.Proofs.Control.Usage

/-! # The life of runs

A controller takes a program, starts it, and is waited for; then it takes the next one. Whether a
call is refused, what a run starts from and who hears it depend on what has been done before, and on
nothing else.

* `Episode`, `Career`: a controller in use, with a log of what has come of the acts.
* `Outstanding`, `LastLoaded`, `Unloaded`: what the log says of runs and programs.
* `audience`: who has been added, with the events of all runs that have started since.
* `Crewed`, `Stocked`: how the controller stands to its log; `accounted_career`: it does so whatever
  is done.
* `life_cycle`: refusals, starts and listeners in terms of the log.
-/

namespace TrnComputer
set_option autoImplicit false

/-! ## The log -/

/-- What has come of an act: a program has been loaded, a listener added, a run started or waited
for, or the machine has told something. -/
inductive Episode
  | loaded (memory : Memory)
  | added (id : Nat)
  | started
  | waited
  | told (events : List Event)

/-- What comes of an act. A call that is refused, or not made, leaves no trace. -/
def Usage.episode? (u : Usage) : Act → Option Episode
  | .load memory =>
    if u.pending = 0 ∧ (u.controller.load memory).2.isOk then some (.loaded memory) else none
  | .addListener id => if u.pending = 0 then some (.added id) else none
  | .start => if u.pending = 0 ∧ u.controller.start.2.isOk then some .started else none
  | .wait =>
    match u.controller.wait.2 with
    | .ok (some _) => if u.pending = 0 then some .waited else none
    | _ => none
  | .turn t => some (.told (({ controller := u.controller } : Course).after t).events)
  | .flag | .wake | .offer => none

/-- A controller in use with its log. -/
structure Career where
  usage : Usage
  log : List Episode := []

def Career.after (k : Career) (act : Act) : Career :=
  ⟨k.usage.after act, k.log ++ (k.usage.episode? act).toList⟩

/-- A controller with the given settings after all that has been done with it, and the log of it. -/
def career (settings : Settings) (acts : List Act) : Career :=
  acts.foldl Career.after { usage := { controller := .ofSettings settings } }

theorem usage_career (settings : Settings) (acts : List Act) :
    (career settings acts).usage = usage settings acts :=
  (List.foldl_hom Career.usage fun _ _ => rfl).symm

/-! ## Runs and programs -/

/-- What has come since an episode. -/
def Since (x : Episode) (log later : List Episode) : Prop := ∃ earlier, log = earlier ++ x :: later

/-- A run has been started and not been waited for. -/
def Outstanding (log : List Episode) : Prop := ∃ later, Since .started log later ∧ .waited ∉ later

/-- The program has been loaded, and since then neither another one nor a run has been started. -/
def LastLoaded (log : List Episode) (memory : Memory) : Prop :=
  ∃ later, Since (.loaded memory) log later ∧ .started ∉ later ∧ ∀ other, .loaded other ∉ later

/-- Since every loading a run has been started. -/
def Unloaded (log : List Episode) : Prop :=
  ∀ memory later, Since (.loaded memory) log later → .started ∈ later

theorem since_snoc {x e : Episode} {log later : List Episode} :
    Since x (log ++ [e]) later ↔
      (later = [] ∧ e = x) ∨ ∃ before, later = before ++ [e] ∧ Since x log before := by
  constructor
  · rintro ⟨earlier, h⟩
    obtain rfl | ⟨before, last, rfl⟩ := List.eq_nil_or_concat later
    · exact .inl ⟨rfl, by simpa using (List.append_inj' h rfl).2⟩
    · have hsplit : log ++ [e] = (earlier ++ x :: before) ++ [last] := by simp [h]
      obtain ⟨rfl, hlast⟩ := List.append_inj' hsplit rfl
      exact .inr ⟨before, by simp_all, earlier, rfl⟩
  · rintro (⟨rfl, rfl⟩ | ⟨before, rfl, earlier, rfl⟩)
    · exact ⟨log, rfl⟩
    · exact ⟨earlier, by simp⟩

section
variable {log : List Episode} {e : Episode}

theorem outstanding_snoc :
    Outstanding (log ++ [e]) ↔ e = .started ∨ (Outstanding log ∧ e ≠ .waited) := by
  constructor
  · rintro ⟨later, hsince, hwaited⟩
    obtain ⟨rfl, rfl⟩ | ⟨before, rfl, hbefore⟩ := since_snoc.1 hsince
    · exact .inl rfl
    · simp only [List.mem_append, List.mem_singleton, not_or] at hwaited
      exact .inr ⟨⟨before, hbefore, hwaited.1⟩, Ne.symm hwaited.2⟩
  · rintro (rfl | ⟨⟨later, hsince, hwaited⟩, he⟩)
    · exact ⟨[], since_snoc.2 (.inl ⟨rfl, rfl⟩), by simp⟩
    · exact ⟨later ++ [e], since_snoc.2 (.inr ⟨later, rfl, hsince⟩), by simp [hwaited, Ne.symm he]⟩

theorem lastLoaded_snoc {memory : Memory} :
    LastLoaded (log ++ [e]) memory ↔
      e = .loaded memory ∨
        (LastLoaded log memory ∧ e ≠ .started ∧ ∀ other, e ≠ .loaded other) := by
  constructor
  · rintro ⟨later, hsince, hstarted, hloaded⟩
    obtain ⟨rfl, rfl⟩ | ⟨before, rfl, hbefore⟩ := since_snoc.1 hsince
    · exact .inl rfl
    · simp only [List.mem_append, List.mem_singleton, not_or] at hstarted hloaded
      exact .inr ⟨⟨before, hbefore, hstarted.1, fun other => (hloaded other).1⟩,
        Ne.symm hstarted.2, fun other => Ne.symm (hloaded other).2⟩
  · rintro (rfl | ⟨⟨later, hsince, hstarted, hloaded⟩, he, hother⟩)
    · exact ⟨[], since_snoc.2 (.inl ⟨rfl, rfl⟩), by simp, by simp⟩
    · exact ⟨later ++ [e], since_snoc.2 (.inr ⟨later, rfl, hsince⟩), by simp [hstarted, Ne.symm he],
        fun other => by simp [hloaded other, Ne.symm (hother other)]⟩

theorem unloaded_snoc :
    Unloaded (log ++ [e]) ↔ e = .started ∨ (Unloaded log ∧ ∀ memory, e ≠ .loaded memory) := by
  constructor
  · intro h
    by_cases hstarted : e = .started
    · exact .inl hstarted
    · refine .inr ⟨fun memory later hsince => ?_, fun memory hloaded => ?_⟩
      · have hmem := h memory _ (since_snoc.2 (.inr ⟨later, rfl, hsince⟩))
        simpa [Ne.symm hstarted] using hmem
      · simpa using h memory [] (since_snoc.2 (.inl ⟨rfl, hloaded⟩))
  · rintro h memory later hsince
    obtain ⟨rfl, rfl⟩ | ⟨before, rfl, hbefore⟩ := since_snoc.1 hsince
    · obtain hstarted | ⟨-, hloaded⟩ := h
      · cases hstarted
      · exact absurd rfl (hloaded memory)
    · obtain rfl | ⟨hunloaded, -⟩ := h
      · simp
      · exact List.mem_append_left _ (hunloaded memory before hbefore)

/-- Where nothing has been loaded since the last start, no program has been loaded last. -/
theorem Unloaded.not_lastLoaded (h : Unloaded log) (memory : Memory) : ¬LastLoaded log memory :=
  fun ⟨later, hsince, hstarted, _⟩ => hstarted (h memory later hsince)

end

/-! ## Listeners -/

/-- Someone, with what has been heard, after more has been heard. -/
def hearing (events : List Event) (account : Nat × List Event) : Nat × List Event :=
  (account.1, account.2 ++ events)

@[simp] theorem hearing_nil : hearing [] = id :=
  funext fun account => congrArg (account.1, ·) (List.append_nil _)

@[simp] theorem hearing_hearing (events more : List Event) (account : Nat × List Event) :
    hearing more (hearing events account) = hearing (events ++ more) account := by
  simp [hearing]

/-- All that is told. -/
def toldIn (log : List Episode) : List Event :=
  log.flatMap fun e =>
    match e with
    | .told events => events
    | _ => []

/-- What is told in the runs that start in the log. Outside of runs nothing is told. -/
def heardIn : List Episode → List Event
  | [] => []
  | .started :: later => toldIn later
  | _ :: later => heardIn later

/-- Who has been added, in the order of time, with what is told in all runs that start
afterwards. -/
def audience : List Episode → List (Nat × List Event)
  | [] => []
  | .added id :: later => (id, heardIn later) :: audience later
  | _ :: later => audience later

@[simp] theorem toldIn_append (log later : List Episode) :
    toldIn (log ++ later) = toldIn log ++ toldIn later :=
  List.flatMap_append

theorem heardIn_started (log later : List Episode) :
    heardIn (log ++ .started :: later) = heardIn log ++ toldIn later := by
  induction log with
  | nil => rfl
  | cons e log ih =>
    cases e with
    | started => exact toldIn_append log (.started :: later)
    | _ => exact ih

/-- Those who are there when a run starts hear what is told in it. -/
theorem audience_started (log later : List Episode) :
    audience (log ++ .started :: later) =
      (audience log).map (hearing (toldIn later)) ++ audience later := by
  induction log with
  | nil => rfl
  | cons e log ih =>
    cases e with
    | added id =>
      simp only [List.cons_append, audience, ih, heardIn_started, List.map_cons, hearing]
    | _ => exact ih

section
variable {log : List Episode} {e : Episode}

/-- What is told while no run has started is heard by nobody. -/
theorem heardIn_snoc (h : ∀ events, e = .told events → events = [] ∨ .started ∉ log) :
    heardIn (log ++ [e]) = heardIn log := by
  induction log with
  | nil => cases e <;> rfl
  | cons first log ih =>
    have hlater : ∀ events, e = .told events → events = [] ∨ .started ∉ log := fun events he =>
      (h events he).imp_right fun hmem hlog => hmem (List.mem_cons_of_mem _ hlog)
    cases first with
    | started =>
      have hquiet : toldIn [e] = [] := by
        cases e with
        | told events =>
          obtain rfl : events = [] := (h events rfl).resolve_right (by simp)
          rfl
        | _ => rfl
      change toldIn (log ++ [e]) = toldIn log
      rw [toldIn_append, hquiet, List.append_nil]
    | _ => exact ih hlater

theorem audience_snoc (h : ∀ events, e = .told events → events = [] ∨ .started ∉ log) :
    audience (log ++ [e]) = audience log ++ audience [e] := by
  induction log with
  | nil => rfl
  | cons first log ih =>
    have hlater : ∀ events, e = .told events → events = [] ∨ .started ∉ log := fun events he =>
      (h events he).imp_right fun hmem hlog => hmem (List.mem_cons_of_mem _ hlog)
    cases first with
    | added id => simp only [List.cons_append, audience, ih hlater, heardIn_snoc hlater]
    | _ => exact ih hlater

end

/-! ## How the controller stands to its log -/

/-- What a listener is known by. -/
def Listener.account (l : Listener) : Nat × List Event := (l.id, l.events)

theorem Listener.account_hear (l : Listener) (events : List Event) :
    (l.hear events).account = hearing events l.account :=
  congrArg (l.id, ·) (l.events_hear events)

/-- The listeners that are with the worker. -/
def Controller.crew (c : Controller) : Option (List Listener) := c.worker.map (·.listeners)

/-- The listeners that are with the controller, and with the worker if there is one, have heard what
the log says. Those who are with the worker were there when the run started. -/
def Crewed (log : List Episode) (listeners : List Listener) : Option (List Listener) → Prop
  | none => ¬Outstanding log ∧ (listeners.map Listener.account).Perm (audience log)
  | some crew =>
    ∃ earlier later, log = earlier ++ .started :: later ∧ .started ∉ later ∧ .waited ∉ later ∧
      listeners.map Listener.account = audience later ∧
      (crew.map Listener.account).Perm ((audience earlier).map (hearing (toldIn later)))

/-- The program in store is the one that the log says. -/
def Stocked (log : List Episode) : Option Memory → Prop
  | none => Unloaded log
  | some memory => LastLoaded log memory

/-- The controller is as its log says. -/
structure Controller.Accounted (c : Controller) (log : List Episode) : Prop where
  crewed : Crewed log c.listeners c.crew
  stocked : Stocked log c.program

section
variable {log : List Episode} {listeners crew : List Listener} {e : Episode}

theorem Crewed.outstanding {worker : Option (List Listener)} (h : Crewed log listeners worker) :
    worker.isSome ↔ Outstanding log := by
  cases worker with
  | none => simpa using h.1
  | some crew =>
    obtain ⟨earlier, later, rfl, -, hwaited, -, -⟩ := h
    exact iff_of_true rfl ⟨later, ⟨earlier, rfl⟩, hwaited⟩

/-- All listeners together have heard what the log says. -/
theorem Crewed.perm {worker : Option (List Listener)} (h : Crewed log listeners worker) :
    ((listeners ++ worker.getD []).map Listener.account).Perm (audience log) := by
  cases worker with
  | none => simpa using h.2
  | some crew =>
    obtain ⟨earlier, later, rfl, -, -, hlisteners, hcrew⟩ := h
    rw [audience_started, List.map_append, hlisteners]
    exact (hcrew.append_left _).trans List.perm_append_comm

theorem Crewed.start (h : Crewed log listeners none) :
    Crewed (log ++ [.started]) [] (some listeners) := by
  refine ⟨log, [], rfl, by simp, by simp, rfl, ?_⟩
  simpa [toldIn] using h.2

theorem Crewed.wait (h : Crewed log listeners (some crew)) :
    Crewed (log ++ [.waited]) (listeners ++ crew) none := by
  refine ⟨by simp [outstanding_snoc], ?_⟩
  rw [audience_snoc (by simp)]
  simpa [audience] using h.perm

theorem Crewed.add (id : Nat) {worker : Option (List Listener)} (h : Crewed log listeners worker) :
    Crewed (log ++ [.added id]) (listeners ++ [{ id := id }]) worker := by
  cases worker with
  | none =>
    refine ⟨by simpa [outstanding_snoc] using h.1, ?_⟩
    rw [audience_snoc (by simp), List.map_append]
    exact h.2.append_right _
  | some crew =>
    obtain ⟨earlier, later, rfl, hstarted, hwaited, hlisteners, hcrew⟩ := h
    refine ⟨earlier, later ++ [.added id], by simp, by simp [hstarted], by simp [hwaited], ?_, ?_⟩
    · rw [audience_snoc (by simp), List.map_append, hlisteners]
      rfl
    · rw [toldIn_append]
      simpa [toldIn] using hcrew

theorem Crewed.load (memory : Memory) (h : Crewed log listeners none) :
    Crewed (log ++ [.loaded memory]) listeners none := by
  refine ⟨by simpa [outstanding_snoc] using h.1, ?_⟩
  rw [audience_snoc (by simp)]
  simpa [audience] using h.2

theorem Crewed.tell (events : List Event) {worker : Option (List Listener)}
    (hnone : worker = none → events = []) (h : Crewed log listeners worker) :
    Crewed (log ++ [.told events]) listeners (worker.map (·.map (·.hear events))) := by
  cases worker with
  | none =>
    obtain rfl := hnone rfl
    refine ⟨by simpa [outstanding_snoc] using h.1, ?_⟩
    rw [audience_snoc (by simp)]
    simpa [audience] using h.2
  | some crew =>
    obtain ⟨earlier, later, rfl, hstarted, hwaited, hlisteners, hcrew⟩ := h
    refine ⟨earlier, later ++ [.told events], by simp, by simp [hstarted], by simp [hwaited],
      ?_, ?_⟩
    · rw [audience_snoc (by simp [hstarted]), hlisteners]
      simp [audience]
    · have htold : toldIn (later ++ [.told events]) = toldIn later ++ events := by simp [toldIn]
      have hheard := hcrew.map (hearing events)
      rw [htold, List.map_map]
      rw [List.map_map, List.map_map] at hheard
      simpa [Function.comp_def, Listener.account_hear] using hheard

end

/-! ## The calls -/

namespace Controller
variable {c c' : Controller}

theorem load_eq_error_iff {memory : Memory} {e : ControlError} :
    (c.load memory).2 = .error e ↔ e = .alreadyRunning ∧ c.crew.isSome := by
  unfold load crew
  cases c.worker <;> simp [eq_comm]

theorem start_eq_error_iff {e : ControlError} :
    c.start.2 = .error e ↔
      (e = .alreadyRunning ∧ c.crew.isSome) ∨
        (e = .nothingLoaded ∧ ¬c.crew.isSome ∧ c.program = none) := by
  unfold start crew
  cases c.worker <;> cases c.program <;> simp [eq_comm]

theorem wait_eq_error_iff {e : ControlError} :
    c.wait.2 = .error e ↔ e = .notStarted ∧ ¬c.crew.isSome := by
  unfold wait crew
  cases c.worker with
  | none => simp [eq_comm]
  | some w => cases hpoint : w.point <;> simp [hpoint]

end Controller

/-! ## Whatever is done -/

section
variable {w w' : Worker}

theorem Worker.Moved.listeners {p : Panel} {m : Move} (h : w.Moved p m) :
    m.worker.listeners = w.listeners.map (·.hear m.events) := by
  cases h with
  | drives => rfl
  | passes | isHeld | isInterrupted | goesOn | limited | takes | isStarved =>
    exact (List.map_id _).symm

theorem Worker.Woken.listeners (h : w.Woken w') : w'.listeners = w.listeners := by
  cases h <;> rfl

theorem crew_of_woken {worker worker' : Option Worker}
    (h : Option.Rel Worker.Woken worker worker') :
    worker'.map (·.listeners) = worker.map (·.listeners) := by
  cases h with
  | none => rfl
  | some hwoken => exact congrArg some hwoken.listeners

end

theorem crew_hear_nil (crew : Option (List Listener)) : crew.map (·.map (·.hear [])) = crew := by
  cases crew with
  | none => rfl
  | some listeners => exact congrArg some (List.map_id listeners)

/-- A call that is made during a run changes neither the program nor the listeners. -/
theorem Course.kept_after (s : Course) {t : Turn} (ht : t ≠ .move) :
    (s.after t).controller.program = s.controller.program ∧
      (s.after t).controller.listeners = s.controller.listeners ∧
      (s.after t).controller.crew = s.controller.crew := by
  have hcrew : (s.after t).controller.crew = s.controller.crew :=
    crew_of_woken (s.steered ht).2.2.worker
  refine ⟨?_, ?_, hcrew⟩ <;> cases t with
  | move => exact absurd rfl ht
  | pause | resume | setInput | setDelay => rfl
  | step =>
    simp only [after, Controller.step, Panel.grant]
    split <;> rfl

/-- A move changes neither the program nor the listeners that are with the controller. Those that
are with the worker hear what is told. -/
theorem Course.heard_move (s : Course) :
    ∃ events, (s.after .move).events = s.events ++ events ∧
      (s.after .move).controller.program = s.controller.program ∧
      (s.after .move).controller.listeners = s.controller.listeners ∧
      (s.after .move).controller.crew = s.controller.crew.map (·.map (·.hear events)) ∧
      (s.controller.crew = none → events = []) := by
  obtain ⟨w, m, hworker, hmove, hafter⟩ | ⟨-, hsame⟩ := s.move_cases
  · refine ⟨m.events, ?_⟩
    rw [hafter]
    refine ⟨rfl, rfl, rfl, ?_, ?_⟩
    · simp [Controller.crew, hworker, (Worker.moved_of_move? hmove).listeners]
    · simp [Controller.crew, hworker]
  · refine ⟨[], ?_⟩
    rw [hsame]
    exact ⟨(List.append_nil _).symm, rfl, rfl, (crew_hear_nil _).symm, fun _ => rfl⟩

section
variable {log : List Episode} {program : Option Memory} {e : Episode}

theorem Stocked.eq_none_iff (h : Stocked log program) : program = none ↔ Unloaded log := by
  cases program with
  | none => exact iff_of_true rfl h
  | some memory => exact iff_of_false nofun fun hunloaded => hunloaded.not_lastLoaded memory h

/-- What has to do neither with programs nor with starts leaves the store alone. -/
theorem Stocked.snoc (h : Stocked log program) (hstarted : e ≠ .started)
    (hloaded : ∀ memory, e ≠ .loaded memory) : Stocked (log ++ [e]) program := by
  cases program with
  | none => exact unloaded_snoc.2 (.inr ⟨h, hloaded⟩)
  | some memory => exact lastLoaded_snoc.2 (.inr ⟨h, hstarted, hloaded⟩)

end

namespace Controller.Accounted
variable {c c' : Controller} {log : List Episode}

theorem load {memory : Memory} (h : c.Accounted log) (hload : c.load memory = (c', .ok ())) :
    c'.Accounted (log ++ [.loaded memory]) := by
  have hloads := load_eq_ok hload
  have hcrewed := h.crewed
  rw [crew, hloads.idle] at hcrewed
  refine ⟨?_, ?_⟩
  · rw [crew, hloads.worker, hloads.listeners]
    exact hcrewed.load memory
  · rw [hloads.program]
    exact lastLoaded_snoc.2 (.inl rfl)

theorem start (h : c.Accounted log) (hstart : c.start = (c', .ok ())) :
    c'.Accounted (log ++ [.started]) := by
  obtain ⟨memory, hstarts⟩ := start_eq_ok hstart
  have hcrewed := h.crewed
  rw [crew, hstarts.idle] at hcrewed
  refine ⟨?_, ?_⟩
  · rw [crew, hstarts.worker, hstarts.listeners]
    exact hcrewed.start
  · rw [hstarts.program]
    exact unloaded_snoc.2 (.inl rfl)

theorem wait {outcome : Outcome} (h : c.Accounted log)
    (hwait : c.wait = (c', .ok (some outcome))) : c'.Accounted (log ++ [.waited]) := by
  obtain ⟨w, hreturns⟩ := wait_eq_ok hwait
  have hcrewed := h.crewed
  rw [crew, hreturns.busy] at hcrewed
  refine ⟨?_, ?_⟩
  · rw [crew, hreturns.worker, hreturns.listeners]
    exact hcrewed.wait
  · rw [hreturns.program]
    exact h.stocked.snoc nofun nofun

theorem addListener (h : c.Accounted log) (id : Nat) :
    (c.addListener id).Accounted (log ++ [.added id]) :=
  ⟨h.crewed.add id, h.stocked.snoc nofun nofun⟩

/-- What changes nothing but the panel, and wakes the worker, leaves the accounts alone. -/
theorem keeps (h : c.Accounted log) (after : Controller) (hprogram : after.program = c.program)
    (hlisteners : after.listeners = c.listeners) (hcrew : after.crew = c.crew) :
    after.Accounted log :=
  ⟨by rw [hlisteners, hcrew]; exact h.crewed, by rw [hprogram]; exact h.stocked⟩

theorem turn (h : c.Accounted log) (t : Turn) :
    let s := ({ controller := c } : Course).after t
    s.controller.Accounted (log ++ [.told s.events]) := by
  intro s
  obtain ⟨events, hevents, hprogram, hlisteners, hcrew, hnone⟩ :
      ∃ events, s.events = [] ++ events ∧ s.controller.program = c.program ∧
        s.controller.listeners = c.listeners ∧
        s.controller.crew = c.crew.map (·.map (·.hear events)) ∧ (c.crew = none → events = []) := by
    by_cases ht : t = .move
    · subst ht
      exact ({ controller := c } : Course).heard_move
    · obtain ⟨hprogram, hlisteners, hcrew⟩ := ({ controller := c } : Course).kept_after ht
      have hevents := (({ controller := c } : Course).steered ht).1
      exact ⟨[], hevents, hprogram, hlisteners, hcrew.trans (crew_hear_nil _).symm, fun _ => rfl⟩
  rw [List.nil_append] at hevents
  refine ⟨?_, ?_⟩
  · rw [hlisteners, hcrew, hevents]
    exact h.crewed.tell events hnone
  · rw [hprogram]
    exact h.stocked.snoc nofun nofun

end Controller.Accounted

namespace Career
variable {k : Career}

theorem accounted_after (h : k.usage.controller.Accounted k.log) (act : Act) :
    (k.after act).usage.controller.Accounted (k.after act).log := by
  rw [Career.after]
  cases act with
  | turn t => exact h.turn t
  | flag =>
    simpa [Usage.episode?, Usage.after] using h.keeps k.usage.controller.raiseFlag rfl rfl rfl
  | wake =>
    simpa [Usage.episode?, Usage.after] using h.keeps k.usage.controller.wakeHeld rfl rfl
      (crew_of_woken (woken_map Worker.woken_wakeHeld _))
  | offer =>
    have hoffer := h.keeps k.usage.controller.offerPlaceholder rfl rfl
      (crew_of_woken (woken_map Worker.woken_wakeStarved _))
    by_cases hpending : 0 < k.usage.pending
    · simpa [Usage.episode?, Usage.after, hpending] using hoffer
    · simpa [Usage.episode?, Usage.after, hpending] using h
  | load memory =>
    obtain ⟨hnot, hsame⟩ | ⟨loaded, hpending, hload, hafter⟩ := k.usage.after_load memory
    · rw [hsame, Usage.episode?, if_neg hnot]
      simpa using h
    · have hmade : k.usage.pending = 0 ∧ (k.usage.controller.load memory).2.isOk := by
        rw [hload]
        exact ⟨hpending, rfl⟩
      rw [hafter, Usage.episode?, if_pos hmade]
      exact h.load hload
  | addListener id =>
    by_cases hpending : k.usage.pending = 0
    · simpa [Usage.episode?, Usage.after, Usage.alone, hpending] using h.addListener id
    · simpa [Usage.episode?, Usage.after, Usage.alone, hpending] using h
  | start =>
    obtain ⟨hnot, hsame⟩ | ⟨started, hpending, hstart, hafter⟩ := k.usage.after_start
    · rw [hsame, Usage.episode?, if_neg hnot]
      simpa using h
    · have hmade : k.usage.pending = 0 ∧ k.usage.controller.start.2.isOk := by
        rw [hstart]
        exact ⟨hpending, rfl⟩
      rw [hafter, Usage.episode?, if_pos hmade]
      exact h.start hstart
  | wait =>
    obtain ⟨hnot, hsame⟩ | ⟨returned, outcome, hpending, hwait, hafter⟩ := k.usage.after_wait
    · have hnone : k.usage.episode? .wait = none := by
        simp only [Usage.episode?]
        split
        · next outcome hdone => exact if_neg fun hpending => hnot ⟨hpending, outcome, hdone⟩
        · rfl
      rw [hsame, hnone]
      simpa using h
    · have hmade : k.usage.episode? .wait = some .waited := by
        simp only [Usage.episode?, hwait]
        exact if_pos hpending
      rw [hafter, hmade]
      exact h.wait hwait

end Career

theorem accounted_career (settings : Settings) (acts : List Act) :
    (usage settings acts).controller.Accounted (career settings acts).log := by
  rw [← usage_career]
  refine List.foldlRecOn acts Career.after (motive := fun k =>
    k.usage.controller.Accounted k.log) ?_ fun k h act _ => Career.accounted_after h act
  refine ⟨⟨?_, .nil⟩, ?_⟩
  · rintro ⟨later, ⟨earlier, h⟩, -⟩
    simp at h
  · rintro memory later ⟨earlier, h⟩
    simp at h

/-! ## Refusals, starts and listeners -/

/-- The life of runs. Loading and starting are refused while a run is outstanding, starting also if
nothing has been loaded since the last start, and waiting if no run is outstanding; a refusal
changes nothing. A run starts from the program that was loaded last, with all registers zero, and
takes along all listeners. Whoever has been added has heard all runs that started since, each event
once and in order, and is back with the controller when no run is outstanding. -/
theorem life_cycle (settings : Settings) (acts : List Act) :
    let log := (career settings acts).log
    let u := usage settings acts
    let c := u.controller
    (∀ memory e, (c.load memory).2 = .error e ↔ e = .alreadyRunning ∧ Outstanding log) ∧
    (∀ e, c.start.2 = .error e ↔
      (e = .alreadyRunning ∧ Outstanding log) ∨
        (e = .nothingLoaded ∧ ¬Outstanding log ∧ Unloaded log)) ∧
    (∀ e, c.wait.2 = .error e ↔ e = .notStarted ∧ ¬Outstanding log) ∧
    (∀ act, c.Refuses act → u.after act = u) ∧
    (∀ c', c.start = (c', .ok ()) →
      ∃ memory w, LastLoaded log memory ∧ c'.worker = some w ∧ w.machine = .ofMemory memory ∧
        w.machine.registers = .zero ∧ w.listeners = c.listeners) ∧
    (c.allListeners.map Listener.account).Perm (audience log) ∧
    (¬Outstanding log → c.listeners = c.allListeners) := by
  intro log u c
  obtain ⟨hcrewed, hstocked⟩ := accounted_career settings acts
  have hbusy : c.crew.isSome ↔ Outstanding log := hcrewed.outstanding
  have hempty : c.program = none ↔ Unloaded log := hstocked.eq_none_iff
  refine ⟨fun memory e => ?_, fun e => ?_, fun e => ?_, fun act => Usage.after_of_refused,
    fun c' hstart => ?_, hcrewed.perm, fun hidle => ?_⟩
  · rw [Controller.load_eq_error_iff, hbusy]
  · rw [Controller.start_eq_error_iff, hbusy, hempty]
  · rw [Controller.wait_eq_error_iff, hbusy]
  · obtain ⟨memory, hstarts⟩ := Controller.start_eq_ok hstart
    have hloaded : Stocked log (some memory) := hstarts.stored ▸ hstocked
    exact ⟨memory, _, hloaded, hstarts.worker, rfl, rfl, rfl⟩
  · have hnone : c.crew = none := by
      rw [← Option.not_isSome_iff_eq_none, hbusy]
      exact hidle
    change c.listeners = c.listeners ++ c.crew.getD []
    rw [hnone, Option.getD_none, List.append_nil]

/-- A run that has finished and not been waited for still counts. The first listener hears two runs,
the second, which is added during the first of them, hears one. -/
theorem life_cycle_twice :
    let memory := Memory.ofList [31 * 2 ^ 15]
    let run := [Act.load memory, .start] ++ List.replicate 12 (.turn .move)
    let acts := [.addListener 1] ++ run ++ [.addListener 2, .wait] ++ run
    let c := (usage {} acts).controller
    let events := ((Machine.ofMemory memory).run 4).events
    c.isRunning = false ∧ Outstanding (career {} acts).log ∧
      (c.load memory).2 = .error .alreadyRunning ∧
      (c.allListeners.map Listener.account).Perm [(1, events ++ events), (2, events)] := by
  intro memory run acts c events
  obtain ⟨hload, -, -, -, -, hheard, -⟩ := life_cycle {} acts
  have hrefused : (c.load memory).2 = .error .alreadyRunning :=
    Controller.load_eq_error_iff.2 ⟨rfl, by decide⟩
  have haudience : audience (career {} acts).log = [(1, events ++ events), (2, events)] := by decide
  rw [← haudience]
  exact ⟨by decide, ((hload memory .alreadyRunning).1 hrefused).2, hrefused, hheard⟩

end TrnComputer
