import TrnComputer.Proofs.CommandLine.Channel

/-! # The run command is the machine on its own

* `reaches_moved`, `reaches_value`, `reaches_zero`: what a run does for one micro-step.
* `reaches_bare`, `reaches_last`: a run follows the machine on its own as long as this goes on.
* `concludes_of_ends`, `concludes_of_starves`: the end of a run.
* `play_begin`: how a run begins.
* `run_command`: what the command leaves is what the machine on its own comes to, at whatever pace
  worker and console go.
-/

namespace TrnComputer
set_option autoImplicit false

/-! ## Micro-steps -/

/-- The stage of a run whose worker stands at a point with nothing in the slot. -/
def Machine.stage (m : Machine) (point : Point) (interrupted : Bool) (e : Stock) : Stage :=
  { machine := m, point, interrupted, inputs := e.inputs }

namespace RunOptions
variable {o : RunOptions} {s : Surroundings} {m : Machine} {e : Stock}

/-- A run does a micro-step that does not come to wait. -/
theorem reaches_moved (interrupted : Bool) (hgoes : m.phaseOpen = true ∨ interrupted = false)
    (hlimit : o.Limits m = false) (hwaits : m.waits = false)
    (hresult : m.microStep.result ≠ .ok .awaitsInput) :
    o.Reaches 2 (s.withLines e.lines) (m.stage .boundary interrupted e)
      (s.told o.trace e m.microStep.events)
      (m.microStep.machine.stage (Worker.pointAfter m.microStep.result) interrupted
        (e.hearAll m.microStep.events).1) := by
  rw [Surroundings.told, (e.hearAll_microStep hwaits).2 hresult]
  have hready := reaches_ready (o := o) (s := s.withLines e.lines)
    (g := m.stage .boundary interrupted e) rfl rfl hgoes
  exact hready.trans (reaches_driven rfl rfl hlimit hwaits hresult)

/-- A run does a micro-step after which the machine goes on. -/
theorem reaches_proceeded (interrupted : Bool)
    (hgoes : m.phaseOpen = true ∨ interrupted = false)
    (hlimit : o.Limits m = false) (hwaits : m.waits = false)
    (hresult : m.microStep.result = .ok .proceeds) :
    o.Reaches 3 (s.withLines e.lines) (m.stage .boundary interrupted e)
      (s.told o.trace e m.microStep.events)
      (m.microStep.machine.stage .boundary interrupted (e.hearAll m.microStep.events).1) := by
  have hmoved := reaches_moved (s := s) (e := e) interrupted hgoes hlimit hwaits
    (by simp [hresult])
  rw [hresult] at hmoved
  exact hmoved.trans (reaches_boundary rfl rfl)

/-- A run gets the value that comes next from the command line, or from the first line that holds a
number. -/
theorem reaches_value {value : Nat} {rest : List Nat} (hvalues : e.values = value :: rest)
    (hlimit : o.Limits m = false) (hwaits : m.waits = false)
    (hawaits : m.microStep.result = .ok .awaitsInput) :
    ∃ k, o.Reaches (k + 1) (s.withLines e.lines) (m.stage .boundary false e)
      (s.told o.trace e m.microStep.events)
      ((m.microStep.machine.supply value).stage .boundary false
        (e.hearAll m.microStep.events).1) := by
  have hready := reaches_ready (o := o) (s := s.withLines e.lines)
    (g := m.stage .boundary false e) rfl rfl (.inr rfl)
  rw [Surroundings.told, (e.hearAll_microStep hwaits).1 hawaits]
  obtain ⟨inputs, lines⟩ := e
  cases inputs with
  | cons number inputs =>
    have hword : inputWord number = value := (List.cons.inj hvalues).1
    have hgiven := hready.trans (reaches_given rfl rfl hlimit hwaits hawaits rfl)
    have hsupplied := hgiven.trans
      (reaches_supplied rfl rfl (congrArg some hword))
    refine ⟨2, ?_⟩
    rw [Stock.hear, List.append_nil]
    exact hsupplied
  | nil =>
    obtain ⟨number, later, hnumbers, hword⟩ : ∃ number later,
        lines.filterMap lineNumber? = number :: later ∧ inputWord number = value := by
      simp only [Stock.values, List.nil_append] at hvalues
      obtain ⟨number, later, hnumbers, hword, -⟩ := List.map_eq_cons_iff.1 hvalues
      exact ⟨number, later, hnumbers, hword⟩
    have hasking := hready.trans (reaches_asking rfl rfl hlimit hwaits hawaits rfl)
    obtain ⟨k, hanswered, -⟩ := reaches_dialogue (o := o)
      (s := s.say o.trace (m.openPhase.2.map .event))
      (g := { machine := m.microStep.machine, point := .reading, inputs := [], asking := true })
      lines rfl rfl rfl
    have hgiven := hasking.trans (hanswered number later hnumbers)
    have hsupplied := hgiven.trans (reaches_supplied rfl rfl (congrArg some hword))
    refine ⟨1 + 1 + k, ?_⟩
    rw [Surroundings.say_append]
    exact hsupplied

/-- When no value is left, a run is interrupted, and zero takes the place of the value. -/
theorem reaches_zero (hvalues : e.values = []) (hlimit : o.Limits m = false)
    (hwaits : m.waits = false) (hawaits : m.microStep.result = .ok .awaitsInput) :
    ∃ k, o.Reaches k (s.withLines e.lines) (m.stage .boundary false e)
      (s.told o.trace e m.microStep.events)
      ((m.microStep.machine.supply 0).stage .boundary true (e.hearAll m.microStep.events).1) := by
  have hready := reaches_ready (o := o) (s := s.withLines e.lines)
    (g := m.stage .boundary false e) rfl rfl (.inr rfl)
  rw [Surroundings.told, (e.hearAll_microStep hwaits).1 hawaits]
  obtain ⟨inputs, lines⟩ := e
  obtain ⟨rfl, hnumbers⟩ : inputs = [] ∧ lines.filterMap lineNumber? = [] :=
    List.append_eq_nil_iff.1 (List.map_eq_nil_iff.1 hvalues)
  have hasking := hready.trans (reaches_asking rfl rfl hlimit hwaits hawaits rfl)
  obtain ⟨k, -, hover⟩ := reaches_dialogue (o := o)
    (s := s.say o.trace (m.openPhase.2.map .event))
    (g := { machine := m.microStep.machine, point := .reading, inputs := [], asking := true })
    lines rfl rfl rfl
  have hoffered := hasking.trans (hover hnumbers)
  refine ⟨1 + 1 + k + 1, ?_⟩
  rw [Surroundings.say_append]
  exact hoffered.trans (reaches_supplied rfl rfl rfl)

/-- What is left when a run has ended: what was said to the events, and the outcome. -/
def left (o : RunOptions) (s : Surroundings) (d : Stock) (events : List Event) (outcome : Outcome) :
    Surroundings :=
  (s.told o.trace d events).printed (textOf (resultLines o.json outcome))

theorem left_append (d : Stock) (events more : List Event) (outcome : Outcome) :
    o.left s d (events ++ more) outcome =
      o.left (s.told o.trace d events) (d.hearAll events).1 more outcome := by
  rw [left, Surroundings.told_append]
  rfl

theorem limits_of_open (h : m.phaseOpen = true) : o.Limits m = false := by
  simp [Limits, Machine.atBoundary, h]

/-- An interrupted run ends when the instruction that has waited is over. -/
theorem concludes_interrupted (hwell : m.WellFormed) (h : m.Waiting) (value : Nat) :
    let first := (m.supply value).microStep
    let second := first.machine.microStep
    o.Concludes 8 (s.withLines e.lines) ((m.supply value).stage .boundary true e)
      (o.left s e (first.events ++ second.events) ⟨second.machine, .ok .interrupted⟩) 0 := by
  intro first second
  obtain ⟨hfirst, hopen, hsecond, hat, -⟩ := h.finishes value
  have hcalm : first.machine.waits = false :=
    (Machine.requests_of_proceeds (Machine.wellFormed_supply hwell value) hfirst).2.2
  have hinside : (m.supply value).phaseOpen = true := h.inside
  have hloaded := reaches_proceeded (o := o) (s := s) (e := e) true (.inl hinside)
    (limits_of_open hinside) (by simp [Machine.waits, Machine.supply]) hfirst
  have hclosed := reaches_proceeded (o := o) (s := s.told o.trace e first.events)
    (e := (e.hearAll first.events).1) true (.inl hopen) (limits_of_open hopen) hcalm hsecond
  have hended := (hloaded.trans hclosed).trans (reaches_interrupted rfl rfl hat rfl)
  rw [left_append]
  exact hended.concludes (concludes_finished rfl rfl)

/-! ## The whole run -/

variable {memory : Memory} {d : Stock} {n : Nat}

theorem limits_of_verdict {b : Bare} (hproceeds : b.result = .ok .proceeds)
    (hverdict : b.verdict o.limit = none) : o.Limits b.machine = false := by
  unfold Bare.verdict at hverdict
  simp only [hproceeds] at hverdict
  split at hverdict
  · cases hverdict
  · next hlimit => exact Bool.eq_false_iff.2 hlimit

/-- The machine on its own has gone on so far, and has not reached the limit. -/
def Lasts (o : RunOptions) (memory : Memory) (answers : List Nat) (n : Nat) : Prop :=
  ∀ k < n, (bare memory answers k).result = .ok .proceeds ∧
    (bare memory answers k).verdict o.limit = none

/-- A run follows the machine on its own as long as this goes on. -/
theorem reaches_bare (hlasts : o.Lasts memory d.values n)
    (hproceeds : (bare memory d.values n).result = .ok .proceeds) :
    ∃ k, n ≤ k ∧ o.Reaches k (s.withLines d.lines)
      ((Machine.ofMemory memory).stage .checkpoint false d)
      (s.told o.trace d (bare memory d.values n).events)
      ((bare memory d.values n).machine.stage .boundary false
        (d.hearAll (bare memory d.values n).events).1) := by
  induction n with
  | zero =>
    have htold : s.told o.trace d (bare memory d.values 0).events = s.withLines d.lines :=
      Surroundings.say_nil _ _
    rw [htold]
    exact ⟨1, Nat.zero_le 1, reaches_boundary rfl rfl⟩
  | succ n ih =>
    obtain ⟨hbefore, hverdict⟩ := hlasts n (Nat.lt_succ_self n)
    obtain ⟨k, hle, hreached⟩ := ih (fun j hj => hlasts j (Nat.lt_succ_of_lt hj)) hbefore
    have hlimit := limits_of_verdict hbefore hverdict
    have hwaits := waits_bare n hbefore
    have hvalues := values_bare memory d fun j hj => (hlasts j (Nat.lt_succ_of_lt hj)).1
    change (bare memory d.values n).next.result = _ at hproceeds
    change ∃ k, n + 1 ≤ k ∧ o.Reaches k _ _
      (s.told o.trace d (bare memory d.values n).next.events)
      ((bare memory d.values n).next.machine.stage .boundary false
        (d.hearAll (bare memory d.values n).next.events).1)
    generalize bare memory d.values n = b at *
    -- An answer belongs to the micro-step that asks for it, and so does the dialogue for it.
    obtain ⟨value, rest, hawaits, hanswers, hnext⟩ | ⟨-, hnext⟩ := b.next_cases
    · obtain ⟨more, hvalue⟩ := reaches_value (s := s.told o.trace d b.events)
        (hvalues.trans hanswers) hlimit hwaits hawaits
      rw [hnext, Surroundings.told_append, Stock.hearAll_append]
      exact ⟨k + (more + 1), by omega, hreached.trans hvalue⟩
    · rw [hnext] at hproceeds
      have hmoved := reaches_proceeded (s := s.told o.trace d b.events)
        (e := (d.hearAll b.events).1) false (.inr rfl) hlimit hwaits hproceeds
      rw [hnext, Surroundings.told_append, Stock.hearAll_append]
      exact ⟨k + 3, by omega, hreached.trans hmoved⟩

/-- A run comes up to the micro-step after which the machine on its own does not go on. -/
theorem reaches_last (hlasts : o.Lasts memory d.values n)
    (hstopped : (bare memory d.values n).result ≠ .ok .proceeds) :
    ∃ b : Bare, bare memory d.values n =
        ⟨b.machine.microStep.machine, b.answers, b.events ++ b.machine.microStep.events,
          b.machine.microStep.result⟩ ∧
      (b.machine.microStep.result = .ok .awaitsInput → (d.hearAll b.events).1.values = []) ∧
      o.Limits b.machine = false ∧ b.machine.waits = false ∧
      ∃ k, o.Reaches k (s.withLines d.lines) ((Machine.ofMemory memory).stage .checkpoint false d)
        (s.told o.trace d b.events) (b.machine.stage .boundary false (d.hearAll b.events).1) := by
  obtain ⟨n, rfl, hanswers, hlast⟩ := bare_stopped hstopped
  obtain ⟨hproceeds, hverdict⟩ := hlasts n (Nat.lt_succ_self n)
  have hbefore : o.Lasts memory d.values n := fun j hj => hlasts j (Nat.lt_succ_of_lt hj)
  have hvalues := values_bare memory d fun j hj => (hbefore j hj).1
  obtain ⟨k, -, hstands⟩ := reaches_bare (s := s) hbefore hproceeds
  exact ⟨bare memory d.values n, hlast, fun hawaits => hvalues.trans (hanswers hawaits),
    limits_of_verdict hproceeds hverdict, waits_bare n hproceeds, k, hstands⟩

/-- A run ends at the limit at which the machine on its own does. -/
theorem concludes_of_limit {r : Except MachineError Termination}
    (h : Ends memory o.limit d.values n r)
    (hproceeds : (bare memory d.values n).result = .ok .proceeds) :
    ∃ k, o.Concludes k (s.withLines d.lines) ((Machine.ofMemory memory).stage .checkpoint false d)
      (o.left s d (bare memory d.values n).events ⟨(bare memory d.values n).machine, r⟩)
      (exitStatus r) := by
  obtain ⟨-, hreached, rfl⟩ : _ ∧ _ ∧ r = .ok .cycleLimit := by
    obtain hlimit | ⟨hresult, -⟩ | ⟨e, hresult, -⟩ := Bare.verdict_cases h.verdict
    · exact hlimit
    all_goals cases hproceeds.symm.trans hresult
  obtain ⟨k, -, hstands⟩ := reaches_bare (s := s) h.before hproceeds
  have hready := hstands.trans (reaches_ready rfl rfl (.inr rfl))
  have hfinished := hready.trans (reaches_limit rfl rfl hreached)
  exact ⟨_, hfinished.concludes (concludes_finished rfl rfl)⟩

/-- A run ends when the machine on its own does, with the same outcome. -/
theorem concludes_of_ends {r : Except MachineError Termination}
    (h : Ends memory o.limit d.values n r) :
    ∃ k, o.Concludes k (s.withLines d.lines) ((Machine.ofMemory memory).stage .checkpoint false d)
      (o.left s d (bare memory d.values n).events ⟨(bare memory d.values n).machine, r⟩)
      (exitStatus r) := by
  by_cases hproceeds : (bare memory d.values n).result = .ok .proceeds
  · exact concludes_of_limit h hproceeds
  · obtain ⟨b, hlast, -, hlimit, hwaits, k, hstands⟩ := reaches_last (s := s) h.before hproceeds
    have hcases := Bare.verdict_cases h.verdict
    rw [hlast] at hproceeds hcases ⊢
    obtain ⟨hgoes, hpoint⟩ : b.machine.microStep.result ≠ .ok .awaitsInput ∧
        Worker.pointAfter b.machine.microStep.result = .finished r := by
      obtain ⟨hresult, -⟩ | ⟨hresult, rfl⟩ | ⟨e, hresult, rfl⟩ := hcases
      · exact absurd hresult hproceeds
      all_goals
        replace hresult : b.machine.microStep.result = _ := hresult
        simp [hresult, Worker.pointAfter]
    have hmoved := reaches_moved (s := s.told o.trace d b.events) (e := (d.hearAll b.events).1)
      false (.inr rfl) hlimit hwaits hgoes
    rw [hpoint] at hmoved
    rw [left_append]
    exact ⟨_, (hstands.trans hmoved).concludes (concludes_finished rfl rfl)⟩

/-- A run that is out of values ends at the next boundary, after a zero. -/
theorem concludes_of_starves (h : Starves memory o.limit d.values n) :
    let last := bare memory (d.values ++ [0]) (n + 2)
    ∃ k, o.Concludes k (s.withLines d.lines) ((Machine.ofMemory memory).stage .checkpoint false d)
      (o.left s d last.events ⟨last.machine, .ok .interrupted⟩) 0 := by
  intro last
  have hended := concludes_interrupted (o := o)
    (s := s.told o.trace d (bare memory d.values n).events)
    (e := (d.hearAll (bare memory d.values n).events).1)
    (wellFormed_bare memory d.values n) h.waiting.1 0
  obtain ⟨-, -, hlast⟩ := h.given 0
  have hstopped : (bare memory d.values n).result ≠ .ok .proceeds := by simp [h.awaits]
  obtain ⟨b, hnext, hnone, hlimit, hwaits, k, hstands⟩ := reaches_last (s := s) h.before hstopped
  have hawaits := h.awaits
  rw [hnext] at hawaits hended hlast
  obtain ⟨more, hzero⟩ := reaches_zero (s := s.told o.trace d b.events) (hnone hawaits) hlimit
    hwaits hawaits
  -- The request is the last event before the zero is taken.
  have hheard := congrArg Prod.fst (d.hearAll_append b.events b.machine.microStep.events)
  rw [← Surroundings.told_append, ← hheard] at hzero
  change ∃ k, o.Concludes k _ _ (o.left s d (bare memory (d.values ++ [0]) (n + 2)).events
    ⟨(bare memory (d.values ++ [0]) (n + 2)).machine, .ok .interrupted⟩) 0
  rw [hlast, List.append_assoc, left_append]
  exact ⟨_, (hstands.trans hzero).concludes hended⟩

/-- The machine on its own goes on, or its run ends, or it runs out of answers. -/
theorem lasts_or_stops (o : RunOptions) (memory : Memory) (answers : List Nat) (n : Nat) :
    (o.Lasts memory answers n ∧ (bare memory answers n).result = .ok .proceeds) ∨
      (∃ k r, Ends memory o.limit answers k r) ∨ ∃ k, Starves memory o.limit answers k := by
  induction n with
  | zero => exact .inl ⟨nofun, rfl⟩
  | succ n ih =>
    obtain ⟨hlasts, hproceeds⟩ | hstops := ih
    · cases hverdict : (bare memory answers n).verdict o.limit with
      | some r => exact .inr (.inl ⟨n, r, hverdict, hlasts⟩)
      | none =>
        have hlasts : o.Lasts memory answers (n + 1) := fun k hk => by
          obtain hlt | rfl : k < n ∨ k = n := by omega
          · exact hlasts k hlt
          · exact ⟨hproceeds, hverdict⟩
        cases hresult : (bare memory answers (n + 1)).result with
        | error e =>
          refine .inr (.inl ⟨n + 1, .error e, ?_, hlasts⟩)
          rw [Bare.verdict, hresult]
        | ok tick =>
          cases tick with
          | proceeds => exact .inl ⟨hlasts, rfl⟩
          | awaitsInput => exact .inr (.inr ⟨n + 1, hresult, hlasts⟩)
          | halted =>
            refine .inr (.inl ⟨n + 1, .ok .halted, ?_, hlasts⟩)
            rw [Bare.verdict, hresult]
    · exact .inr hstops

end RunOptions

/-! ## The command -/

section
variable {program : String} {settings : Settings} {s₀ s : Surroundings} {memory : Memory}

/-- What is said before a program runs. -/
def executionLines : List String := ["", "━━━ Execution ━━━"]

theorem exists_startProgram (settings : Settings) (memory : Memory)
    (hfree : settings.startPaused = false) :
    ∃ controller, startProgram settings memory = .ok controller ∧
      controller.worker =
        some { machine := .ofMemory memory, limit := settings.maxCycles, listeners := [] } ∧
      controller.panel = { paused := false, delay := settings.delay } := by
  refine ⟨_, rfl, rfl, ?_⟩
  change Panel.renew { paused := settings.startPaused, delay := settings.delay } = _
  rw [hfree]
  rfl

/-- A program that has been loaded is started, and stands at its checkpoint. -/
theorem play_begin (delay maxCycles : Option Nat) (trace json : Bool) (inputs : List Int)
    (hload : (loadProgram program).play (s₀.printed (s!"🔧 Running: {program}" ++ "\n")) =
      (s, some memory))
    (hfree : settings.startPaused = false) :
    ∃ session, (⟨maxCycles.or settings.maxCycles, trace, json⟩ : RunOptions).Shows session
        ((Machine.ofMemory memory).stage .checkpoint false ⟨inputs, s.lines⟩) ∧
      (Session.begin settings (some (.run program delay maxCycles trace json inputs))).play s₀ =
        (s.printed (textOf executionLines), .going (.run session)) := by
  let used := { settings with
    delay := delay.getD settings.delay
    maxCycles := maxCycles.or settings.maxCycles }
  obtain ⟨controller, hstart, hworker, hpanel⟩ := exists_startProgram used memory hfree
  let session : RunSession := { controller, inputs, trace, json }
  refine ⟨session, ⟨⟨[], hworker⟩, congrArg Panel.paused hpanel, congrArg Panel.slot hpanel,
    congrArg Panel.interrupted hpanel, rfl, rfl, rfl, rfl⟩, ?_⟩
  have hbegun : (RunSession.begin program used trace json inputs).play s₀ =
      (s.printed (textOf executionLines), .going session) := by
    change ((loadProgram program).bind _).play (s₀.printed _) = _
    rw [Script.play_bind, hload]
    simp only [hstart]
    change ((Presentation.lines executionLines).bind _).play s = _
    rw [Script.play_bind, play_lines]
    rfl
  change ((RunSession.begin program used trace json inputs).bind _).play s₀ = _
  rw [Script.play_bind, hbegun]
  rfl

/-- Nobody waits for anybody when a run begins. -/
theorem tidy_of_shows {o : RunOptions} {session : RunSession} {d : Stock}
    (h : o.Shows session ((Machine.ofMemory memory).stage .checkpoint false d)) :
    ∃ w, Relay.Tidy ⟨session, []⟩ w ∧ session.awake = session := by
  obtain ⟨listeners, hworker⟩ := h.worker
  have hcalm : ¬Relay.Awaits ⟨session, []⟩ := by
    rintro (hasks | hrequest)
    · cases h.asking.symm.trans hasks
    · cases hrequest
  refine ⟨_, ⟨hworker, ⟨Machine.wellFormed_ofMemory memory, fun _ => rfl, ?_, rfl, rfl⟩,
    .inl h.slot, fun hawaits => absurd hawaits hcalm, fun _ => rfl, by simp⟩,
    RunSession.awake_eq_self hworker rfl⟩
  exact fun _ hopen => Bool.noConfusion hopen

/-- The exit status tells of a machine that has failed. -/
theorem exitStatus_of_ends {limit : Option Nat} {answers : List Nat} {n : Nat}
    {r : Except MachineError Termination} (h : Ends memory limit answers n r) :
    exitStatus r = if (bare memory answers n).machine.status = .faulted then 1 else 0 := by
  by_cases hfaulted : (bare memory answers n).machine.status = .faulted
  · obtain ⟨e, rfl⟩ := h.faulted_iff.1 hfaulted
    rw [if_pos hfaulted]
    rfl
  · rw [if_neg hfaulted]
    cases r with
    | ok termination => rfl
    | error e => exact absurd (h.faulted_iff.2 ⟨e, rfl⟩) hfaulted

/-- The run command is the machine on its own, given the numbers of the command line and then those
on the lines. It ends just when the machine ends or is out of answers. What is left is what was said
to the events of the machine, and its outcome. A machine that is out of answers loads a zero, and
its run is interrupted at the next boundary, in the same phase. The pace at which worker and console
go makes no difference. -/
theorem run_command (delay maxCycles : Option Nat) (trace json : Bool) (inputs : List Int)
    (hload : (loadProgram program).play (s₀.printed (s!"🔧 Running: {program}" ++ "\n")) =
      (s, some memory))
    (hfree : settings.startPaused = false) :
    let o : RunOptions := ⟨maxCycles.or settings.maxCycles, trace, json⟩
    let d : Stock := ⟨inputs, s.lines⟩
    let begun :=
      (Session.begin settings (some (.run program delay maxCycles trace json inputs))).play s₀
    (∀ fuel s' status, Session.playOn fuel begun.1 begun.2 = (s', some status) →
      ∃ (b : Bare) (r : Except MachineError Termination),
        s' = o.left (s.printed (textOf executionLines)) d b.events ⟨b.machine, r⟩ ∧
        (status = if b.machine.status = .faulted then 1 else 0) ∧
        ((∃ n, Ends memory o.limit d.values n r ∧ b = bare memory d.values n ∧
            loads b.events <+: d.values) ∨
          ∃ n, Starves memory o.limit d.values n ∧ r = .ok .interrupted ∧
            b = bare memory (d.values ++ [0]) (n + 2) ∧ loads b.events = d.values ++ [0] ∧
            (∀ k < 2, (bare memory (d.values ++ [0]) (n + k)).machine.atBoundary = false) ∧
            b.machine.atBoundary = true ∧
            b.machine.registers.clock = (bare memory d.values n).machine.registers.clock)) ∧
    ((∃ n r, Ends memory o.limit d.values n r) ∨ (∃ n, Starves memory o.limit d.values n) →
      ∃ fuel s' status, Session.playOn fuel begun.1 begun.2 = (s', some status)) ∧
    ∃ session, begun.2 = .going (.run session) ∧ ∀ s' status,
      (∃ actors, Relay.playAll begun.1 (.going ⟨session, []⟩) actors = (s', .ended status)) ↔
        ∃ fuel, Session.playOn fuel begun.1 begun.2 = (s', some status) := by
  intro o d begun
  let shown := s.printed (textOf executionLines)
  obtain ⟨session, hshows, hbegun⟩ := play_begin delay maxCycles trace json inputs hload hfree
  replace hbegun : begun = (shown, .going (.run session)) := hbegun
  rw [hbegun]
  refine ⟨?_, ?_, ?_⟩
  · intro fuel s' status hplayed
    replace hplayed : Session.playOn fuel shown (.going (.run session)) = (s', some status) :=
      hplayed
    obtain ⟨hlasts, hproceeds⟩ | ⟨n, r, h⟩ | ⟨n, h⟩ := o.lasts_or_stops memory d.values fuel
    · obtain ⟨k, hle, hreached⟩ := RunOptions.reaches_bare (s := shown) hlasts hproceeds
      obtain ⟨session', -, hleads⟩ := hreached session hshows
      have hunended : (Session.playOn fuel shown (.going (.run session))).2 = none :=
        hleads.unended hle
      rw [hplayed] at hunended
      cases hunended
    · obtain ⟨k, hconcludes⟩ := RunOptions.concludes_of_ends (s := shown) h
      obtain ⟨hleft, hstatus⟩ := (hconcludes session hshows).result hplayed
      have hprefix : loads (bare memory d.values n).events <+: d.values :=
        ⟨_, (List.append_assoc _ _ _).symm.trans (bare_ledger memory d.values_lt n)⟩
      exact ⟨_, r, hleft, hstatus.trans (exitStatus_of_ends h), .inl ⟨n, h, rfl, hprefix⟩⟩
    · obtain ⟨k, hconcludes⟩ := RunOptions.concludes_of_starves (s := shown) h
      obtain ⟨hleft, hstatus⟩ := (hconcludes session hshows).result hplayed
      obtain ⟨hloads, hrunning, hinside, hat, hclock⟩ :=
        h.closes d.values_lt 0 (by decide)
      exact ⟨_, .ok .interrupted, hleft, by simp [hstatus, hrunning],
        .inr ⟨n, h, rfl, rfl, hloads, hinside, hat, hclock⟩⟩
  · rintro (⟨n, r, h⟩ | ⟨n, h⟩)
    · obtain ⟨k, hconcludes⟩ := RunOptions.concludes_of_ends (s := shown) h
      exact ⟨k, _, _, (hconcludes session hshows 0).trans (Session.playOn_ended 0 _ _)⟩
    · obtain ⟨k, hconcludes⟩ := RunOptions.concludes_of_starves (s := shown) h
      exact ⟨k, _, _, (hconcludes session hshows 0).trans (Session.playOn_ended 0 _ _)⟩
  · obtain ⟨w, htidy, hawake⟩ := tidy_of_shows hshows
    exact ⟨session, rfl, relay_iff htidy hawake shown⟩

end

/-- A program takes a value of the command line, puts it out and takes another. A line without a
number is passed over. -/
theorem run_command_echo :
    let memory := Memory.ofList [29 * 2 ^ 15, 29 * 2 ^ 15 + 1, 29 * 2 ^ 15, 31 * 2 ^ 15]
    let source := "NAM ECHO\nINP\nOUT\nINP\nHLT\nEND\n"
    let program := "echo.asm"
    let s₀ : Surroundings :=
      { folder := ⟨[(program, source.toUTF8)]⟩, lines := ["seven\n", " 7 \n"] }
    let s := ((loadProgram program).play (s₀.printed (s!"🔧 Running: {program}" ++ "\n"))).1
    let d : Stock := ⟨[-1], s.lines⟩
    let o : RunOptions := ⟨none, false, false⟩
    let begun := (Session.begin {} (some (.run program none none false false [-1]))).play s₀
    s.lines = ["seven\n", " 7 \n"] ∧ d.values = [2 ^ 20 - 1, 7] ∧
      ∃ n, Ends memory none d.values n (.ok .halted) ∧
      ∃ fuel, Session.playOn fuel begun.1 begun.2 =
        (o.left (s.printed (textOf executionLines)) d (bare memory d.values n).events
          ⟨(bare memory d.values n).machine, .ok .halted⟩, some 0) := by
  intro memory source program s₀ s d o begun
  have hload : (loadProgram program).play (s₀.printed (s!"🔧 Running: {program}" ++ "\n")) =
      (s, some memory) := Prod.ext rfl (by decide +kernel)
  have hlines : s.lines = ["seven\n", " 7 \n"] := by decide +kernel
  have hvalues : d.values = [2 ^ 20 - 1, 7] := by decide +kernel
  obtain ⟨n, hends⟩ : ∃ n, Ends memory none d.values n (.ok .halted) := by
    rw [hvalues]
    exact ⟨21, by decide +kernel, by decide +kernel⟩
  have hfree : ({} : Settings).startPaused = false := rfl
  obtain ⟨hresult, hruns, -⟩ := run_command none none false false [-1] hload hfree
  obtain ⟨fuel, s', status, hplayed⟩ := hruns (.inl ⟨n, _, hends⟩)
  obtain ⟨b, r, hleft, hstatus, ⟨k, h, rfl, -⟩ | ⟨k, h, -⟩⟩ := hresult fuel s' status hplayed
  · obtain ⟨rfl, rfl⟩ := hends.unique h
    have hsound : (bare memory d.values n).machine.status ≠ .faulted := by
      simp [hends.faulted_iff]
    have hzero : status = 0 := hstatus.trans (if_neg hsound)
    rw [hleft, hzero] at hplayed
    exact ⟨hlines, hvalues, n, hends, fuel, hplayed⟩
  · exact absurd hends h.not_ends

end TrnComputer
