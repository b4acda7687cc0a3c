import TrnComputer.Proofs.Control.Usage

/-! # Interruption releases the worker

A worker that is asked to end goes on to the end of the phase that it is in, and no further. Nothing
blocks it on its way.

* `Machine.WithinPhase`: micro-steps of one phase.
* `Worker.allowance`: what a worker may still do once it is asked to end.
* `Draining`: what it has done has come out of its allowance; `Draining.move` is the step.
* `Course.Fed`: nothing blocks the worker.
* `interruption_releases`: all of this for every state in which a request can be made.
-/

namespace TrnComputer
set_option autoImplicit false

/-! ## What is left to do -/

/-- A machine has got to another within one phase: the phase that is open or, at a phase boundary,
the next one. `n` micro-steps have been carried out, not counting those that waited, and the values
have been supplied. After the first micro-step there are more only while the phase is open. -/
inductive Machine.WithinPhase (m : Machine) : Nat → List Nat → Machine → Prop
  | start : WithinPhase m 0 [] m
  | carry {n : Nat} {values : List Nat} {k : Machine} (h : WithinPhase m n values k)
    (hopen : n = 0 ∨ k.phaseOpen = true) (hresult : k.microStep.result ≠ .ok .awaitsInput) :
    WithinPhase m (n + 1) values k.microStep.machine
  | wait {n : Nat} {values : List Nat} {k : Machine} (h : WithinPhase m n values k)
    (hopen : n = 0 ∨ k.phaseOpen = true) (hresult : k.microStep.result = .ok .awaitsInput) :
    WithinPhase m n values k.microStep.machine
  | supply {n : Nat} {values : List Nat} {k : Machine} (h : WithinPhase m n values k)
    (value : Nat) : WithinPhase m n (values ++ [value]) (k.supply value)

/-- What a worker may still do: micro-steps, phases that it may begin, values that it may take from
the slot, and the moves that it needs at most. -/
structure Allowance where
  steps : Nat := 0
  phases : Nat := 0
  inputs : Nat := 0
  moves : Nat := 0

structure Allowance.Within (a b : Allowance) : Prop where
  steps : a.steps ≤ b.steps
  phases : a.phases ≤ b.phases
  inputs : a.inputs ≤ b.inputs
  moves : a.moves ≤ b.moves

/-- What a worker may still do once it is asked to end, by where it stands and whether a phase is
open that needs so many micro-steps. It may begin a phase only if it is past the test for
interruption. -/
def Point.allowance (left : Nat) : Point → Bool → Allowance
  | .checkpoint, true | .held _, true => { steps := left, moves := 3 * left + 2 }
  | .checkpoint, false | .held _, false => { moves := 2 }
  | .boundary, true => { steps := left, moves := 3 * left + 1 }
  | .boundary, false => { moves := 1 }
  | .ready, true => { steps := left, moves := 3 * left }
  | .ready, false => { steps := left, phases := 1, inputs := 1, moves := 3 * left + 3 }
  | .reading, _ | .starved _, _ => { steps := left, inputs := 1, moves := 3 * left + 2 }
  | .finished _, _ => {}

namespace Worker

def allowance (w : Worker) : Allowance := w.point.allowance w.machine.stepsLeft w.machine.phaseOpen

theorem allowance_eq {w : Worker} {q : Point} {phaseOpen : Bool} (hpoint : w.point = q)
    (hopen : w.machine.phaseOpen = phaseOpen) :
    w.allowance = q.allowance w.machine.stepsLeft phaseOpen := by
  rw [allowance, hpoint, hopen]

/-- At most one phase of four micro-steps, with one value. -/
theorem allowance_le (w : Worker) :
    w.allowance.steps ≤ 4 ∧ w.allowance.phases ≤ 1 ∧ w.allowance.inputs ≤ 1 ∧
      w.allowance.moves ≤ 15 := by
  have hleft := w.machine.stepsLeft_le_four
  unfold allowance Point.allowance
  split <;> refine ⟨?_, ?_, ?_, ?_⟩ <;> simp only <;> omega

theorem Woken.allowance {w w' : Worker} (h : w.Woken w') : w'.allowance = w.allowance := by
  cases h with
  | not => rfl
  | held hpoint | starved hpoint =>
    unfold Worker.allowance
    rw [hpoint]
    cases w.machine.phaseOpen <;> rfl

/-- The value that the next move takes from the slot, if it takes one. -/
def taking (p : Panel) (w : Worker) : Option Nat :=
  match w.point with
  | .reading | .starved true => p.slot.value?
  | _ => none

end Worker

/-- How a run may end that has been asked to end while its worker was `w₀`. -/
inductive Ending (w₀ w : Worker) : Except MachineError Termination → Prop
  | interrupted (hclosed : w.machine.phaseOpen = false) : Ending w₀ w (.ok .interrupted)
  | halted (hopen : w.machine.phaseOpen = true) (hhalted : w.machine.status = .halted) :
    Ending w₀ w (.ok .halted)
  | failed {cause : Fault} (hopen : w.machine.phaseOpen = true)
    (hfaulted : w.machine.status = .faulted) : Ending w₀ w (.error (.fault cause))
  /-- The worker was past the test for interruption already, and stops right there at the limit. -/
  | limited (hready : w₀.point = .ready) (hlimit : w₀.limitReached = true)
    (hsame : w.machine = w₀.machine) : Ending w₀ w (.ok .cycleLimit)

/-! ## Moves of a worker that is asked to end -/

/-- A worker that has been asked to end as `w₀` has come to `w`: it has carried out `n` micro-steps
and taken some values, all out of its allowance. -/
structure Draining (w₀ : Worker) (taken : List Nat) (w : Worker) (n : Nat) : Prop where
  sound : w.Sound
  within : w₀.machine.WithinPhase n taken w.machine
  steps : n + w.allowance.steps ≤ w₀.allowance.steps
  phases : w.machine.registers.clock + w.allowance.phases ≤
    w₀.machine.registers.clock + w₀.allowance.phases
  inputs : taken.length + w.allowance.inputs ≤ w₀.allowance.inputs
  moves : w.allowance.moves ≤ w₀.allowance.moves
  /-- Only at the very beginning is it at a phase boundary and past the test for interruption. -/
  fresh : w.point = .ready → w.machine.phaseOpen = false → w = w₀ ∧ n = 0
  ends : ∀ r, w.point = .finished r → Ending w₀ w r

theorem draining_start {w₀ : Worker} (h : w₀.Sound) (hbusy : w₀.isFinished = false) :
    Draining w₀ [] w₀ 0 where
  sound := h
  within := .start
  steps := by omega
  phases := Nat.le_refl _
  inputs := by simp
  moves := Nat.le_refl _
  fresh := fun _ _ => ⟨rfl, rfl⟩
  ends := fun r hr => by simp [Worker.isFinished, hr] at hbusy

namespace Draining

section
variable {w₀ w : Worker} {taken : List Nat} {n : Nat} {p : Panel} {m : Move}

theorem woken {w' : Worker} (h : Draining w₀ taken w n) (hwoken : w.Woken w') :
    Draining w₀ taken w' n where
  sound := hwoken.sound h.sound
  within := by rw [hwoken.machine]; exact h.within
  steps := by rw [hwoken.allowance]; exact h.steps
  phases := by rw [hwoken.machine, hwoken.allowance]; exact h.phases
  inputs := by rw [hwoken.allowance]; exact h.inputs
  moves := by rw [hwoken.allowance]; exact h.moves
  fresh := by
    cases hwoken with
    | not => exact h.fresh
    | held | starved => exact fun hpoint => by cases hpoint
  ends := by
    cases hwoken with
    | not => exact h.ends
    | held | starved => exact fun r hpoint => by cases hpoint

/-- What a worker does has to come out of its allowance. -/
theorem next (h : Draining w₀ taken w n) {w' : Worker} {taken' : List Nat} {n' : Nat}
    (hsound : w'.Sound) (hwithin : w₀.machine.WithinPhase n' taken' w'.machine)
    (hsteps : n' + w'.allowance.steps ≤ n + w.allowance.steps)
    (hphases : w'.machine.registers.clock + w'.allowance.phases ≤
      w.machine.registers.clock + w.allowance.phases)
    (hinputs : taken'.length + w'.allowance.inputs ≤ taken.length + w.allowance.inputs)
    (hmoves : w'.allowance.moves ≤ w.allowance.moves)
    (hfresh : w'.point = .ready → w'.machine.phaseOpen = true)
    (hends : ∀ r, w'.point = .finished r → Ending w₀ w' r) : Draining w₀ taken' w' n' where
  sound := hsound
  within := hwithin
  steps := Nat.le_trans hsteps h.steps
  phases := Nat.le_trans hphases h.phases
  inputs := Nat.le_trans hinputs h.inputs
  moves := Nat.le_trans hmoves h.moves
  fresh := fun hpoint hclosed => absurd ((hfresh hpoint).symm.trans hclosed) (by decide)
  ends := hends

/-- A worker that only changes its place, to one with no greater allowance. -/
theorem steer (h : Draining w₀ taken w n) {q : Point}
    (hsound : ({ w with point := q } : Worker).Sound)
    (hwithin : ({ w with point := q } : Worker).allowance.Within w.allowance)
    (hfresh : q = .ready → w.machine.phaseOpen = true)
    (hends : ∀ r, q = .finished r → Ending w₀ { w with point := q } r) :
    Draining w₀ taken { w with point := q } n :=
  h.next hsound h.within (Nat.add_le_add_left hwithin.steps n)
    (Nat.add_le_add_left hwithin.phases _) (Nat.add_le_add_left hwithin.inputs _) hwithin.moves
    hfresh hends

/-- A micro-step after which the worker stands at `q`, in a phase that needs so many more. -/
theorem driven (h : Draining w₀ taken w n) (hpoint : w.point = .ready) (p : Panel) {q : Point}
    {phaseOpen : Bool} {n' : Nat}
    (hwithin : w₀.machine.WithinPhase n' taken w.machine.microStep.machine)
    (hq : Worker.pointAfter w.machine.microStep.result = q)
    (hopen : w.machine.microStep.machine.phaseOpen = phaseOpen)
    (hsteps : n' + (q.allowance w.machine.microStep.machine.stepsLeft phaseOpen).steps ≤
      n + w.allowance.steps)
    (hphases : (q.allowance w.machine.microStep.machine.stepsLeft phaseOpen).phases = 0)
    (hinputs : (q.allowance w.machine.microStep.machine.stepsLeft phaseOpen).inputs ≤
      w.allowance.inputs)
    (hmoves : (q.allowance w.machine.microStep.machine.stepsLeft phaseOpen).moves <
      w.allowance.moves)
    (hends : ∀ r, q = .finished r → Ending w₀ (w.drive p).worker r) (hnot : q ≠ .ready) :
    ∃ n', Draining w₀ taken (w.drive p).worker n' ∧
      (w.drive p).worker.allowance.inputs ≤ w.allowance.inputs ∧
      (w.drive p).worker.allowance.moves < w.allowance.moves := by
  have hrun := h.sound.running (by simp [Worker.isFinished, hpoint])
  have hpoint' : (w.drive p).worker.point = q := hq
  have hallowance : (w.drive p).worker.allowance =
      q.allowance w.machine.microStep.machine.stepsLeft phaseOpen := Worker.allowance_eq hq hopen
  have hclock : w.machine.microStep.machine.registers.clock ≤
      w.machine.registers.clock + w.allowance.phases := by
    rw [Machine.clock_microStep hrun]
    cases hopened : w.machine.phaseOpen <;> rw [Worker.allowance_eq hpoint hopened] <;>
      exact Nat.le_refl _
  rw [← hallowance] at hsteps hphases hinputs hmoves
  have hdraining := h.next (h.sound.drive hpoint p) hwithin hsteps (by rw [hphases]; exact hclock)
    (Nat.add_le_add_left hinputs _) (Nat.le_of_lt hmoves)
    (fun hready => absurd (hpoint'.symm.trans hready) hnot)
    (fun r hr => hends r (hpoint'.symm.trans hr))
  exact ⟨n', hdraining, hinputs, hmoves⟩

theorem drive (h : Draining w₀ taken w n) (hpoint : w.point = .ready) (p : Panel) :
    ∃ n', Draining w₀ taken (w.drive p).worker n' ∧
      (w.drive p).worker.allowance.inputs ≤ w.allowance.inputs ∧
      (w.drive p).worker.allowance.moves < w.allowance.moves := by
  have hrun := h.sound.running (by simp [Worker.isFinished, hpoint])
  have hleft := h.sound.wellFormed.stepsLeft_pos hrun
  -- A micro-step at a phase boundary is the first one since the request, so the phase that it
  -- begins is the only one.
  have hopened : n = 0 ∨ w.machine.phaseOpen = true := by
    cases hopen : w.machine.phaseOpen with
    | true => exact .inr rfl
    | false => exact .inl (h.fresh hpoint hopen).2
  have hsteps : w.allowance.steps = w.machine.stepsLeft := by
    cases hopen : w.machine.phaseOpen <;> rw [Worker.allowance_eq hpoint hopen] <;> rfl
  have hmoves : 3 * w.machine.stepsLeft ≤ w.allowance.moves := by
    cases hopen : w.machine.phaseOpen <;> rw [Worker.allowance_eq hpoint hopen]
    · exact Nat.le_add_right _ 3
    · exact Nat.le_refl _
  have hprogress := Machine.progressed_microStep h.sound.wellFormed hrun
  generalize hresult : w.machine.microStep.result = result at hprogress
  have hq := congrArg Worker.pointAfter hresult
  cases hprogress with
  | counts _ _ hopen _ hcounted =>
    have hcarried := h.within.carry hopened (by rw [hresult]; simp)
    refine h.driven hpoint p hcarried hq hopen ?_ rfl (Nat.zero_le _) ?_ (by rintro _ ⟨⟩)
      (by rintro ⟨⟩)
    · change n + 1 + w.machine.microStep.machine.stepsLeft ≤ _
      omega
    · change 3 * w.machine.microStep.machine.stepsLeft + 2 < _
      omega
  | closes _ _ hclosed =>
    have hcarried := h.within.carry hopened (by rw [hresult]; simp)
    refine h.driven hpoint p hcarried hq hclosed ?_ rfl (Nat.zero_le _) ?_ (by rintro _ ⟨⟩)
      (by rintro ⟨⟩)
    · change n + 1 + 0 ≤ _
      omega
    · change 2 < _
      omega
  | waits hinput hsc _ _ hopen hsame =>
    -- Only the first micro-step of a phase waits, so the phase begins with it.
    have hclosed : w.machine.phaseOpen = false := by
      cases hbegun : w.machine.phaseOpen with
      | false => rfl
      | true => exact absurd hsc (h.sound.not_waits hpoint hbegun hinput)
    have hallowance := Worker.allowance_eq hpoint hclosed
    refine h.driven hpoint p (h.within.wait hopened hresult) hq hopen ?_ rfl ?_ ?_
      (by rintro _ ⟨⟩) (by rintro ⟨⟩)
    · rw [hallowance, hsame]
      exact Nat.le_refl _
    · rw [hallowance]
      exact Nat.le_refl _
    · rw [hallowance, hsame]
      exact Nat.lt_succ_self _
  | halts hhalted hopen =>
    have hcarried := h.within.carry hopened (by rw [hresult]; simp)
    refine h.driven hpoint p hcarried hq hopen ?_ rfl (Nat.zero_le _) ?_ ?_ (by rintro ⟨⟩)
    · change n + 1 + 0 ≤ _
      omega
    · change 0 < _
      omega
    · rintro _ ⟨⟩
      exact .halted hopen hhalted
  | fails cause hfaulted hopen =>
    have hcarried := h.within.carry hopened (by rw [hresult]; simp)
    refine h.driven hpoint p hcarried hq hopen ?_ rfl (Nat.zero_le _) ?_ ?_ (by rintro ⟨⟩)
    · change n + 1 + 0 ≤ _
      omega
    · change 0 < _
      omega
    · rintro _ ⟨⟩
      exact .failed hopen hfaulted

/-- A worker that takes a value goes on with the phase that it is in. -/
theorem take (h : Draining w₀ taken w n) (hpoint : w.point = .reading ∨ w.point = .starved true)
    (hbusy : w.isFinished = false) (value : Nat) {w' : Worker}
    (hw' : w' = { w with machine := w.machine.supply value, point := .boundary }) :
    Draining w₀ (taken ++ [value]) w' n ∧ w'.allowance.inputs ≤ w.allowance.inputs ∧
      w'.allowance.moves < w.allowance.moves := by
  have hopen := h.sound.open_of_awaits hbusy (h.sound.waiting hpoint).2
  have hbefore : w.allowance = Point.reading.allowance w.machine.stepsLeft true := by
    obtain hp | hp := hpoint
    · rw [Worker.allowance_eq hp hopen]
    · rw [Worker.allowance_eq hp hopen]
      rfl
  have hafter : w'.allowance = Point.boundary.allowance w.machine.stepsLeft true := by
    subst hw'
    exact Worker.allowance_eq rfl hopen
  have hless : w'.allowance.moves < w.allowance.moves := by
    rw [hafter, hbefore]
    exact Nat.lt_succ_self _
  have hinputs : w'.allowance.inputs + 1 = w.allowance.inputs := by
    rw [hafter, hbefore]
    rfl
  have hdraining : Draining w₀ (taken ++ [value]) w' n := by
    apply h.next
    · rw [hw']
      exact h.sound.take hpoint hbusy value
    · rw [hw']
      exact h.within.supply value
    · rw [hafter, hbefore]
      exact Nat.le_refl _
    · rw [hafter, hbefore, hw']
      exact Nat.le_refl _
    · rw [List.length_append, List.length_singleton]
      omega
    · exact Nat.le_of_lt hless
    · rw [hw']
      rintro ⟨⟩
    · rw [hw']
      rintro _ ⟨⟩
  exact ⟨hdraining, by omega, hless⟩

/-- Once interruption is requested, every move comes out of the allowance. It uses up some of it,
unless the worker finds no value in the slot. -/
theorem move (h : Draining w₀ taken w n) (hflag : p.interrupted = true)
    (hmove : w.move? p = some m) :
    ∃ n', Draining w₀ (taken ++ (w.taking p).toList) m.worker n' ∧
      m.worker.allowance.inputs ≤ w.allowance.inputs ∧
      (m.worker.point = .starved false ∨ m.worker.allowance.moves < w.allowance.moves) := by
  have hsound := h.sound.move hmove
  have hmoved := Worker.moved_of_move? hmove
  have hbusy := hmoved.busy
  have hkeeps (hnone : w.taking p = none) : taken ++ (w.taking p).toList = taken := by
    rw [hnone, Option.toList_none, List.append_nil]
  cases hmoved with
  | passes hpoint hmay =>
    have hless : (Point.boundary.allowance w.machine.stepsLeft w.machine.phaseOpen).Within
        w.allowance ∧ (Point.boundary.allowance w.machine.stepsLeft w.machine.phaseOpen).moves <
          w.allowance.moves := by
      cases hopen : w.machine.phaseOpen <;> obtain hp | hp := hpoint <;>
        rw [Worker.allowance_eq hp hopen] <;>
        exact ⟨⟨Nat.le_refl _, Nat.le_refl _, Nat.le_refl _, Nat.le_succ _⟩, Nat.lt_succ_self _⟩
    rw [hkeeps (by obtain hp | hp := hpoint <;> simp [Worker.taking, hp])]
    exact ⟨n, h.steer (q := .boundary) hsound hless.1 (by rintro ⟨⟩) (by rintro _ ⟨⟩),
      hless.1.inputs, .inr hless.2⟩
  | isHeld hpoint hmay =>
    simp [Panel.mayPass, hflag] at hmay
  | isInterrupted hpoint hclosed hflag =>
    have hallowance := Worker.allowance_eq hpoint hclosed
    rw [hkeeps (by simp [Worker.taking, hpoint])]
    refine ⟨n, h.steer (q := .finished _) hsound ?_ (by rintro ⟨⟩) ?_, Nat.zero_le _, .inr ?_⟩
    · exact ⟨Nat.zero_le _, Nat.zero_le _, Nat.zero_le _, Nat.zero_le _⟩
    · rintro _ ⟨⟩
      exact .interrupted hclosed
    · rw [hallowance]
      exact Nat.zero_lt_one
  | goesOn hpoint hmay =>
    have hopen : w.machine.phaseOpen = true := by simpa [hflag] using hmay
    have hallowance := Worker.allowance_eq hpoint hopen
    have hready : ({ w with point := .ready } : Worker).allowance =
        Point.ready.allowance w.machine.stepsLeft true := Worker.allowance_eq rfl hopen
    rw [hkeeps (by simp [Worker.taking, hpoint])]
    refine ⟨n, h.steer (q := .ready) hsound ?_ (fun _ => hopen) (by rintro _ ⟨⟩), ?_, .inr ?_⟩
    · rw [hallowance, hready]
      exact ⟨Nat.le_refl _, Nat.le_refl _, Nat.le_refl _, Nat.le_succ _⟩
    · rw [hallowance, hready]
      exact Nat.le_refl _
    · rw [hallowance, hready]
      exact Nat.lt_succ_self _
  | limited hpoint hlimit =>
    have hclosed := Worker.closed_of_limitReached hlimit
    -- The limit is tested at a boundary only, where the worker still is as it was at the request.
    obtain ⟨rfl, rfl⟩ := h.fresh hpoint hclosed
    have hallowance := Worker.allowance_eq hpoint hclosed
    rw [hkeeps (by simp [Worker.taking, hpoint])]
    refine ⟨0, h.steer (q := .finished _) hsound ?_ (by rintro ⟨⟩) ?_, Nat.zero_le _, .inr ?_⟩
    · exact ⟨Nat.zero_le _, Nat.zero_le _, Nat.zero_le _, Nat.zero_le _⟩
    · rintro _ ⟨⟩
      exact .limited hpoint hlimit rfl
    · rw [hallowance]
      exact Nat.zero_lt_succ _
  | drives hpoint hlimit =>
    obtain ⟨n', hdraining, hinputs, hless⟩ := h.drive hpoint p
    rw [hkeeps (by simp [Worker.taking, hpoint])]
    exact ⟨n', hdraining, hinputs, .inr hless⟩
  | @takes hpoint value hslot =>
    have htaking : w.taking p = some value := by
      obtain hp | hp := hpoint <;> simp [Worker.taking, hp, hslot]
    obtain ⟨hdraining, hinputs, hless⟩ := h.take hpoint hbusy value rfl
    rw [htaking]
    exact ⟨n, hdraining, hinputs, .inr hless⟩
  | isStarved hpoint hslot =>
    have hsame : ({ w with point := .starved false } : Worker).allowance = w.allowance := by
      unfold Worker.allowance
      obtain hp | hp := hpoint <;> rw [hp] <;> cases w.machine.phaseOpen <;> rfl
    rw [hkeeps (by obtain hp | hp := hpoint <;> simp [Worker.taking, hp, hslot])]
    refine ⟨n, h.steer (q := .starved false) hsound ?_ (by rintro ⟨⟩) (by rintro _ ⟨⟩),
      Nat.le_of_eq (congrArg Allowance.inputs hsame), .inl rfl⟩
    rw [hsame]
    exact ⟨Nat.le_refl _, Nat.le_refl _, Nat.le_refl _, Nat.le_refl _⟩

end

end Draining

/-! ## Turns after a request -/

/-- A move leaves the slot alone, or the worker goes back to the phase with the value. -/
theorem Worker.Moved.slot {p : Panel} {w : Worker} {m : Move} (h : Worker.Moved p w m) :
    m.panel.slot = p.slot ∨ m.worker.allowance.inputs = 0 := by
  cases h with
  | passes =>
    unfold Panel.pass
    split <;> exact .inl rfl
  | isHeld | isInterrupted | goesOn | limited | drives | isStarved => exact .inl rfl
  | takes =>
    refine .inr ?_
    unfold Worker.allowance
    cases (w.machine.supply _).phaseOpen <;> rfl

/-- A worker goes to sleep only where it may not pass or finds no value. -/
theorem Worker.Moved.asleep {p : Panel} {w : Worker} {m : Move} (h : Worker.Moved p w m) :
    (m.worker.point = .held false → p.mayPass = false) ∧
      (m.worker.point = .starved false → p.slot.value? = none ∧ 0 < w.allowance.inputs) := by
  cases h with
  | passes | isInterrupted | goesOn | limited | takes => exact ⟨by rintro ⟨⟩, by rintro ⟨⟩⟩
  | isHeld hpoint hmay => exact ⟨fun _ => hmay, by rintro ⟨⟩⟩
  | drives =>
    change (pointAfter _ = _ → _) ∧ (pointAfter _ = _ → _)
    unfold pointAfter
    split <;> exact ⟨by rintro ⟨⟩, by rintro ⟨⟩⟩
  | isStarved hpoint hslot =>
    refine ⟨by rintro ⟨⟩, fun _ => ⟨hslot, ?_⟩⟩
    unfold allowance
    obtain hp | hp := hpoint <;> rw [hp] <;> cases w.machine.phaseOpen <;> exact Nat.zero_lt_one

namespace Course

/-- A run is going on after interruption has been requested. -/
structure Drains (s : Course) (w₀ w : Worker) (n : Nat) : Prop where
  worker : s.controller.worker = some w
  flag : s.controller.panel.interrupted = true
  draining : Draining w₀ s.taken w n

/-- Nothing blocks the worker: it sleeps nowhere, and a value is in the slot as long as it may want
one. -/
structure Fed (s : Course) (w : Worker) : Prop where
  awake : w.point ≠ .held false
  woken : w.point ≠ .starved false
  slot : 0 < w.allowance.inputs → s.controller.panel.slot.value? ≠ none

end Course

def Turn.isMove : Turn → Bool
  | .move => true
  | _ => false

/-- What holds of a later moment of a run that is asked to end, after so many moves. -/
structure Course.Leads (s : Course) (w : Worker) (s' : Course) (w' : Worker) (moves : Nat) :
    Prop where
  awake : w.point ≠ .held false → w'.point ≠ .held false
  finished : w.isFinished = true → w'.isFinished = true
  fed : s.Fed w → s'.Fed w'
  spent : s.Fed w → w'.isFinished = true ∨ w'.allowance.moves + moves ≤ w.allowance.moves

theorem Course.Leads.trans {s s' s'' : Course} {w w' w'' : Worker} {moves more : Nat}
    (h : s.Leads w s' w' moves) (h' : s'.Leads w' s'' w'' more) :
    s.Leads w s'' w'' (moves + more) where
  awake := fun hawake => h'.awake (h.awake hawake)
  finished := fun hfinished => h'.finished (h.finished hfinished)
  fed := fun hfed => h'.fed (h.fed hfed)
  spent := fun hfed => by
    obtain hfinished | hspent := h.spent hfed
    · exact .inl (h'.finished hfinished)
    · obtain hfinished | hmore := h'.spent (h.fed hfed)
      · exact .inl hfinished
      · exact .inr (by omega)

namespace Course.Drains
variable {s : Course} {w₀ w : Worker} {n : Nat}

theorem steer (h : s.Drains w₀ w n) {t : Turn} (ht : t ≠ .move) :
    ∃ w', (s.after t).Drains w₀ w' n ∧ s.Leads w (s.after t) w' 0 := by
  obtain ⟨-, htaken, hflag, hslot, hworker⟩ := s.steered ht
  rw [h.worker] at hworker
  generalize hafter : (s.after t).controller.worker = after at hworker
  cases hworker with
  | @some _ w' hwoken =>
    have hfull : s.controller.panel.slot.value? ≠ none →
        (s.after t).controller.panel.slot.value? ≠ none := by
      rw [hslot]
      cases t.given with
      | none => exact id
      | some value => exact fun _ => Option.some_ne_none value
    have hawake : w.point ≠ .held false → w'.point ≠ .held false := by
      cases hwoken with
      | not => exact id
      | held | starved => exact fun _ => by simp
    have hwoken' : w.point ≠ .starved false → w'.point ≠ .starved false := by
      cases hwoken with
      | not => exact id
      | held | starved => exact fun _ => by simp
    refine ⟨w', ⟨hafter, hflag.trans h.flag, ?_⟩, hawake, ?_, fun hfed => ?_, fun _ => .inr ?_⟩
    · rw [htaken]
      exact h.draining.woken hwoken
    · cases hwoken with
      | not => exact id
      | held hpoint | starved hpoint => simp [Worker.isFinished, hpoint]
    · exact ⟨hawake hfed.awake, hwoken' hfed.woken,
        fun hinputs => hfull (hfed.slot (hwoken.allowance ▸ hinputs))⟩
    · exact Nat.le_of_eq (congrArg Allowance.moves hwoken.allowance)

/-- A move of a worker that is asked to end. If nothing blocks it, nothing does so afterwards, and
some of the allowance is used up. -/
theorem move (h : s.Drains w₀ w n) :
    ∃ w' n', (s.after .move).Drains w₀ w' n' ∧ s.Leads w (s.after .move) w' 1 := by
  obtain ⟨v, m, hworker, hmove, hafter⟩ | ⟨hnone, hsame⟩ := s.move_cases
  · obtain rfl : v = w := Option.some.inj (hworker.symm.trans h.worker)
    have hmoved := Worker.moved_of_move? hmove
    have htaking : s.controller.taking = v.taking s.controller.panel := by
      simp only [Controller.taking, h.worker]
      rfl
    obtain ⟨n', hdraining, hinputs, hless⟩ := h.draining.move h.flag hmove
    have hawake : m.worker.point ≠ .held false := fun hheld => by
      have hmay := hmoved.asleep.1 hheld
      simp [Panel.mayPass, h.flag] at hmay
    have hwoken (hfed : s.Fed v) : m.worker.point ≠ .starved false := fun hstarved => by
      obtain ⟨hempty, hpositive⟩ := hmoved.asleep.2 hstarved
      exact hfed.slot hpositive hempty
    refine ⟨m.worker, n', ⟨by rw [hafter], ?_, ?_⟩, fun _ => hawake, ?_, fun hfed => ?_,
      fun hfed => .inr (hless.resolve_left (hwoken hfed))⟩
    · rw [hafter]
      exact hmoved.flag.trans h.flag
    · rw [hafter, htaking]
      exact hdraining
    · intro hfinished
      rw [Worker.move?_eq_none_iff.2 (.inr (.inr hfinished))] at hmove
      cases hmove
    · refine ⟨hawake, hwoken hfed, fun hpositive => ?_⟩
      rw [hafter]
      obtain hkept | hzero := hmoved.slot
      · rw [hkept]
        exact hfed.slot (Nat.lt_of_lt_of_le hpositive hinputs)
      · omega
  · rw [hsame]
    refine ⟨w, n, h, id, id, id, fun hfed => .inl ?_⟩
    have hstuck : w.move? s.controller.panel = none := by
      cases hmove : w.move? s.controller.panel with
      | none => rfl
      | some m => simp [Controller.move?, h.worker, hmove] at hnone
    obtain hheld | hstarved | hfinished := Worker.move?_eq_none_iff.1 hstuck
    · exact absurd hheld hfed.awake
    · exact absurd hstarved hfed.woken
    · exact hfinished

theorem run (h : s.Drains w₀ w n) (turns : List Turn) :
    ∃ w' n', (s.run turns).Drains w₀ w' n' ∧
      s.Leads w (s.run turns) w' (turns.countP Turn.isMove) := by
  induction turns generalizing s w n with
  | nil => exact ⟨w, n, h, id, id, id, fun _ => .inr (Nat.le_refl _)⟩
  | cons t rest ih =>
    have hturn : ∃ w' n', (s.after t).Drains w₀ w' n' ∧
        s.Leads w (s.after t) w' (if t.isMove then 1 else 0) := by
      by_cases ht : t = .move
      · subst ht
        exact h.move
      · have hnot : t.isMove = false := by
          cases t with
          | move => exact absurd rfl ht
          | pause | resume | step | setInput | setDelay => rfl
        obtain ⟨w', hdrains, hleads⟩ := h.steer ht
        rw [hnot]
        exact ⟨w', n, hdrains, hleads⟩
    obtain ⟨w', n', hdrains, hleads⟩ := hturn
    obtain ⟨w'', n'', hrest, hmore⟩ := ih hdrains
    refine ⟨w'', n'', hrest, ?_⟩
    rw [List.countP_cons, Nat.add_comm]
    exact hleads.trans hmore

end Course.Drains

/-! ## Interruption -/

/-- A request for interruption, with turns between its parts. -/
def Course.interrupted (c : Controller) (during between : List Turn) : Course :=
  let flagged := run { controller := c.raiseFlag } during
  let woken := run { flagged with controller := flagged.controller.wakeHeld } between
  { woken with controller := woken.controller.offerPlaceholder }

theorem Worker.Sound.moves_pos {w : Worker} (h : w.Sound) (hbusy : w.isFinished = false) :
    0 < w.allowance.moves := by
  have hleft := h.wellFormed.stepsLeft_pos (h.running hbusy)
  unfold allowance Point.allowance
  unfold isFinished at hbusy
  split <;> simp_all

theorem Panel.offerPlaceholder_ne (p : Panel) : p.offerPlaceholder.slot.value? ≠ none := by
  unfold offerPlaceholder
  split
  next => exact Option.some_ne_none 0
  next hfull => exact hfull

theorem drains_interrupted {c : Controller} {w₀ : Worker} (hworker : c.worker = some w₀)
    (hsound : w₀.Sound) (hbusy : w₀.isFinished = false) (during between : List Turn) :
    ∃ w n, (Course.interrupted c during between).Drains w₀ w n ∧
      (Course.interrupted c during between).Fed w := by
  have hstart : ({ controller := c.raiseFlag } : Course).Drains w₀ w₀ 0 :=
    ⟨hworker, rfl, draining_start hsound hbusy⟩
  obtain ⟨w, n, hflagged, -⟩ := hstart.run during
  unfold Course.interrupted
  generalize Course.run { controller := c.raiseFlag } during = flagged at hflagged ⊢
  have hwoken : ({ flagged with controller := flagged.controller.wakeHeld } : Course).Drains
      w₀ w.wakeHeld n := by
    refine ⟨?_, hflagged.flag, hflagged.draining.woken w.woken_wakeHeld⟩
    simp [Controller.wakeHeld, hflagged.worker]
  have hawake : w.wakeHeld.point ≠ .held false := by
    unfold Worker.wakeHeld
    split <;> simp_all
  obtain ⟨w', n', hlater, hleads⟩ := hwoken.run between
  dsimp only
  generalize Course.run { flagged with controller := flagged.controller.wakeHeld } between =
    later at hlater hleads ⊢
  have hawake' := hleads.awake hawake
  refine ⟨w'.wakeStarved, n', ⟨?_, ?_, hlater.draining.woken w'.woken_wakeStarved⟩, ?_, ?_,
    fun _ => later.controller.panel.offerPlaceholder_ne⟩
  · simp [Controller.offerPlaceholder, Controller.wakeStarved, hlater.worker]
  · change later.controller.panel.offerPlaceholder.interrupted = true
    unfold Panel.offerPlaceholder
    split <;> exact hlater.flag
  · unfold Worker.wakeStarved
    split <;> simp_all
  · unfold Worker.wakeStarved
    split <;> simp_all

/-- A worker that was asked to end as `w₀` has come to `w` with `n` micro-steps, all out of its
allowance, and is not blocked. -/
structure Released (w₀ : Worker) (s : Course) (w : Worker) (n : Nat) : Prop where
  worker : s.controller.worker = some w
  free : w.isFinished = true ∨ s.controller.canMove = true
  within : w₀.machine.WithinPhase n s.taken w.machine
  steps : n ≤ w₀.allowance.steps
  phases : w.machine.registers.clock ≤ w₀.machine.registers.clock + w₀.allowance.phases
  inputs : s.taken.length ≤ w₀.allowance.inputs
  ends : ∀ r, w.point = .finished r → Ending w₀ w r

theorem Course.Drains.released {s : Course} {w₀ w : Worker} {n : Nat} (h : s.Drains w₀ w n)
    (hfed : s.Fed w) : Released w₀ s w n where
  worker := h.worker
  free := by
    cases hmove : w.move? s.controller.panel with
    | some m => exact .inr (by simp [Controller.canMove, Controller.move?, h.worker, hmove])
    | none =>
      obtain hheld | hstarved | hfinished := Worker.move?_eq_none_iff.1 hmove
      · exact absurd hheld hfed.awake
      · exact absurd hstarved hfed.woken
      · exact .inl hfinished
  within := h.draining.within
  steps := Nat.le_trans (Nat.le_add_right _ _) h.draining.steps
  phases := Nat.le_trans (Nat.le_add_right _ _) h.draining.phases
  inputs := Nat.le_trans (Nat.le_add_right _ _) h.draining.inputs
  ends := h.draining.ends

/-- Interruption releases the worker. In whatever state of a controller it is requested, the worker
goes on to the end of its phase: it begins a phase only if it was past the test for interruption,
and takes at most one value. Once the request has been made, nothing blocks it, whatever calls
follow, and it ends after at most 15 moves, interrupted at a phase boundary unless the machine stops
within the phase or the worker was about to stop at the limit. -/
theorem interruption_releases (settings : Settings) (acts : List Act) {w₀ : Worker}
    (hworker : (usage settings acts).controller.worker = some w₀)
    (hbusy : w₀.isFinished = false) :
    (w₀.allowance.phases ≤ 1 ∧ w₀.allowance.inputs ≤ 1 ∧ w₀.allowance.moves ≤ 15) ∧
      ∀ during between later : List Turn,
        let s := (Course.interrupted (usage settings acts).controller during between).run later
        ∃ w n, Released w₀ s w n ∧
          (w₀.allowance.moves ≤ later.countP Turn.isMove → w.isFinished = true) := by
  have hsound := (usage_sound settings acts).worker w₀ hworker
  refine ⟨w₀.allowance_le.2, fun during between later => ?_⟩
  obtain ⟨w, n, hdrains, hfed⟩ := drains_interrupted hworker hsound hbusy during between
  obtain ⟨w', n', hlater, hleads⟩ := hdrains.run later
  refine ⟨w', n', hlater.released (hleads.fed hfed), fun hmoves => ?_⟩
  obtain hfinished | hspent := hleads.spent hfed
  · exact hfinished
  · have hbound := hdrains.draining.moves
    cases hend : w'.isFinished with
    | true => rfl
    | false =>
      have hpos := hlater.draining.sound.moves_pos hend
      omega

/-- A worker that waits for input in vain ends when it is asked to. -/
theorem interruption_releases_starved :
    let acts := [Act.load (.ofList [29 * 2 ^ 15]), .start] ++ List.replicate 13 (.turn .move)
    ∃ w₀, (usage {} acts).controller.worker = some w₀ ∧ w₀.isFinished = false ∧
      w₀.point = .starved false ∧
      ∀ later : List Turn, 15 ≤ later.countP Turn.isMove → ∃ w,
        ((Course.interrupted (usage {} acts).controller [] []).run later).controller.worker =
          some w ∧ w.isFinished = true := by
  intro acts
  refine ⟨_, rfl, rfl, rfl, fun later hlater => ?_⟩
  obtain ⟨⟨-, -, hmoves⟩, hreleased⟩ := interruption_releases {} acts rfl rfl
  obtain ⟨w, n, h, hfinished⟩ := hreleased [] [] later
  exact ⟨w, h.worker, hfinished (Nat.le_trans hmoves hlater)⟩

end TrnComputer
