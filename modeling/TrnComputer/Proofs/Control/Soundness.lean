import TrnComputer.Control.Worker
import TrnComputer.Proofs.Machine.Progress

/-! # The worker between two moves

* `Slot.Lawful`: a placeholder is zero; what is done to the slot keeps it so.
* `Worker.Moved`: the eight moves of a worker; `moved_of_move?` says that there are no others.
* `Worker.Sound`: what holds of a worker between two moves. A value that has been taken is in the
  machine only in front of the instruction that waits for it.
* `Sound.move`, `Woken.sound`: moves keep a worker sound, and so does waking it.
-/

namespace TrnComputer
set_option autoImplicit false

/-! ## The slot -/

/-- A placeholder is zero. -/
def Slot.Lawful (s : Slot) : Prop := s.isPlaceholder = true → s.value? = some 0

namespace Slot
variable {s : Slot}

@[simp] theorem value?_empty : empty.value? = none := rfl

@[simp] theorem isPlaceholder_empty : empty.isPlaceholder = false := rfl

@[simp] theorem isPlaceholder_supplied (value : Nat) : (supplied value).isPlaceholder = false := rfl

@[simp] theorem value?_placeholder : placeholder.value? = some 0 := rfl

@[simp] theorem isPlaceholder_placeholder : placeholder.isPlaceholder = true := rfl

theorem eq_supplied_iff {value : Nat} :
    s = .supplied value ↔ s.value? = some value ∧ s.isPlaceholder = false := by
  cases s
  simp [supplied]

theorem lawful_empty : empty.Lawful := nofun

theorem Lawful.eq_empty (h : s.Lawful) (hnone : s.value? = none) : s = .empty := by
  obtain ⟨value?, isPlaceholder⟩ := s
  obtain rfl : value? = none := hnone
  cases isPlaceholder with
  | false => rfl
  | true => cases h rfl

end Slot

namespace Panel
variable {p : Panel}

theorem lawful_supply (p : Panel) (value : Nat) : (p.supply value).slot.Lawful := nofun

theorem lawful_takeSlot (p : Panel) : p.takeSlot.slot.Lawful := Slot.lawful_empty

theorem lawful_offerPlaceholder (h : p.slot.Lawful) : p.offerPlaceholder.slot.Lawful := by
  unfold offerPlaceholder
  split
  · exact fun _ => rfl
  · exact h

theorem lawful_renew (h : p.slot.Lawful) : p.renew.slot.Lawful := by
  unfold renew
  split
  · dsimp only
    split
    · exact Slot.lawful_empty
    · exact h
  · exact h

theorem slot_pass (p : Panel) : p.pass.slot = p.slot := by
  unfold pass
  split <;> rfl

end Panel

/-! ## Moves -/

namespace Worker

/-- The moves of a worker: at the checkpoint, at the test for interruption, at the limit, in a phase
and at the slot. -/
inductive Moved (p : Panel) (w : Worker) : Move → Prop
  | passes (hpoint : w.point = .checkpoint ∨ w.point = .held true) (hmay : p.mayPass = true) :
    Moved p w { panel := p.pass, worker := { w with point := .boundary } }
  | isHeld (hpoint : w.point = .checkpoint ∨ w.point = .held true) (hmay : p.mayPass = false) :
    Moved p w { panel := p, worker := { w with point := .held false } }
  | isInterrupted (hpoint : w.point = .boundary) (hclosed : w.machine.phaseOpen = false)
    (hflag : p.interrupted = true) :
    Moved p w
      { panel := p
        worker := { w with point := .finished (.ok .interrupted) }
        reports := [.interrupted w.machine.registers.clock] }
  | goesOn (hpoint : w.point = .boundary)
    (hmay : w.machine.phaseOpen = true ∨ p.interrupted = false) :
    Moved p w { panel := p, worker := { w with point := .ready } }
  | limited (hpoint : w.point = .ready) (hlimit : w.limitReached = true) :
    Moved p w { panel := p, worker := { w with point := .finished (.ok .cycleLimit) } }
  | drives (hpoint : w.point = .ready) (hlimit : w.limitReached = false) : Moved p w (w.drive p)
  | takes (hpoint : w.point = .reading ∨ w.point = .starved true) {value : Nat}
    (hslot : p.slot.value? = some value) :
    Moved p w
      { panel := p.takeSlot
        worker := { w with machine := w.machine.supply value, point := .boundary } }
  | isStarved (hpoint : w.point = .reading ∨ w.point = .starved true)
    (hslot : p.slot.value? = none) :
    Moved p w { panel := p, worker := { w with point := .starved false } }

section
variable {p : Panel} {w : Worker} {m : Move}

theorem moved_pass (hpoint : w.point = .checkpoint ∨ w.point = .held true) :
    Moved p w (w.pass p) := by
  unfold pass
  split
  next hmay => exact .passes hpoint hmay
  next hmay => exact .isHeld hpoint (by simpa using hmay)

theorem moved_testInterruption (hpoint : w.point = .boundary) :
    Moved p w (w.testInterruption p) := by
  unfold testInterruption
  split
  next h =>
    rw [Bool.and_eq_true, Machine.atBoundary, Bool.not_eq_true'] at h
    exact .isInterrupted hpoint h.1 h.2
  next h =>
    refine .goesOn hpoint ?_
    cases hopen : w.machine.phaseOpen with
    | true => exact .inl rfl
    | false => exact .inr (by simpa [Machine.atBoundary, hopen] using h)

theorem moved_work (hpoint : w.point = .ready) : Moved p w (w.work p) := by
  unfold work
  split
  next hlimit => exact .limited hpoint hlimit
  next hlimit => exact .drives hpoint (by simpa using hlimit)

theorem moved_takeInput (hpoint : w.point = .reading ∨ w.point = .starved true) :
    Moved p w (w.takeInput p) := by
  unfold takeInput
  split
  next hslot => exact .takes hpoint hslot
  next hslot => exact .isStarved hpoint hslot

theorem moved_of_move? (h : w.move? p = some m) : Moved p w m := by
  unfold move? at h
  split at h
  next hpoint => cases h; exact moved_pass (.inl hpoint)
  next hpoint => cases h; exact moved_pass (.inr hpoint)
  next hpoint => cases h; exact moved_testInterruption hpoint
  next hpoint => cases h; exact moved_work hpoint
  next hpoint => cases h; exact moved_takeInput (.inl hpoint)
  next hpoint => cases h; exact moved_takeInput (.inr hpoint)
  next => cases h
  next => cases h
  next => cases h

/-- A worker without a next move sleeps or has finished. -/
theorem move?_eq_none_iff :
    w.move? p = none ↔
      w.point = .held false ∨ w.point = .starved false ∨ w.isFinished = true := by
  unfold move? isFinished
  split <;> simp [*]

theorem Moved.busy (h : Moved p w m) : w.isFinished = false := by
  cases h with
  | isInterrupted hpoint | goesOn hpoint | limited hpoint | drives hpoint =>
    simp [isFinished, hpoint]
  | passes hpoint | isHeld hpoint | takes hpoint | isStarved hpoint =>
    obtain hp | hp := hpoint <;> simp [isFinished, hp]

theorem Moved.flag (h : Moved p w m) : m.panel.interrupted = p.interrupted := by
  cases h with
  | passes =>
    unfold Panel.pass
    split <;> rfl
  | isHeld | isInterrupted | goesOn | limited | drives | takes | isStarved => rfl

theorem Moved.lawful (h : Moved p w m) (hslot : p.slot.Lawful) : m.panel.slot.Lawful := by
  cases h with
  | passes => exact p.slot_pass.symm ▸ hslot
  | takes => exact p.lawful_takeSlot
  | isHeld | isInterrupted | goesOn | limited | drives | isStarved => exact hslot

theorem closed_of_limitReached (h : w.limitReached = true) : w.machine.phaseOpen = false := by
  simp only [limitReached, Machine.atBoundary, Bool.and_eq_true, Bool.not_eq_true'] at h
  exact h.1

end

end Worker

/-! ## What holds between two moves -/

/-- Where a worker may stand with its machine: whether a value that has been taken is in the
machine, and whether the machine waits for one. -/
def Point.Suits (m : Machine) : Point → Prop
  | .checkpoint | .held _ => m.input = none ∧ m.awaitsInput = false
  | .boundary | .ready => m.awaitsInput = m.input.isSome
  | .reading | .starved _ => m.input = none ∧ m.awaitsInput = true
  | .finished _ => m.input = none

namespace Worker

/-- What holds of a worker between two moves. -/
structure Sound (w : Worker) : Prop where
  wellFormed : w.machine.WellFormed
  running : w.isFinished = false → w.machine.status = .running
  /-- A phase that has begun has done a micro-step or waits for a value. -/
  begun : w.isFinished = false → w.machine.phaseOpen = true → w.machine.registers.sc = 0 →
    w.machine.awaitsInput = true
  suits : w.point.Suits w.machine

section
variable {p : Panel} {w : Worker} {m : Move}

theorem Sound.steer (h : w.Sound) (hbusy : w.isFinished = false) {q : Point}
    (hsuits : q.Suits w.machine) : ({ w with point := q } : Worker).Sound where
  wellFormed := h.wellFormed
  running := fun _ => h.running hbusy
  begun := fun _ => h.begun hbusy
  suits := hsuits

theorem Sound.idle (h : w.Sound) {woken : Bool}
    (hpoint : w.point = .checkpoint ∨ w.point = .held woken) :
    w.machine.input = none ∧ w.machine.awaitsInput = false := by
  have hsuits := h.suits
  obtain hp | hp := hpoint <;> rw [hp] at hsuits <;> exact hsuits

theorem Sound.answered (h : w.Sound) (hpoint : w.point = .boundary ∨ w.point = .ready) :
    w.machine.awaitsInput = w.machine.input.isSome := by
  have hsuits := h.suits
  obtain hp | hp := hpoint <;> rw [hp] at hsuits <;> exact hsuits

theorem Sound.waiting (h : w.Sound) {woken : Bool}
    (hpoint : w.point = .reading ∨ w.point = .starved woken) :
    w.machine.input = none ∧ w.machine.awaitsInput = true := by
  have hsuits := h.suits
  obtain hp | hp := hpoint <;> rw [hp] at hsuits <;> exact hsuits

/-- A value is waited for only inside a phase. -/
theorem Sound.open_of_awaits (h : w.Sound) (hbusy : w.isFinished = false)
    (hwish : w.machine.awaitsInput = true) : w.machine.phaseOpen = true :=
  (h.wellFormed.awaiting (h.running hbusy) hwish).2.2.1

theorem Sound.input_of_closed (h : w.Sound) (hbusy : w.isFinished = false)
    (hpoint : w.point = .boundary ∨ w.point = .ready) (hclosed : w.machine.phaseOpen = false) :
    w.machine.input = none := by
  cases hinput : w.machine.input with
  | none => rfl
  | some value =>
    have hwish := h.answered hpoint
    rw [hinput] at hwish
    rw [h.open_of_awaits hbusy hwish] at hclosed
    cases hclosed

/-- A worker that is ready does not begin to wait inside a phase. -/
theorem Sound.not_waits (h : w.Sound) (hpoint : w.point = .ready)
    (hopen : w.machine.phaseOpen = true) (hinput : w.machine.input = none) :
    w.machine.registers.sc ≠ 0 := by
  intro hsc
  have hwish := h.begun (by simp [isFinished, hpoint]) hopen hsc
  rw [h.answered (.inr hpoint), hinput] at hwish
  cases hwish

/-- The value in the hand of the worker is the one that is loaded next. -/
theorem Sound.supplied (h : w.Sound) {value : Nat} (hinput : w.machine.input = some value) :
    (w.point = .boundary ∨ w.point = .ready) ∧ w.machine.phaseOpen = true ∧
      loads w.machine.microStep.events = [value] ∧ w.machine.microStep.machine.input = none := by
  have hpoint : w.point = .boundary ∨ w.point = .ready := by
    have hsuits := h.suits
    cases hp : w.point with
    | boundary => exact .inl rfl
    | ready => exact .inr rfl
    | checkpoint | held | reading | starved =>
      rw [hp] at hsuits
      exact absurd (hinput.symm.trans hsuits.1) (by simp)
    | finished =>
      rw [hp] at hsuits
      exact absurd (hinput.symm.trans hsuits) (by simp)
  have hbusy : w.isFinished = false := by obtain hp | hp := hpoint <;> simp [isFinished, hp]
  have hwish : w.machine.awaitsInput = true := by
    rw [h.answered hpoint, hinput]
    rfl
  exact ⟨hpoint, h.open_of_awaits hbusy hwish,
    (Machine.microStep_of_supplied h.wellFormed (h.running hbusy) hwish hinput).2⟩

/-- A micro-step uses up a value that has been taken. -/
theorem Sound.uses (h : w.Sound) :
    w.machine.microStep.machine.input = none ∧
      loads w.machine.microStep.events = w.machine.input.toList := by
  cases hinput : w.machine.input with
  | none =>
    obtain ⟨hloads, hkept⟩ | ⟨value, hvalue, -⟩ := w.machine.loads_microStep
    · exact ⟨hkept.trans hinput, hloads⟩
    · rw [hinput] at hvalue
      cases hvalue
  | some value =>
    obtain ⟨-, -, hloads, hused⟩ := h.supplied hinput
    exact ⟨hused, hloads⟩

theorem Sound.drive (h : w.Sound) (hpoint : w.point = .ready) (p : Panel) :
    (w.drive p).worker.Sound := by
  have hrun := h.running (by simp [isFinished, hpoint])
  have hwell := (Machine.wellFormed_microStep h.wellFormed).1
  have hused := h.uses.1
  have hprogress := Machine.progressed_microStep h.wellFormed hrun
  unfold Worker.drive
  generalize w.machine.microStep = step at hwell hused hprogress
  obtain ⟨after, result, events, reports⟩ := step
  dsimp only at hwell hused hprogress ⊢
  cases hprogress with
  | counts hrun hwish hopen hsc hleft =>
    exact ⟨hwell, fun _ => hrun, fun _ _ hzero => absurd hzero hsc, hused, hwish⟩
  | closes hrun hwish hclosed =>
    exact ⟨hwell, fun _ => hrun, fun _ hopen => absurd (hopen.symm.trans hclosed) (by decide),
      hused, hwish⟩
  | waits hinput hsc hrun hwish hopen hleft =>
    exact ⟨hwell, fun _ => hrun, fun _ _ _ => hwish, hused, hwish⟩
  | halts | fails =>
    exact ⟨hwell, fun hbusy => Bool.noConfusion hbusy, fun hbusy => Bool.noConfusion hbusy, hused⟩

theorem Sound.take (h : w.Sound) (hpoint : w.point = .reading ∨ w.point = .starved true)
    (hbusy : w.isFinished = false) (value : Nat) :
    ({ w with machine := w.machine.supply value, point := .boundary } : Worker).Sound :=
  have hwish := (h.waiting hpoint).2
  ⟨Machine.wellFormed_supply h.wellFormed value, fun _ => h.running hbusy, fun _ _ _ => hwish,
    hwish⟩

theorem Sound.move (h : w.Sound) (hmove : w.move? p = some m) : m.worker.Sound := by
  have hmoved := moved_of_move? hmove
  have hbusy := hmoved.busy
  cases hmoved with
  | passes hpoint hmay =>
    obtain ⟨hinput, hwish⟩ := h.idle hpoint
    refine h.steer hbusy (q := .boundary) ?_
    change w.machine.awaitsInput = w.machine.input.isSome
    rw [hinput, hwish]
    rfl
  | isHeld hpoint hmay => exact h.steer hbusy (q := .held false) (h.idle hpoint)
  | isInterrupted hpoint hclosed hflag =>
    exact h.steer hbusy (q := .finished _) (h.input_of_closed hbusy (.inl hpoint) hclosed)
  | goesOn hpoint hmay => exact h.steer hbusy (q := .ready) (h.answered (.inl hpoint))
  | limited hpoint hlimit =>
    have hclosed := closed_of_limitReached hlimit
    exact h.steer hbusy (q := .finished _) (h.input_of_closed hbusy (.inr hpoint) hclosed)
  | drives hpoint hlimit => exact h.drive hpoint p
  | takes hpoint hslot => exact h.take hpoint hbusy _
  | isStarved hpoint hslot => exact h.steer hbusy (q := .starved false) (h.waiting hpoint)

end

/-- A worker that may have been woken. -/
inductive Woken (w : Worker) : Worker → Prop
  | not : Woken w w
  | held {woken : Bool} (hpoint : w.point = .held woken) : Woken w { w with point := .held true }
  | starved {woken : Bool} (hpoint : w.point = .starved woken) :
    Woken w { w with point := .starved true }

theorem woken_wakeHeld (w : Worker) : w.Woken w.wakeHeld := by
  unfold wakeHeld
  split
  next hpoint => exact .held hpoint
  next => exact .not

theorem woken_wakeStarved (w : Worker) : w.Woken w.wakeStarved := by
  unfold wakeStarved
  split
  next hpoint => exact .starved hpoint
  next => exact .not

theorem Woken.machine {w w' : Worker} (h : w.Woken w') : w'.machine = w.machine := by
  cases h <;> rfl

theorem Woken.sound {w w' : Worker} (h : w.Woken w') (hsound : w.Sound) : w'.Sound := by
  have hsuits := hsound.suits
  cases h with
  | not => exact hsound
  | held hpoint =>
    rw [hpoint] at hsuits
    exact hsound.steer (by simp [isFinished, hpoint]) (q := .held true) hsuits
  | starved hpoint =>
    rw [hpoint] at hsuits
    exact hsound.steer (by simp [isFinished, hpoint]) (q := .starved true) hsuits

end Worker

end TrnComputer
