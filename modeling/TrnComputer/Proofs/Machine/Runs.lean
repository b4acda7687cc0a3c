import TrnComputer.Machine.Run

/-! # Runs of micro-steps

* `runUntil_of_stop`, `runUntil_of_proceeds`: a run is its first micro-step, or that and the run
  after it.
* `goesOn_or_ends`: which of the two it is.
* `runUntil_keeps`: what every micro-step keeps, every run keeps.
-/

namespace TrnComputer
set_option autoImplicit false

/-- An activity after some events and reports. -/
def Activity.after (earlier later : Activity) : Activity :=
  { later with
    events := earlier.events ++ later.events
    reports := earlier.reports ++ later.reports }

namespace Machine

theorem goOn_eq (done : Machine → Bool) (events : List Event) (reports : List MachineReport)
    (fuel : Nat) (m : Machine) :
    goOn done events reports fuel m =
      ⟨(goOn done [] [] fuel m).machine, (goOn done [] [] fuel m).result,
        (goOn done [] [] fuel m).events ++ events,
        (goOn done [] [] fuel m).reports ++ reports⟩ := by
  induction fuel generalizing events reports m with
  | zero => rfl
  | succ fuel ih =>
    simp only [goOn]
    obtain ⟨machine, result, now, told⟩ := m.microStep
    match result with
    | .error e => simp
    | .ok .awaitsInput => simp
    | .ok .halted => simp
    | .ok .proceeds =>
      by_cases hdone : done machine = true
      · simp [hdone]
      · simp only [hdone, Bool.false_eq_true, if_false]
        rw [ih (now.reverse ++ events) (told.reverse ++ reports),
          ih (now.reverse ++ []) (told.reverse ++ [])]
        simp

theorem runUntil_of_stop {done : Machine → Bool} (fuel : Nat) {m : Machine}
    (h : m.microStep.result = .ok .proceeds → done m.microStep.machine = true) :
    m.runUntil done (fuel + 1) = m.microStep := by
  simp only [runUntil, goOn]
  generalize m.microStep = act at h ⊢
  obtain ⟨machine, result, now, told⟩ := act
  match result with
  | .error e => simp
  | .ok .awaitsInput => simp
  | .ok .halted => simp
  | .ok .proceeds => simp [show done machine = true from h rfl]

theorem runUntil_of_proceeds {done : Machine → Bool} (fuel : Nat) {m : Machine}
    (h : m.microStep.result = .ok .proceeds) (hdone : done m.microStep.machine = false) :
    m.runUntil done (fuel + 1) =
      m.microStep.after (m.microStep.machine.runUntil done fuel) := by
  simp only [runUntil, goOn]
  generalize m.microStep = act at h hdone ⊢
  obtain ⟨machine, result, now, told⟩ := act
  simp only at h hdone
  simp only [h, hdone, Bool.false_eq_true, if_false]
  rw [goOn_eq]
  simp [Activity.after]

/-- A micro-step leads on, or a run ends with it. -/
theorem goesOn_or_ends (done : Machine → Bool) (m : Machine) :
    (m.microStep.result = .ok .proceeds ∧ done m.microStep.machine = false) ∨
      (m.microStep.result = .ok .proceeds → done m.microStep.machine = true) := by
  cases hdone : done m.microStep.machine with
  | true => exact .inr fun _ => rfl
  | false =>
    by_cases hproceeds : m.microStep.result = .ok .proceeds
    · exact .inl ⟨hproceeds, rfl⟩
    · exact .inr fun hgo => absurd hgo hproceeds

/-- What every micro-step keeps, every run keeps. -/
theorem runUntil_keeps {P : Machine → Prop} (hstep : ∀ m, P m → P m.microStep.machine)
    (done : Machine → Bool) (fuel : Nat) {m : Machine} (h : P m) :
    P (m.runUntil done fuel).machine := by
  induction fuel generalizing m with
  | zero => exact h
  | succ fuel ih =>
    obtain hgo | hlast := goesOn_or_ends done m
    · rw [runUntil_of_proceeds fuel hgo.1 hgo.2]
      exact ih (hstep m h)
    · rw [runUntil_of_stop fuel hlast]
      exact hstep m h

end Machine

end TrnComputer
