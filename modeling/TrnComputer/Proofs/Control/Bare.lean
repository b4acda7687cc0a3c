import TrnComputer.Control.Worker

/-! # Machines on their own

A machine that nobody steers does one micro-step after the other. Whenever it waits for input, it
is given the next of some answers.

* `Bare`, `bare`: such a machine after so many micro-steps.
* `bare_extend`, `bare_extend_of_awaits`: an answer that is added shows only when all others are
  used up.
* `Bare.verdict`: how a run that has come so far ends, if it does.
-/

namespace TrnComputer
set_option autoImplicit false

/-- A machine on its own: the answers that it has not been given, the events so far and the result
of the last micro-step. -/
structure Bare where
  machine : Machine
  answers : List Nat
  events : List Event := []
  result : Except MachineError Tick := .ok .proceeds

namespace Bare

/-- One more micro-step, and an answer if the machine waits for one. -/
def next (b : Bare) : Bare :=
  let step := b.machine.microStep
  match step.result, b.answers with
  | .ok .awaitsInput, value :: rest =>
    ⟨step.machine.supply value, rest, b.events ++ step.events, .ok .proceeds⟩
  | result, answers => ⟨step.machine, answers, b.events ++ step.events, result⟩

def extend (b : Bare) (value : Nat) : Bare := { b with answers := b.answers ++ [value] }

/-- How a run that has come so far ends, if it does. -/
def verdict (limit : Option Nat) (b : Bare) : Option (Except MachineError Termination) :=
  match b.result with
  | .error e => some (.error e)
  | .ok .halted => some (.ok .halted)
  | .ok .awaitsInput => none
  | .ok .proceeds =>
    if b.machine.atBoundary && limit.any (· ≤ b.machine.registers.clock) then
      some (.ok .cycleLimit)
    else none

theorem next_of_proceeds {b : Bare} (h : b.machine.microStep.result = .ok .proceeds) :
    b.next = ⟨b.machine.microStep.machine, b.answers, b.events ++ b.machine.microStep.events,
      .ok .proceeds⟩ := by
  unfold next
  simp only [h]

theorem next_of_nil {b : Bare} (h : b.answers = []) :
    b.next = ⟨b.machine.microStep.machine, [], b.events ++ b.machine.microStep.events,
      b.machine.microStep.result⟩ := by
  unfold next
  simp only [h]
  split
  · next heq => cases heq
  · rfl

theorem next_of_answer {b : Bare} {value : Nat} {rest : List Nat}
    (h : b.machine.microStep.result = .ok .awaitsInput) (hanswers : b.answers = value :: rest) :
    b.next = ⟨b.machine.microStep.machine.supply value, rest,
      b.events ++ b.machine.microStep.events, .ok .proceeds⟩ := by
  unfold next
  simp only [h, hanswers]

theorem next_extend {b : Bare} (h : b.next.result = .ok .proceeds) (value : Nat) :
    (b.extend value).next = b.next.extend value := by
  have hmachine : (b.extend value).machine = b.machine := rfl
  cases hresult : b.machine.microStep.result with
  | error e =>
    simp [next, hresult] at h
  | ok tick =>
    cases tick with
    | halted => simp [next, hresult] at h
    | proceeds =>
      rw [next_of_proceeds hresult, next_of_proceeds (by rw [hmachine, hresult])]
      rfl
    | awaitsInput =>
      cases hanswers : b.answers with
      | nil =>
        rw [next_of_nil hanswers, hresult] at h
        cases h
      | cons first rest =>
        have hmore : (b.extend value).answers = first :: (rest ++ [value]) := by
          simp [extend, hanswers]
        rw [next_of_answer hresult hanswers, next_of_answer (by rw [hmachine, hresult]) hmore]
        rfl

theorem next_extend_of_awaits {b : Bare} (h : b.next.result = .ok .awaitsInput) (value : Nat) :
    (b.extend value).next =
      { b.next with machine := b.next.machine.supply value, result := .ok .proceeds } := by
  have hmachine : (b.extend value).machine = b.machine := rfl
  cases hanswers : b.answers with
  | nil =>
    have hmore : (b.extend value).answers = [value] := by simp [extend, hanswers]
    have hresult : b.machine.microStep.result = .ok .awaitsInput := by
      rw [next_of_nil hanswers] at h
      exact h
    rw [next_of_nil hanswers, next_of_answer (by rw [hmachine, hresult]) hmore]
    rfl
  | cons first rest =>
    exfalso
    cases hresult : b.machine.microStep.result with
    | error e => simp [next, hresult] at h
    | ok tick =>
      cases tick with
      | halted | proceeds => simp [next, hresult] at h
      | awaitsInput =>
        rw [next_of_answer hresult hanswers] at h
        cases h

end Bare

/-- A machine on its own after so many micro-steps. -/
def bare (memory : Memory) (answers : List Nat) : Nat → Bare
  | 0 => { machine := .ofMemory memory, answers }
  | n + 1 => (bare memory answers n).next

section
variable {memory : Memory} {answers : List Nat} {n : Nat}

theorem bare_extend (h : ∀ k ≤ n, (bare memory answers k).result = .ok .proceeds) (value : Nat) :
    bare memory (answers ++ [value]) n = (bare memory answers n).extend value := by
  induction n with
  | zero => rfl
  | succ n ih =>
    have hbefore := ih (fun k hk => h k (by omega))
    change (bare memory (answers ++ [value]) n).next = _
    rw [hbefore]
    exact Bare.next_extend (h (n + 1) (Nat.le_refl _)) value

theorem bare_extend_of_awaits (h : ∀ k < n, (bare memory answers k).result = .ok .proceeds)
    (hawaits : (bare memory answers n).result = .ok .awaitsInput) (value : Nat) :
    bare memory (answers ++ [value]) n =
      { bare memory answers n with
        machine := (bare memory answers n).machine.supply value
        result := .ok .proceeds } := by
  cases n with
  | zero => cases hawaits
  | succ n =>
    change (bare memory (answers ++ [value]) n).next = _
    rw [bare_extend (fun k hk => h k (by omega))]
    exact Bare.next_extend_of_awaits hawaits value

end

end TrnComputer
