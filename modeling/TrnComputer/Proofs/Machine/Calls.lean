import TrnComputer.Proofs.Machine.Progress

/-! # Calls

A machine is driven by calls. Between them it may be given values, set back or loaded anew.

* `Call`, `Machine.answer`: the calls that drive a machine, and what comes of them.
* `Errand`, `Demand`: calls and values, and whatever else can be asked of a machine.
* `answer_of_standstill`: inside a phase every call to a machine that cannot proceed does the one
  micro-step that tells so.
* `Machine.Driven`: what holds between calls; a machine stops only inside a phase.
* `stopped_stays`: a machine that has stopped stays as it is until it is set back or loaded.
-/

namespace TrnComputer
set_option autoImplicit false

/-! ## What can be asked -/

/-- A call that drives a machine. A run goes on until the machine stops or waits; here it is
followed for one micro-step and `more`. -/
inductive Call
  | microStep
  | stepPhase
  | stepInstruction
  | run (more : Nat)
  | runLimited (phases : Nat)

/-- A call, or a value for the next input. -/
inductive Errand
  | call (call : Call)
  | supply (value : Nat)

/-- Anything that can be asked of a machine. -/
inductive Demand
  | errand (errand : Errand)
  | reset
  | load (memory : Memory)

namespace Machine

def answer (m : Machine) : Call → Activity
  | .microStep => m.microStep
  | .stepPhase => m.stepPhase
  | .stepInstruction => m.stepInstruction
  | .run more => m.run (more + 1)
  | .runLimited phases => m.runLimited phases

def attend (m : Machine) : Errand → Machine
  | .call call => (m.answer call).machine
  | .supply value => m.supply value

def attendAll (m : Machine) (errands : List Errand) : Machine := errands.foldl attend m

def meet (m : Machine) : Demand → Machine
  | .errand errand => m.attend errand
  | .reset => m.reset
  | .load memory => { m with memory }.reset

def meetAll (m : Machine) (demands : List Demand) : Machine := demands.foldl meet m

/-! ## Standstill -/

section
variable {m : Machine}

/-- Inside a phase no limit is looked at, and a micro-step that does not proceed ends the call. -/
theorem answer_of_standstill (hopen : m.phaseOpen = true)
    (hstill : m.microStep.result ≠ .ok .proceeds) (call : Call) :
    m.answer call = m.microStep := by
  have hrun (done : Machine → Bool) (fuel : Nat) : m.runUntil done (fuel + 1) = m.microStep :=
    runUntil_of_stop fuel fun hproceeds => absurd hproceeds hstill
  cases call with
  | microStep => rfl
  | stepPhase | stepInstruction | run more => exact hrun _ _
  | runLimited phases =>
    have hreached : m.reached (m.registers.clock + phases) = false := by
      simp [reached, atBoundary, hopen]
    simp only [answer, runLimited, hreached, Bool.false_eq_true, if_false]
    exact hrun _ _

theorem answer_of_stopped (hopen : m.phaseOpen = true) (hstopped : m.status ≠ .running)
    (call : Call) : m.answer call = ⟨m, .error (.notRunning m.status), [], []⟩ := by
  have hstep := microStep_of_not_running hstopped
  rw [answer_of_standstill hopen (by simp [hstep]) call, hstep]

/-! ## Between calls -/

/-- What every micro-step keeps, every call keeps. -/
theorem answer_keeps {P : Machine → Prop} (hstep : ∀ m, P m → P m.microStep.machine) (h : P m)
    (call : Call) : P (m.answer call).machine := by
  cases call with
  | microStep => exact hstep m h
  | stepPhase | stepInstruction | run more => exact runUntil_keeps hstep _ _ h
  | runLimited phases =>
    simp only [answer, runLimited]
    split
    · exact h
    · exact runUntil_keeps hstep _ _ h

/-- What every micro-step and every value keep holds whatever is asked, if it holds of a machine
that has just been set up. -/
theorem meetAll_keeps {P : Machine → Prop} (hstep : ∀ n, P n → P n.microStep.machine)
    (hsupply : ∀ n value, P n → P (n.supply value)) (hfresh : ∀ memory, P (ofMemory memory))
    (h : P m) (demands : List Demand) : P (m.meetAll demands) := by
  refine List.foldlRecOn demands meet h fun n hn demand _ => ?_
  cases demand with
  | errand errand =>
    cases errand with
    | call call => exact answer_keeps hstep hn call
    | supply value => exact hsupply n value hn
  | reset | load memory => exact hfresh _

/-- What holds of a machine between calls. It stops for an instruction or a fault, and both leave
the phase open. -/
structure Driven (m : Machine) : Prop where
  wellFormed : m.WellFormed
  inside : m.status ≠ .running → m.phaseOpen = true

theorem Driven.microStep (h : m.Driven) : m.microStep.machine.Driven where
  wellFormed := (wellFormed_microStep h.wellFormed).1
  inside := by
    by_cases hrun : m.status = .running
    · have hprogressed := progressed_microStep h.wellFormed hrun
      generalize m.microStep.result = result at hprogressed
      cases hprogressed with
      | counts hnext | closes hnext | waits _ _ hnext => exact fun hstopped => absurd hnext hstopped
      | halts _ hopen | fails _ _ hopen => exact fun _ => hopen
    · rw [microStep_of_not_running hrun]
      exact h.inside

theorem driven_ofMemory (memory : Memory) : (ofMemory memory).Driven :=
  ⟨wellFormed_ofMemory memory, fun hstopped => absurd rfl hstopped⟩

theorem Driven.meetAll (h : m.Driven) (demands : List Demand) : (m.meetAll demands).Driven :=
  meetAll_keeps (fun _ => Driven.microStep)
    (fun _ value hn => ⟨wellFormed_supply hn.wellFormed value, hn.inside⟩) driven_ofMemory h demands

/-! ## Machines that have stopped -/

theorem attendAll_of_stopped (hopen : m.phaseOpen = true) (hstopped : m.status ≠ .running)
    (errands : List Errand) :
    m.attendAll errands = { m with input := (m.attendAll errands).input } := by
  induction errands generalizing m with
  | nil => rfl
  | cons errand rest ih =>
    have hfirst : m.attendAll (errand :: rest) = (m.attend errand).attendAll rest := rfl
    rw [hfirst]
    cases errand with
    | call call =>
      have hsame : m.attend (.call call) = m :=
        congrArg Activity.machine (answer_of_stopped hopen hstopped call)
      rw [hsame]
      exact ih hopen hstopped
    | supply value => exact ih (m := m.supply value) hopen hstopped

end

/-- A machine that has stopped stays as it is. Whatever has been done with it, and whatever is done
until it is set back or loaded, nothing changes but the value supplied for an input, and every call
fails because the machine is not running, without an event or a report. So does a limited run whose
limit is reached. -/
theorem stopped_stays {memory : Memory} {demands : List Demand} {m : Machine}
    (hm : (ofMemory memory).meetAll demands = m) (hstopped : m.status ≠ .running)
    (errands : List Errand) :
    m.attendAll errands = { m with input := (m.attendAll errands).input } ∧
      ∀ call, (m.attendAll errands).answer call =
        ⟨m.attendAll errands, .error (.notRunning m.status), [], []⟩ := by
  have hopen : m.phaseOpen = true := by
    have hdriven := (driven_ofMemory memory).meetAll demands
    rw [hm] at hdriven
    exact hdriven.inside hstopped
  have hsame := attendAll_of_stopped hopen hstopped errands
  refine ⟨hsame, fun call => ?_⟩
  have hstatus : (m.attendAll errands).status = m.status := by rw [hsame]
  have hinside : (m.attendAll errands).phaseOpen = true := by rw [hsame]; exact hopen
  rw [← hstatus]
  exact answer_of_stopped hinside (hstatus ▸ hstopped) call

/-- A program that jumps to a cell that does not exist. After the fault a limited run of no phases
does not go on, though its limit is reached. -/
theorem stopped_stays_fault :
    let m := (ofMemory (.ofList [13 * 2 ^ 15 + 5])).meetAll
      [.errand (.call (.run 20)), .errand (.supply 3)]
    m.status = .faulted ∧
      m.attendAll [.call (.runLimited 0), .supply 4] = { m with input := some 4 } ∧
      (m.attendAll [.call (.runLimited 0), .supply 4]).answer (.runLimited 0) =
        ⟨{ m with input := some 4 }, .error (.notRunning .faulted), [], []⟩ := by
  intro m
  have hstatus : m.status = .faulted := by decide
  obtain ⟨hsame, hcalls⟩ := stopped_stays (m := m) rfl (by rw [hstatus]; decide)
    [.call (.runLimited 0), .supply 4]
  have hinput : (m.attendAll [.call (.runLimited 0), .supply 4]).input = some 4 := rfl
  rw [hinput] at hsame
  refine ⟨hstatus, hsame, ?_⟩
  rw [hcalls, hsame, hstatus]

end Machine

end TrnComputer
