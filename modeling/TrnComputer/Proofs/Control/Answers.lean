import TrnComputer.Proofs.Control.Transparency
import TrnComputer.Proofs.Machine.Timing

/-! # Machines on their own and their answers

A machine on its own is given its answers in their order, and asks once for each. When they are used
up it waits for good.

* `Machine.request_microStep`: a micro-step asks for a value if it comes to wait, and only then.
* `bare_ledger`: what has been loaded, what is in the machine and what is left are the answers.
* `status_bare`, `Ends.faulted_iff`: how a machine on its own has come to its end.
* `Starves`: the machine waits when all answers are used up; `Starves.closes`: with one more answer
  it comes to a boundary in two micro-steps.
-/

namespace TrnComputer
set_option autoImplicit false

/-! ## Requests -/

namespace Machine
variable {m : Machine}

/-- A micro-step of a machine that has not waited asks for a value if it comes to wait, after it may
have begun a phase, and only then. -/
theorem request_microStep (h : m.waits = false) :
    (m.microStep.result = .ok .awaitsInput →
      m.microStep.events = m.openPhase.2 ++ [.inputRequested]) ∧
    (m.microStep.result ≠ .ok .awaitsInput → .inputRequested ∉ m.microStep.events) := by
  constructor
  · intro hwaits
    obtain ⟨hrun, hasks, hinput⟩ := asks_of_awaits hwaits
    have hwish : m.awaitsInput = false := by simpa [waits, hinput] using h
    rw [microStep_of_asks_none hrun hasks hinput, if_neg (by simp [hwish])]
  · intro hgoes
    rw [← List.count_eq_zero]
    change requests m.microStep.events = 0
    by_cases htakes : m.status = .running ∧ m.Asks
    · obtain ⟨hrun, hasks⟩ := htakes
      cases hinput : m.input with
      | none => simp [microStep_of_asks_none hrun hasks hinput] at hgoes
      | some value =>
        rw [microStep_of_asks_some hrun hasks hinput, requests_append, requests_openPhase]
        simp [requests, loadedEvents, movedEvents]
    · by_cases hrun : m.status = .running
      · exact requests_of_inner (inner_microStep fun hasks => htakes ⟨hrun, hasks⟩)
      · rw [microStep_of_not_running hrun]
        rfl

/-- An instruction that waits and gets a value is over after two micro-steps, in the same phase. The
first of them loads the value. -/
theorem Waiting.finishes (h : m.Waiting) (value : Nat) :
    let first := (m.supply value).microStep
    let second := first.machine.microStep
    first.result = .ok .proceeds ∧ first.machine.phaseOpen = true ∧
      second.result = .ok .proceeds ∧ second.machine.atBoundary = true ∧
      second.machine.registers.clock = m.registers.clock ∧
      loads first.events = [value % 2 ^ 20] ∧ loads second.events = [] := by
  intro first second
  have hload : first = _ := microStep_of_asks_some (m := m.supply value) h.running h.asks rfl
  obtain ⟨hresult, hat, -⟩ :=
    microStep_loaded (m := m.supply value) h.running h.asks (Word.significant value)
  have hmachine : first.machine = (m.supply value).loaded (Word.significant value) := by rw [hload]
  have hopen : first.machine.phaseOpen = true := by
    rw [hmachine]
    exact phaseOpen_opened _
  have hrun : first.machine.status = .running := by
    rw [hmachine]
    exact (status_opened _).trans h.running
  refine ⟨by rw [hload], hopen, ?_, ?_, ?_, ?_, ?_⟩
  · change first.machine.microStep.result = _
    rw [hmachine]
    exact hresult
  · change first.machine.microStep.machine.atBoundary = true
    rw [hmachine]
    exact (Bool.and_eq_true_iff.1 hat).1
  · change first.machine.microStep.machine.registers.clock = _
    have hinside : (m.supply value).phaseOpen = true := h.inside
    rw [clock_microStep hrun, if_pos hopen]
    change (m.supply value).microStep.machine.registers.clock = _
    rw [clock_microStep (m := m.supply value) h.running, if_pos hinside]
    rfl
  · have hword : Word.significant value % 2 ^ 20 = value % 2 ^ 20 := Nat.mod_mod _ _
    rw [hload, loads_append, loads_openPhase, ← hword]
    rfl
  · have hnone : first.machine.input = none := by rw [hmachine]; rfl
    obtain ⟨hquiet, -⟩ | ⟨held, hsome, -⟩ := first.machine.loads_microStep
    · exact hquiet
    · cases hnone.symm.trans hsome

end Machine

/-! ## Answers -/

/-- The next state of a machine on its own: an answer is given, or the micro-step stands alone. -/
theorem Bare.next_cases (b : Bare) :
    (∃ value rest, b.machine.microStep.result = .ok .awaitsInput ∧ b.answers = value :: rest ∧
      b.next = ⟨b.machine.microStep.machine.supply value, rest,
        b.events ++ b.machine.microStep.events, .ok .proceeds⟩) ∨
    ((b.machine.microStep.result = .ok .awaitsInput → b.answers = []) ∧
      b.next = ⟨b.machine.microStep.machine, b.answers,
        b.events ++ b.machine.microStep.events, b.machine.microStep.result⟩) := by
  by_cases hwaits : b.machine.microStep.result = .ok .awaitsInput
  · cases hanswers : b.answers with
    | cons value rest => exact .inl ⟨value, rest, hwaits, rfl, next_of_answer hwaits hanswers⟩
    | nil => exact .inr ⟨fun _ => rfl, next_of_nil hanswers⟩
  · refine .inr ⟨fun h => absurd h hwaits, ?_⟩
    simp only [next]
    split
    · next hresult _ => exact absurd hresult hwaits
    · rfl

section
variable {memory : Memory} {answers : List Nat}

theorem wellFormed_bare (memory : Memory) (answers : List Nat) (n : Nat) :
    (bare memory answers n).machine.WellFormed := by
  induction n with
  | zero => exact Machine.wellFormed_ofMemory memory
  | succ n ih =>
    change (bare memory answers n).next.machine.WellFormed
    obtain ⟨value, rest, -, -, hnext⟩ | ⟨-, hnext⟩ := (bare memory answers n).next_cases
    · rw [hnext]
      exact Machine.wellFormed_supply (Machine.wellFormed_microStep ih).1 value
    · rw [hnext]
      exact (Machine.wellFormed_microStep ih).1

/-- A machine that goes on does not wait. -/
theorem waits_bare (n : Nat) (h : (bare memory answers n).result = .ok .proceeds) :
    (bare memory answers n).machine.waits = false := by
  cases n with
  | zero => rfl
  | succ n =>
    change (bare memory answers n).next.result = _ at h
    change (bare memory answers n).next.machine.waits = false
    obtain ⟨value, rest, -, -, hnext⟩ | ⟨-, hnext⟩ := (bare memory answers n).next_cases
    · rw [hnext]
      simp [Machine.waits, Machine.supply]
    · rw [hnext] at h ⊢
      exact (Machine.requests_of_proceeds (wellFormed_bare memory answers n) h).2.2

/-- The status of a machine on its own is told by the last result. -/
theorem status_bare (n : Nat) (h : ∀ k < n, (bare memory answers k).result = .ok .proceeds) :
    (bare memory answers n).machine.status =
      match (bare memory answers n).result with
      | .ok .proceeds | .ok .awaitsInput => .running
      | .ok .halted => .halted
      | .error _ => .faulted := by
  induction n with
  | zero => rfl
  | succ n ih =>
    have hrun := ih fun k hk => h k (Nat.lt_succ_of_lt hk)
    rw [h n (Nat.lt_succ_self n)] at hrun
    change (bare memory answers n).next.machine.status =
      match (bare memory answers n).next.result with
      | .ok .proceeds | .ok .awaitsInput => .running
      | .ok .halted => .halted
      | .error _ => .faulted
    obtain ⟨value, rest, hawaits, -, hnext⟩ | ⟨-, hnext⟩ := (bare memory answers n).next_cases
    · rw [hnext]
      exact (Machine.waiting_of_awaits hawaits).1.running
    · rw [hnext]
      exact Machine.status_microStep (wellFormed_bare memory answers n) hrun

/-- What has been loaded, what is in the machine and what is left are the answers. -/
theorem bare_ledger (memory : Memory) (hwords : ∀ value ∈ answers, value < 2 ^ 20) (n : Nat) :
    loads (bare memory answers n).events ++ (bare memory answers n).machine.input.toList ++
      (bare memory answers n).answers = answers := by
  induction n with
  | zero => rfl
  | succ n ih =>
    change loads (bare memory answers n).next.events ++
      (bare memory answers n).next.machine.input.toList ++ (bare memory answers n).next.answers = _
    have hheld := (wellFormed_bare memory answers n).input
    generalize bare memory answers n = b at ih hheld ⊢
    obtain ⟨value, rest, hwaits, hanswers, hnext⟩ | ⟨-, hnext⟩ := b.next_cases
    · obtain ⟨-, -, hinput⟩ := Machine.asks_of_awaits hwaits
      have hloads : loads b.machine.microStep.events = [] := by
        obtain ⟨hnone, -⟩ | ⟨held, hsome, -⟩ := b.machine.loads_microStep
        · exact hnone
        · simp [hinput] at hsome
      have hword : value < 2 ^ 20 := hwords value (by rw [← ih, hanswers]; simp)
      have hkept : Word.significant value = value := Nat.mod_eq_of_lt hword
      rw [hnext, ← ih, hanswers, hinput]
      simp [hloads, Machine.supply, hkept]
    · rw [hnext, ← ih, loads_append]
      obtain ⟨hnone, hkept⟩ | ⟨held, hsome, hloads, hnone⟩ := b.machine.loads_microStep
      · rw [hnone, hkept, List.append_nil]
      · have hkept : held % 2 ^ 20 = held := Nat.mod_eq_of_lt (hheld held hsome)
        rw [hloads, hnone, hsome, hkept]
        simp

/-- A machine that does not go on has come to this by its last micro-step. It waits for good only if
no answer is left. -/
theorem bare_stopped {n : Nat} (h : (bare memory answers n).result ≠ .ok .proceeds) :
    ∃ k, n = k + 1 ∧
      ((bare memory answers k).machine.microStep.result = .ok .awaitsInput →
        (bare memory answers k).answers = []) ∧
      bare memory answers n =
        ⟨(bare memory answers k).machine.microStep.machine, (bare memory answers k).answers,
          (bare memory answers k).events ++ (bare memory answers k).machine.microStep.events,
          (bare memory answers k).machine.microStep.result⟩ := by
  cases n with
  | zero => exact absurd rfl h
  | succ k =>
    obtain ⟨value, rest, -, -, hnext⟩ | ⟨hanswers, hnext⟩ := (bare memory answers k).next_cases
    · exact absurd (congrArg Bare.result hnext) h
    · exact ⟨k, rfl, hanswers, hnext⟩

end

/-! ## Endings -/

/-- A run ends at the limit, because the machine halts, or because it fails. -/
theorem Bare.verdict_cases {b : Bare} {limit : Option Nat} {r : Except MachineError Termination}
    (h : b.verdict limit = some r) :
    (b.result = .ok .proceeds ∧
      (b.machine.atBoundary && limit.any (· ≤ b.machine.registers.clock)) = true ∧
      r = .ok .cycleLimit) ∨
    (b.result = .ok .halted ∧ r = .ok .halted) ∨ ∃ e, b.result = .error e ∧ r = .error e := by
  unfold verdict at h
  cases hresult : b.result with
  | error e =>
    simp only [hresult, Option.some.injEq] at h
    exact .inr (.inr ⟨e, rfl, h.symm⟩)
  | ok tick =>
    cases tick with
    | awaitsInput => simp [hresult] at h
    | halted =>
      simp only [hresult, Option.some.injEq] at h
      exact .inr (.inl ⟨rfl, h.symm⟩)
    | proceeds =>
      simp only [hresult] at h
      split at h
      · next hreached => exact .inl ⟨rfl, hreached, (Option.some.inj h).symm⟩
      · cases h

namespace Ends
variable {memory : Memory} {limit : Option Nat} {answers : List Nat} {n : Nat}
  {r : Except MachineError Termination}

/-- A run ends with an error just when the machine has failed. -/
theorem faulted_iff (h : Ends memory limit answers n r) :
    (bare memory answers n).machine.status = .faulted ↔ ∃ e, r = .error e := by
  have hstatus := status_bare n fun k hk => (h.before k hk).1
  obtain ⟨hresult, -, rfl⟩ | ⟨hresult, rfl⟩ | ⟨e, hresult, rfl⟩ := Bare.verdict_cases h.verdict
  all_goals
    rw [hresult] at hstatus
    simp [hstatus]

end Ends

/-! ## Starving -/

/-- When all answers are used up, the machine on its own waits, before the limit is reached. -/
structure Starves (memory : Memory) (limit : Option Nat) (answers : List Nat) (n : Nat) : Prop where
  awaits : (bare memory answers n).result = .ok .awaitsInput
  before : ∀ k < n, (bare memory answers k).result = .ok .proceeds ∧
    (bare memory answers k).verdict limit = none

namespace Starves
variable {memory : Memory} {limit : Option Nat} {answers : List Nat} {n : Nat}

theorem waiting (h : Starves memory limit answers n) :
    (bare memory answers n).machine.Waiting ∧ (bare memory answers n).answers = [] := by
  have hstopped : (bare memory answers n).result ≠ .ok .proceeds := by simp [h.awaits]
  obtain ⟨k, rfl, hanswers, hlast⟩ := bare_stopped hstopped
  have hawaits := h.awaits
  rw [hlast] at hawaits ⊢
  exact ⟨(Machine.waiting_of_awaits hawaits).1, hanswers hawaits⟩

/-- A machine that runs out of answers does not end. -/
theorem not_ends (h : Starves memory limit answers n) {k : Nat}
    {r : Except MachineError Termination} : ¬Ends memory limit answers k r := fun hends => by
  have hverdict := hends.verdict
  obtain hlt | rfl | hgt := Nat.lt_trichotomy k n
  · cases hverdict.symm.trans (h.before k hlt).2
  · rw [Bare.verdict, h.awaits] at hverdict
    cases hverdict
  · cases h.awaits.symm.trans (hends.before n hgt).1

/-- With one more answer the machine goes on. -/
theorem given (h : Starves memory limit answers n) (value : Nat) :
    let supplied := (bare memory answers n).machine.supply value
    let first := supplied.microStep
    bare memory (answers ++ [value]) n =
        ⟨supplied, [], (bare memory answers n).events, .ok .proceeds⟩ ∧
      bare memory (answers ++ [value]) (n + 1) =
        ⟨first.machine, [], (bare memory answers n).events ++ first.events, .ok .proceeds⟩ ∧
      bare memory (answers ++ [value]) (n + 2) =
        ⟨first.machine.microStep.machine, [],
          (bare memory answers n).events ++ first.events ++ first.machine.microStep.events,
          .ok .proceeds⟩ := by
  intro supplied first
  obtain ⟨hwaiting, hanswers⟩ := h.waiting
  obtain ⟨hfirst, -, hsecond, -⟩ := hwaiting.finishes value
  have hgiven : bare memory (answers ++ [value]) n =
      ⟨supplied, [], (bare memory answers n).events, .ok .proceeds⟩ := by
    rw [bare_extend_of_awaits (fun k hk => (h.before k hk).1) h.awaits value, ← hanswers]
  have hloaded : bare memory (answers ++ [value]) (n + 1) =
      ⟨first.machine, [], (bare memory answers n).events ++ first.events, .ok .proceeds⟩ := by
    change (bare memory (answers ++ [value]) n).next = _
    rw [hgiven]
    exact Bare.next_of_proceeds hfirst
  refine ⟨hgiven, hloaded, ?_⟩
  change (bare memory (answers ++ [value]) (n + 1)).next = _
  rw [hloaded]
  exact Bare.next_of_proceeds hsecond

/-- The answer is loaded, and the machine comes to a boundary in the phase that has waited. -/
theorem closes (h : Starves memory limit answers n) (hwords : ∀ value ∈ answers, value < 2 ^ 20)
    (value : Nat) (hvalue : value < 2 ^ 20) :
    let last := bare memory (answers ++ [value]) (n + 2)
    loads last.events = answers ++ [value] ∧ last.machine.status = .running ∧
      (∀ k < 2, (bare memory (answers ++ [value]) (n + k)).machine.atBoundary = false) ∧
      last.machine.atBoundary = true ∧
      last.machine.registers.clock = (bare memory answers n).machine.registers.clock := by
  intro last
  obtain ⟨hwaiting, hanswers⟩ := h.waiting
  obtain ⟨-, hopen, -, hat, hclock, hloads, hquiet⟩ := hwaiting.finishes value
  obtain ⟨hgiven, hloaded, hlast⟩ := h.given value
  have hempty : (bare memory answers n).machine.input = none := by
    simpa using (Bool.and_eq_true_iff.1 hwaiting.waits).2
  have hbefore := bare_ledger memory hwords n
  rw [hanswers, hempty, Option.toList_none, List.append_nil, List.append_nil] at hbefore
  have hgoes : ∀ k < n + 2, (bare memory (answers ++ [value]) k).result = .ok .proceeds := by
    intro k hk
    obtain hlt | rfl | rfl : k < n ∨ k = n ∨ k = n + 1 := by omega
    · rw [bare_extend fun j hj => (h.before j (Nat.lt_of_le_of_lt hj hlt)).1]
      exact (h.before k hlt).1
    · rw [hgiven]
    · rw [hloaded]
  have hstatus := status_bare (n + 2) hgoes
  rw [hlast] at hstatus
  have hinside : ∀ k < 2,
      (bare memory (answers ++ [value]) (n + k)).machine.atBoundary = false := by
    intro k hk
    obtain rfl | rfl : k = 0 ∨ k = 1 := by omega
    · have hopen : ((bare memory answers n).machine.supply value).phaseOpen = true :=
        hwaiting.inside
      rw [Nat.add_zero, hgiven, Machine.atBoundary, hopen]
      rfl
    · rw [hloaded, Machine.atBoundary, hopen]
      rfl
  simp only [last, hlast]
  refine ⟨?_, hstatus, hinside, hat, hclock⟩
  rw [loads_append, loads_append, hbefore, hloads, hquiet, List.append_nil, Nat.mod_eq_of_lt hvalue]

end Starves

end TrnComputer
