import TrnComputer.Proofs.Machine.Calls

/-! # Loops of micro-steps

* `Machine.Repeats`, `Machine.Continues`: the loops that drive a machine, with the exact number of
  micro-steps and without a limit to it. One looks at the machine after each micro-step only, the
  other before the first too.
* `Repeats.runUntil_eq`, `Repeats.unique`: a run that is followed for long enough is the loop.
* `exists_repeats_of_running`, `exists_repeats`: a loop ends if each micro-step brings a measure
  down.
* `Machine.stepsToCome`, `Machine.stepsWithin`: the measures of an instruction and of a number of
  phases.
* `Machine.Paced`: a phase that is open has done a micro-step, unless it waits for a value.
* `drivers_return`: every call but the run without a limit returns, and how soon.
-/

namespace TrnComputer
set_option autoImplicit false

theorem Activity.after_assoc (a b c : Activity) : (a.after b).after c = a.after (b.after c) := by
  simp only [Activity.after, List.append_assoc]

namespace Machine

/-! ## Loops -/

/-- A loop of `count` micro-steps. All but the last proceed without being done; the last does not
proceed, or it is done. -/
inductive Repeats (done : Machine → Bool) : Machine → Nat → Activity → Prop
  | last {m : Machine}
    (h : m.microStep.result = .ok .proceeds → done m.microStep.machine = true) :
    Repeats done m 1 m.microStep
  | more {m : Machine} {count : Nat} {later : Activity}
    (hgo : m.microStep.result = .ok .proceeds) (hinside : done m.microStep.machine = false)
    (hrest : Repeats done m.microStep.machine count later) :
    Repeats done m (count + 1) (m.microStep.after later)

/-- Such a loop for a machine that may be done without a micro-step. -/
inductive Continues (done : Machine → Bool) : Machine → Nat → Activity → Prop
  | rests {m : Machine} (h : done m = true) : Continues done m 0 ⟨m, .ok .proceeds, [], []⟩
  | repeats {m : Machine} {count : Nat} {act : Activity} (hinside : done m = false)
    (h : Repeats done m count act) : Continues done m count act

section
variable {done : Machine → Bool} {m : Machine} {count other fuel : Nat} {act act' : Activity}

theorem Repeats.runUntil_eq (h : Repeats done m count act) (hfuel : count ≤ fuel) :
    m.runUntil done fuel = act := by
  induction h generalizing fuel with
  | last hlast =>
    obtain ⟨fuel, rfl⟩ : ∃ rest, fuel = rest + 1 := ⟨fuel - 1, by omega⟩
    exact runUntil_of_stop fuel hlast
  | more hgo hinside hrest ih =>
    obtain ⟨fuel, rfl⟩ : ∃ rest, fuel = rest + 1 := ⟨fuel - 1, by omega⟩
    rw [runUntil_of_proceeds fuel hgo hinside, ih (by omega)]

theorem Repeats.unique (h : Repeats done m count act) (h' : Repeats done m other act') :
    act = act' := by
  have hrun := h.runUntil_eq (Nat.le_max_left count other)
  have hrun' := h'.runUntil_eq (Nat.le_max_right count other)
  exact hrun.symm.trans hrun'

theorem Repeats.done_of_proceeds (h : Repeats done m count act)
    (hproceeds : act.result = .ok .proceeds) : done act.machine = true := by
  induction h with
  | last hlast => exact hlast hproceeds
  | more hgo hinside hrest ih => exact ih hproceeds

theorem Continues.unique (h : Continues done m count act) (h' : Continues done m other act') :
    act = act' := by
  cases h with
  | rests hdone =>
    cases h' with
    | rests => rfl
    | repeats hinside => exact absurd (hdone.symm.trans hinside) (by decide)
  | repeats hinside hloop =>
    cases h' with
    | rests hdone => exact absurd (hdone.symm.trans hinside) (by decide)
    | repeats _ hloop' => exact hloop.unique hloop'

theorem Continues.done_of_proceeds (h : Continues done m count act)
    (hproceeds : act.result = .ok .proceeds) : done act.machine = true := by
  cases h with
  | rests hdone => exact hdone
  | repeats _ hloop => exact hloop.done_of_proceeds hproceeds

/-! ## Loops that end -/

theorem WellFormed.proceeds (h : m.WellFormed) (hproceeds : m.microStep.result = .ok .proceeds) :
    m.microStep.machine.WellFormed ∧ m.microStep.machine.status = .running := by
  refine ⟨(wellFormed_microStep h).1, ?_⟩
  rw [status_microStep h (running_of_ok hproceeds), hproceeds]

variable {μ : Machine → Nat} {bound : Nat}

/-- A loop ends if each micro-step that leads on brings a measure down. The measure counts at least
what is left of the phase, so that it is not zero as long as the machine runs. -/
theorem exists_repeats_of_running (hleft : ∀ n : Machine, n.stepsLeft ≤ μ n)
    (hdown : ∀ n : Machine, n.WellFormed → n.microStep.result = .ok .proceeds →
      done n.microStep.machine = false → μ n.microStep.machine < μ n)
    (h : m.WellFormed) (hrun : m.status = .running) :
    ∃ count ≤ μ m, ∃ act, Repeats done m count act := by
  induction hm : μ m using Nat.strongRecOn generalizing m with
  | _ k ih =>
    subst hm
    obtain hgo | hlast := goesOn_or_ends done m
    · obtain ⟨hnext, hstill⟩ := h.proceeds hgo.1
      have hlt := hdown m h hgo.1 hgo.2
      obtain ⟨count, hcount, later, hlater⟩ := ih _ hlt hnext hstill rfl
      exact ⟨count + 1, by omega, _, .more hgo.1 hgo.2 hlater⟩
    · have hpos : 0 < μ m := Nat.lt_of_lt_of_le (h.stepsLeft_pos hrun) (hleft m)
      exact ⟨1, hpos, _, .last hlast⟩

/-- So it does if the machine has stopped, after one micro-step in vain. -/
theorem exists_repeats (hleft : ∀ n : Machine, n.stepsLeft ≤ μ n)
    (hdown : ∀ n : Machine, n.WellFormed → n.microStep.result = .ok .proceeds →
      done n.microStep.machine = false → μ n.microStep.machine < μ n)
    (h : m.WellFormed) (hbound : m.status = .running → μ m ≤ bound) (hone : 0 < bound) :
    ∃ count ≤ bound, ∃ act, Repeats done m count act := by
  by_cases hrun : m.status = .running
  · obtain ⟨count, hcount, hloop⟩ := exists_repeats_of_running hleft hdown h hrun
    exact ⟨count, Nat.le_trans hcount (hbound hrun), hloop⟩
  · refine ⟨1, hone, _, .last fun hproceeds => ?_⟩
    exact absurd (running_of_ok hproceeds) hrun

end

end Machine

/-! ## Measures -/

namespace Phase

/-- The most micro-steps of a phase. -/
def longest : Phase → Nat
  | .fetch => 3
  | .indexed => 1
  | .indirect => 2
  | .execute => 4

/-- The most micro-steps of an instruction that come after a phase. -/
def rest : Phase → Nat
  | .fetch => 7
  | .indexed => 6
  | .indirect => 4
  | .execute => 0

theorem longest_add_rest_le_ten (p : Phase) : p.longest + p.rest ≤ 10 := by
  cases p <;> decide

/-- What a later phase and the phases after it need, an earlier one has in reserve. -/
theorem longest_add_rest_le {p q : Phase} (h : p.code < q.code) : q.longest + q.rest ≤ p.rest := by
  revert h
  cases p <;> cases q <;> decide

end Phase

namespace Machine

/-- The most micro-steps that the current instruction still needs. -/
def stepsToCome (m : Machine) : Nat := m.stepsLeft + m.registers.f.rest

/-- The most micro-steps until a phase has ended with the clock at a limit. -/
def stepsWithin (limit : Nat) (m : Machine) : Nat :=
  if m.phaseOpen then m.stepsLeft + 4 * (limit - m.registers.clock)
  else max m.stepsLeft (4 * (limit - m.registers.clock))

theorem stepsLeft_le_longest (m : Machine) : m.stepsLeft ≤ m.registers.f.longest := by
  have hfour := m.phaseLength_le_four
  refine Nat.le_trans (Nat.sub_le _ _) ?_
  cases hf : m.registers.f with
  | fetch | indexed | indirect => simp only [phaseLength, hf, Phase.longest, Nat.le_refl]
  | execute => exact hfour

theorem stepsToCome_le (m : Machine) :
    m.stepsToCome ≤ m.registers.f.longest + m.registers.f.rest :=
  Nat.add_le_add_right m.stepsLeft_le_longest _

theorem stepsLeft_le_stepsWithin (limit : Nat) (m : Machine) :
    m.stepsLeft ≤ m.stepsWithin limit := by
  unfold stepsWithin
  split
  · exact Nat.le_add_right _ _
  · exact Nat.le_max_left _ _

section
variable {m : Machine} {limit : Nat}

theorem not_reached_iff : m.reached limit = false ↔
    m.phaseOpen = true ∨ m.registers.clock < limit := by
  rw [reached, atBoundary]
  cases m.phaseOpen <;> simp

/-- A phase is followed by a later one, or by the next instruction. -/
theorem nextPhase_later {steps : List (List MicroOp)} {closing : Closing}
    (hsteps : m.phaseSteps = .ok (steps, closing)) (ir : Nat) :
    nextPhase ir closing = .fetch ∨ m.registers.f.code < (nextPhase ir closing).code := by
  obtain ⟨hf, -, rfl⟩ | ⟨hf, -, rfl⟩ | ⟨hf, -, rfl⟩ | ⟨i, hf, -, -, rfl⟩ := phaseSteps_eq_ok hsteps
  · rw [hf, nextPhase]
    cases Word.isIndexed ir <;> cases Word.isIndirect ir <;> decide
  · rw [hf, nextPhase]
    cases Word.isIndirect ir <;> decide
  · rw [hf]
    exact .inr (by decide : Phase.indirect.code < Phase.execute.code)
  · exact .inl rfl

theorem phase_microStep (h : m.WellFormed) (hproceeds : m.microStep.result = .ok .proceeds) :
    (m.microStep.machine.phaseOpen = true ∧ m.microStep.machine.registers.f = m.registers.f) ∨
      m.microStep.machine.phaseOpen = false ∧
        (m.microStep.machine.registers.f = .fetch ∨
          m.registers.f.code < m.microStep.machine.registers.f.code) := by
  have hrun := running_of_ok hproceeds
  have hf : m.opened.registers.f = m.registers.f := by rw [opened_eq]
  have hstepped := stepped_microStep hrun
  generalize m.microStep = act at hproceeds hstepped
  cases hstepped with
  | undecodable | awaits | faults | halts => cases hproceeds
  | counts hsteps hops hnot hmore =>
    have hperformed := (performed_stepAt h hrun hsteps hops).1
    rw [count_machine]
    exact .inl ⟨hperformed.open_, hperformed.phase⟩
  | @closes steps closing after events hsteps hops hnot hlast =>
    have hnext : (after.close closing).1.phaseOpen = false ∧
        (after.close closing).1.registers.f = nextPhase after.registers.ir closing := by
      rw [close_machine]
      split
      · next hclosing =>
        rw [updateFlags_machine, hclosing]
        exact ⟨rfl, rfl⟩
      · exact ⟨rfl, rfl⟩
    refine .inr ⟨hnext.1, ?_⟩
    show (after.close closing).1.registers.f = .fetch ∨
      m.registers.f.code < (after.close closing).1.registers.f.code
    rw [hnext.2, ← hf]
    exact nextPhase_later hsteps after.registers.ir

theorem stepsLeft_microStep (h : m.WellFormed) (hproceeds : m.microStep.result = .ok .proceeds)
    (hopen : m.microStep.machine.phaseOpen = true) :
    m.microStep.machine.stepsLeft + 1 = m.stepsLeft := by
  have hprogressed := progressed_microStep h (running_of_ok hproceeds)
  rw [hproceeds] at hprogressed
  cases hprogressed with
  | counts hrun hwish hcounted hsc hleft => exact hleft
  | closes hrun hwish hclosed => exact absurd (hopen.symm.trans hclosed) (by decide)

theorem stepsToCome_microStep (h : m.WellFormed) (hproceeds : m.microStep.result = .ok .proceeds)
    (hinside : atInstruction m.microStep.machine = false) :
    m.microStep.machine.stepsToCome < m.stepsToCome := by
  have hpos := h.stepsLeft_pos (running_of_ok hproceeds)
  have hhas : m.stepsToCome = m.stepsLeft + m.registers.f.rest := rfl
  obtain ⟨hopen, hsame⟩ | ⟨hclosed, hfetch | hlater⟩ := phase_microStep h hproceeds
  · have hleft := stepsLeft_microStep h hproceeds hopen
    unfold stepsToCome
    rw [hsame]
    omega
  · rw [atInstruction, atBoundary, hclosed, hfetch] at hinside
    cases hinside
  · have hneeds := m.microStep.machine.stepsToCome_le
    have hreserve := Phase.longest_add_rest_le hlater
    omega

/-- Inside a phase the clock stands still and what is left of the phase pays for the micro-step. The
first micro-step of a phase is paid for by the clock, which counts the phase. -/
theorem stepsWithin_microStep (h : m.WellFormed) (hproceeds : m.microStep.result = .ok .proceeds)
    (hinside : m.microStep.machine.reached limit = false) :
    m.microStep.machine.stepsWithin limit < m.stepsWithin limit := by
  have hrun := running_of_ok hproceeds
  have hpos := h.stepsLeft_pos hrun
  have hfour := m.microStep.machine.stepsLeft_le_four
  have hfour' := m.stepsLeft_le_four
  have hclock := clock_microStep hrun
  have hleft := stepsLeft_microStep h hproceeds
  have hlimit := not_reached_iff.mp hinside
  unfold stepsWithin
  cases hopen : m.phaseOpen with
  | true =>
    have hsame : m.microStep.machine.registers.clock = m.registers.clock := by
      rw [hclock, if_pos hopen]
    rw [if_pos rfl]
    split
    · next hstill =>
      have hone := hleft hstill
      omega
    · next hclosed =>
      have hbefore := hlimit.resolve_left hclosed
      omega
  | false =>
    have hcounted : m.microStep.machine.registers.clock = m.registers.clock + 1 := by
      rw [hclock, if_neg (by simp [hopen])]
    rw [if_neg (by decide : ¬false = true)]
    split
    · next hbegun =>
      have hone := hleft hbegun
      omega
    · next hclosed =>
      have hbefore := hlimit.resolve_left hclosed
      omega

end

/-! ## What is open has begun -/

/-- What holds of a machine between calls: if a phase is open, a micro-step of it has been done, or
its first one waits for a value. -/
structure Paced (m : Machine) : Prop where
  driven : m.Driven
  begun : m.status = .running → m.phaseOpen = true → m.registers.sc = 0 → m.awaitsInput = true

section
variable {m : Machine}

theorem Paced.microStep (h : m.Paced) : m.microStep.machine.Paced where
  driven := h.driven.microStep
  begun := by
    by_cases hrun : m.status = .running
    · have hprogressed := progressed_microStep h.driven.wellFormed hrun
      generalize m.microStep.result = result at hprogressed
      cases hprogressed with
      | counts _ _ _ hsc => exact fun _ _ hzero => absurd hzero hsc
      | closes _ _ hclosed => exact fun _ hopen => absurd (hopen.symm.trans hclosed) (by decide)
      | waits _ _ _ hwish => exact fun _ _ _ => hwish
      | halts hstatus | fails _ hstatus =>
        intro hrunning
        rw [hstatus] at hrunning
        cases hrunning
    · rw [microStep_of_not_running hrun]
      exact h.begun

theorem paced_ofMemory (memory : Memory) : (ofMemory memory).Paced :=
  ⟨driven_ofMemory memory, fun _ hopen => by cases hopen⟩

theorem paced_meetAll (memory : Memory) (demands : List Demand) :
    ((ofMemory memory).meetAll demands).Paced := by
  refine meetAll_keeps (fun _ => Paced.microStep) (fun n value hn => ?_) paced_ofMemory
    (paced_ofMemory memory) demands
  exact ⟨⟨wellFormed_supply hn.driven.wellFormed value, hn.driven.inside⟩, hn.begun⟩

theorem Paced.stepsLeft_le_three (h : m.Paced) (hrun : m.status = .running)
    (hopen : m.phaseOpen = true) : m.stepsLeft ≤ 3 := by
  have hfour := m.phaseLength_le_four
  unfold stepsLeft
  by_cases hsc : m.registers.sc = 0
  · -- The machine waits in front of an input instruction, which has two micro-steps.
    obtain ⟨hf, -, -, i, hdecode, hi⟩ :=
      h.driven.wellFormed.awaiting hrun (h.begun hrun hopen hsc)
    have hlength : m.phaseLength = 2 := by
      rw [phaseLength, hf]
      simp only [hdecode, hi]
      rfl
    omega
  · omega

/-! ## The calls -/

theorem exists_repeats_phase (h : m.WellFormed) :
    ∃ count ≤ 4, ∃ act, Repeats atBoundary m count act := by
  refine exists_repeats (μ := stepsLeft) (fun n => Nat.le_refl _) ?_ h
    (fun _ => m.stepsLeft_le_four) (by decide)
  intro n hn hproceeds hinside
  have hopen : n.microStep.machine.phaseOpen = true := by simpa [atBoundary] using hinside
  have hleft := stepsLeft_microStep hn hproceeds hopen
  omega

theorem exists_repeats_instruction (h : m.WellFormed) :
    ∃ count ≤ 10, ∃ act, Repeats atInstruction m count act :=
  exists_repeats (μ := stepsToCome) (fun n => Nat.le_add_right _ _)
    (fun _ => stepsToCome_microStep) h
    (fun _ => Nat.le_trans m.stepsToCome_le (Phase.longest_add_rest_le_ten _)) (by decide)

theorem Paced.exists_continues (h : m.Paced) (phases : Nat) :
    ∃ count ≤ 4 * phases + 3, ∃ act,
      Continues (reached (m.registers.clock + phases)) m count act := by
  cases hinside : m.reached (m.registers.clock + phases) with
  | true => exact ⟨0, Nat.zero_le _, _, .rests hinside⟩
  | false =>
    have hbound (hrun : m.status = .running) :
        m.stepsWithin (m.registers.clock + phases) ≤ 4 * phases + 3 := by
      have hfour := m.stepsLeft_le_four
      unfold stepsWithin
      split
      · next hopen =>
        have hthree := h.stepsLeft_le_three hrun hopen
        omega
      · next hclosed =>
        have hbefore := (not_reached_iff.mp hinside).resolve_left hclosed
        omega
    obtain ⟨count, hcount, act, hloop⟩ := exists_repeats
      (stepsLeft_le_stepsWithin (m.registers.clock + phases))
      (fun _ => stepsWithin_microStep) h.driven.wellFormed hbound (Nat.succ_pos _)
    exact ⟨count, hcount, act, .repeats hinside hloop⟩

theorem Continues.runLimited_eq {phases count : Nat} {act : Activity}
    (h : Continues (reached (m.registers.clock + phases)) m count act)
    (hcount : count ≤ 4 * phases + 4) : m.runLimited phases = act := by
  unfold runLimited
  cases h with
  | rests hdone => exact if_pos hdone
  | repeats hinside hloop =>
    simp only [hinside, Bool.false_eq_true, if_false]
    exact hloop.runUntil_eq hcount

/-- A limited run is the loop that it says. -/
theorem Paced.continues_runLimited (h : m.Paced) (phases : Nat) :
    ∃ count ≤ 4 * phases + 3,
      Continues (reached (m.registers.clock + phases)) m count (m.runLimited phases) := by
  obtain ⟨count, hcount, act, hloop⟩ := h.exists_continues phases
  have hcall : m.runLimited phases = act := hloop.runLimited_eq (by omega)
  exact ⟨count, hcount, hcall ▸ hloop⟩

end

/-- Whatever has been done with a machine and whatever its program does, the loop to the end of the
phase takes at most four micro-steps, the loop to the end of the instruction at most ten, and a run
that is limited to a number of phases at most four for each and three for the phase it begins in.
The calls are these loops. -/
theorem drivers_return (memory : Memory) (demands : List Demand) :
    let m := (ofMemory memory).meetAll demands
    (∃ count ≤ 4, Repeats atBoundary m count m.stepPhase) ∧
      (∃ count ≤ 10, Repeats atInstruction m count m.stepInstruction) ∧
      ∀ phases, ∃ count ≤ 4 * phases + 3,
        Continues (reached (m.registers.clock + phases)) m count (m.runLimited phases) := by
  intro m
  have hpaced : m.Paced := paced_meetAll memory demands
  refine ⟨?_, ?_, hpaced.continues_runLimited⟩
  · obtain ⟨count, hcount, act, hloop⟩ := exists_repeats_phase hpaced.driven.wellFormed
    have hcall : m.stepPhase = act := hloop.runUntil_eq hcount
    exact ⟨count, hcount, hcall ▸ hloop⟩
  · obtain ⟨count, hcount, act, hloop⟩ := exists_repeats_instruction hpaced.driven.wellFormed
    have hcall : m.stepInstruction = act := hloop.runUntil_eq hcount
    exact ⟨count, hcount, hcall ▸ hloop⟩

-- A subtraction with both modifiers takes all ten.
example :
    let m := ofMemory (.ofList [14 * 2 ^ 15 + 2 ^ 14 + 2 ^ 13 + 1, 1])
    (m.runUntil atInstruction 9).machine.atInstruction = false ∧
      m.stepInstruction.machine.atInstruction = true := by
  decide

end Machine

end TrnComputer
