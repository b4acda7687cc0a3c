import TrnComputer.Proofs.Machine.Loops

/-! # Limited runs

* `Repeats.trans`, `Continues.trans`: a loop that ends in time goes on as a longer one.
* `Repeats.of_stop`, `Continues.of_stop`: a loop that is cut short is that of any longer one.
* `Repeats.clock_le`: no phase is begun beyond the limit.
* `runLimited_add`: a limited run is additive in the number of phases.
-/

namespace TrnComputer
set_option autoImplicit false

namespace Machine

/-! ## Loops one after the other -/

section
variable {early late : Machine → Bool} {m : Machine} {count more : Nat} {first second : Activity}

/-- A loop that is done early goes on as one that is done late. -/
theorem Repeats.trans (hlate : ∀ n, early n = false → late n = false)
    (h : Repeats early m count first) (hproceeds : first.result = .ok .proceeds)
    (hmore : Continues late first.machine more second) :
    Repeats late m (more + count) (first.after second) := by
  induction h with
  | @last m hlast =>
    cases hmore with
    | rests hdone =>
      have hsame : m.microStep.after ⟨m.microStep.machine, .ok .proceeds, [], []⟩ =
          m.microStep := by
        simp only [Activity.after, List.append_nil, ← hproceeds]
      rw [hsame, Nat.zero_add]
      exact .last fun _ => hdone
    | repeats hinside hloop => exact .more hproceeds hinside hloop
  | more hgo hinside hrest ih =>
    rw [Activity.after_assoc]
    exact .more hgo (hlate _ hinside) (ih hproceeds hmore)

theorem Continues.trans (hlate : ∀ n, early n = false → late n = false)
    (h : Continues early m count first) (hproceeds : first.result = .ok .proceeds)
    (hmore : Continues late first.machine more second) :
    Continues late m (more + count) (first.after second) := by
  cases h with
  | rests hdone => exact hmore
  | repeats hinside hloop => exact .repeats (hlate m hinside) (hloop.trans hlate hproceeds hmore)

/-- A loop that is cut short is cut short wherever it would have been done. -/
theorem Repeats.of_stop (hlate : ∀ n, early n = false → late n = false)
    (h : Repeats early m count first) (hstop : first.result ≠ .ok .proceeds) :
    Repeats late m count first := by
  induction h with
  | last hlast => exact .last fun hproceeds => absurd hproceeds hstop
  | more hgo hinside hrest ih => exact .more hgo (hlate _ hinside) (ih hstop)

theorem Continues.of_stop (hlate : ∀ n, early n = false → late n = false)
    (h : Continues early m count first) (hstop : first.result ≠ .ok .proceeds) :
    Continues late m count first := by
  cases h with
  | rests hdone => exact absurd rfl hstop
  | repeats hinside hloop => exact .repeats (hlate m hinside) (hloop.of_stop hlate hstop)

end

/-! ## The clock -/

section
variable {m : Machine} {limit count : Nat} {act : Activity}

/-- A phase is begun before the limit only. -/
theorem clock_le_microStep (hinside : m.reached limit = false) (hle : m.registers.clock ≤ limit) :
    m.microStep.machine.registers.clock ≤ limit := by
  by_cases hrun : m.status = .running
  · rw [clock_microStep hrun]
    split
    · exact hle
    · next hclosed => exact (not_reached_iff.mp hinside).resolve_left hclosed
  · rw [microStep_of_not_running hrun]
    exact hle

theorem Repeats.clock_le (h : Repeats (reached limit) m count act)
    (hinside : m.reached limit = false) (hle : m.registers.clock ≤ limit) :
    act.machine.registers.clock ≤ limit := by
  induction h with
  | last hlast => exact clock_le_microStep hinside hle
  | more hgo hmore hrest ih => exact ih hmore (clock_le_microStep hinside hle)

/-- A limited run that is not cut short ends at the end of a phase, just when the clock comes to the
limit. -/
theorem Continues.exact (h : Continues (reached limit) m count act)
    (hle : m.registers.clock ≤ limit) (hproceeds : act.result = .ok .proceeds) :
    act.machine.atBoundary = true ∧ act.machine.registers.clock = limit := by
  have hreached := h.done_of_proceeds hproceeds
  have hbound : act.machine.registers.clock ≤ limit := by
    cases h with
    | rests hdone => exact hle
    | repeats hinside hloop => exact hloop.clock_le hinside hle
  rw [reached, Bool.and_eq_true, decide_eq_true_eq] at hreached
  exact ⟨hreached.1, Nat.le_antisymm hbound hreached.2⟩

theorem not_reached_mono {late : Nat} (hle : limit ≤ late) (h : m.reached limit = false) :
    m.reached late = false :=
  not_reached_iff.mpr ((not_reached_iff.mp h).imp_right fun hclock => Nat.lt_of_lt_of_le hclock hle)

end

theorem Paced.runLimited {m : Machine} (h : m.Paced) (phases : Nat) :
    (m.runLimited phases).machine.Paced :=
  answer_keeps (fun _ => Paced.microStep) h (.runLimited phases)

/-- A limited run is exact and additive, wherever in an instruction it begins. If it comes to the
limit, the machine is at the end of a phase, the clock has counted the phases, and a run for more
phases is this run and one for the rest: with the same result, the same machine, and the same events
and reports in a row. If it is cut short, so is a run for more phases, in the same way. -/
theorem runLimited_add (memory : Memory) (demands : List Demand) (a b : Nat) :
    let m := (ofMemory memory).meetAll demands
    let first := m.runLimited a
    (first.result = .ok .proceeds →
      first.machine.atBoundary = true ∧
        first.machine.registers.clock = m.registers.clock + a ∧
        m.runLimited (a + b) = first.after (first.machine.runLimited b)) ∧
      (first.result ≠ .ok .proceeds → m.runLimited (a + b) = first) := by
  intro m first
  have hpaced : m.Paced := paced_meetAll memory demands
  obtain ⟨count, -, hfirst⟩ := hpaced.continues_runLimited a
  obtain ⟨total, -, hwhole⟩ := hpaced.continues_runLimited (a + b)
  have hlate : ∀ n : Machine, n.reached (m.registers.clock + a) = false →
      n.reached (m.registers.clock + (a + b)) = false :=
    fun n => not_reached_mono (by omega)
  constructor
  · intro hproceeds
    obtain ⟨hboundary, hclock⟩ := hfirst.exact (Nat.le_add_right _ _) hproceeds
    refine ⟨hboundary, hclock, ?_⟩
    obtain ⟨more, -, hsecond⟩ := (hpaced.runLimited a).continues_runLimited b
    rw [hclock, Nat.add_assoc] at hsecond
    exact hwhole.unique (hfirst.trans hlate hproceeds hsecond)
  · intro hstop
    exact hwhole.unique (hfirst.of_stop hlate hstop)

/-- From the middle of a fetch, with an input that is not answered: no phase more comes to the end
of the fetch, and one phase more waits, as six do. -/
theorem runLimited_add_waiting :
    let m := (ofMemory (.ofList [29 * 2 ^ 15, 31 * 2 ^ 15])).meetAll [.errand (.call .microStep)]
    m.atBoundary = false ∧ (m.runLimited 0).result = .ok .proceeds ∧
      (m.runLimited 0).machine.atBoundary = true ∧
      m.runLimited (0 + 1) = (m.runLimited 0).after ((m.runLimited 0).machine.runLimited 1) ∧
      (m.runLimited 1).result = .ok .awaitsInput ∧ m.runLimited (1 + 5) = m.runLimited 1 := by
  intro m
  have hadd := runLimited_add (.ofList [29 * 2 ^ 15, 31 * 2 ^ 15]) [.errand (.call .microStep)]
  have hinside : m.atBoundary = false := by decide
  have hends : (m.runLimited 0).result = .ok .proceeds := by decide
  have hwaits : (m.runLimited 1).result = .ok .awaitsInput := by decide
  obtain ⟨hboundary, -, hsplit⟩ := (hadd 0 1).1 hends
  have hsame := (hadd 1 5).2 (fun hproceeds => by rw [hwaits] at hproceeds; cases hproceeds)
  exact ⟨hinside, hends, hboundary, hsplit, hwaits, hsame⟩

end Machine

end TrnComputer
