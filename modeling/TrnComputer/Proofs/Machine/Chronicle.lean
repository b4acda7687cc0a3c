import TrnComputer.Proofs.Machine.Progress
import TrnComputer.Proofs.Machine.Replay
import TrnComputer.Proofs.Machine.Underway

/-! # Chronicles

* `Chronicle`, `chronicle`, `Machine.chronicle`: a machine with the instructions that it has
  completed since its start, or since a place in front of one.
* `Completes`: one state comes from another by an instruction.
* `Executed`: a chain of completed instructions.
* `sound_chronicle`: the instructions in a chronicle are such a chain, and in front of an
  instruction programs see the end of it.
-/

namespace TrnComputer
set_option autoImplicit false

/-- A machine with what programs saw before and after each instruction that it has completed.
`start` is what they saw when the last of them ended. -/
structure Chronicle where
  machine : Machine
  start : Visible
  completed : List (Visible × Visible)

/-- What has been done proceeds to a place in front of an instruction. -/
def Activity.completes (act : Activity) : Bool :=
  match act.result with
  | .ok .proceeds => act.machine.atInstruction
  | .ok .awaitsInput | .ok .halted | .error _ => false

theorem Activity.completes_iff {act : Activity} :
    act.completes = true ↔
      act.result = .ok .proceeds ∧ act.machine.atInstruction = true := by
  unfold completes
  split
  · next hresult => simp [hresult]
  all_goals simp [*]

def Chronicle.after (c : Chronicle) : Drive → Chronicle
  | .microStep =>
    let next := c.machine.microStep.machine
    if c.machine.microStep.completes then
      ⟨next, next.visible, c.completed ++ [(c.start, next.visible)]⟩
    else { c with machine := next }
  | .supply value => { c with machine := c.machine.supply value }

/-- The chronicle of a machine that starts from a memory, after all that is done with it. -/
def chronicle (memory : Memory) (drives : List Drive) : Chronicle :=
  drives.foldl Chronicle.after ⟨.ofMemory memory, (Machine.ofMemory memory).visible, []⟩

/-- The chronicle of a machine that stands in front of an instruction, from there on. -/
def Machine.chronicle (m : Machine) (drives : List Drive) : Chronicle :=
  drives.foldl Chronicle.after ⟨m, m.visible, []⟩

/-! ## Completed instructions -/

/-- An instruction leads from one state to the other, whatever is supplied meanwhile, and does not
stop the machine. -/
structure Completes (before after : Visible) : Prop where
  running : after.h = false
  bounded : after.a < 2 ^ 20
  step : ∃ i j out, (before.withInput i).step = some (after.withInput j, out)

/-- Completed instructions, each of which begins where the one before has ended. -/
inductive Executed (first : Visible) : List (Visible × Visible) → Visible → Prop
  | start : Executed first [] first
  | next {list : List (Visible × Visible)} {before after : Visible}
    (earlier : Executed first list before) (last : Completes before after) :
    Executed first (list ++ [(before, after)]) after

/-- A completed instruction with those before it. -/
theorem Executed.split {first t before after : Visible} {earlier later : List (Visible × Visible)}
    (h : Executed first (earlier ++ (before, after) :: later) t) :
    Executed first earlier before ∧ Completes before after := by
  generalize hlist : earlier ++ (before, after) :: later = list at h
  induction h generalizing later with
  | start => simp at hlist
  | @next list b a hearlier hlast ih =>
    obtain rfl | ⟨front, last, rfl⟩ := later.eq_nil_or_concat
    · obtain ⟨rfl, hpair⟩ := List.append_inj' hlist rfl
      cases hpair
      exact ⟨hearlier, hlast⟩
    · have hsplit : (earlier ++ (before, after) :: front) ++ [last] = list ++ [(b, a)] := by
        simpa using hlist
      exact ih (List.append_inj' hsplit rfl).1

/-! ## Chronicles are chains -/

theorem Machine.WellFormed.atInstruction {m : Machine} (h : m.WellFormed)
    (hrun : m.status = .running) (hat : m.atInstruction = true) : m.AtInstruction := by
  have hboundary : m.phaseOpen = false ∧ m.registers.f = .fetch := by
    simpa [Machine.atInstruction, Machine.atBoundary] using hat
  exact ⟨hrun, hboundary.1, hboundary.2, h.closed hboundary.1, h.fits⟩

namespace Chronicle

/-- What holds of every chronicle. -/
structure Sound (first : Visible) (c : Chronicle) : Prop where
  wellFormed : c.machine.WellFormed
  executed : Executed first c.completed c.start
  underway : c.machine.status = .running → Machine.Underway c.start c.machine
  /-- In front of an instruction nothing but the supplied value has changed. -/
  resting : c.machine.atInstruction = true →
    c.machine.visible.withInput none = c.start.withInput none

variable {first : Visible} {c : Chronicle}

theorem Sound.microStep (h : c.Sound first) : (c.after .microStep).Sound first := by
  have hwell := (Machine.wellFormed_microStep h.wellFormed).1
  unfold after
  by_cases hrun : c.machine.status = .running
  · have hprogressed := Machine.progressed_microStep h.wellFormed hrun
    have hunderway := h.underway hrun
    by_cases hcompletes : c.machine.microStep.completes = true
    · simp only [if_pos hcompletes]
      have hends := Activity.completes_iff.mp hcompletes
      have hnext : c.machine.microStep.machine.status = .running := by
        rw [hends.1] at hprogressed
        cases hprogressed with
        | counts hnext | closes hnext => exact hnext
      have hh : ¬c.machine.microStep.machine.registers.h = true := by
        rw [hwell.halted, hnext]
        decide
      exact {
        wellFormed := hwell
        executed := h.executed.next {
          running := Bool.eq_false_iff.mpr hh
          bounded := hwell.fits .a
          step := hunderway.completes hends.1 hends.2 }
        underway := fun _ => Machine.underway_start (hwell.atInstruction hnext hends.2)
        resting := fun _ => rfl }
    · simp only [if_neg hcompletes]
      rw [Activity.completes_iff] at hcompletes
      -- Only the end of an instruction leads in front of another.
      have hinside : c.machine.microStep.machine.atInstruction = false := by
        generalize c.machine.microStep.result = result at hcompletes hprogressed
        cases hprogressed with
        | counts _ _ hopen | waits _ _ _ _ hopen | halts _ hopen | fails _ _ hopen =>
          exact Machine.atInstruction_of_open hopen
        | closes => simpa using hcompletes
      exact {
        wellFormed := hwell
        executed := h.executed
        underway := fun hnext => hunderway.microStep hrun hnext hinside
        resting := fun hat => by
          rw [hinside] at hat
          cases hat }
  · rw [Machine.microStep_of_not_running hrun]
    exact h

theorem Sound.supply (h : c.Sound first) (value : Nat) : (c.after (.supply value)).Sound first where
  wellFormed := Machine.wellFormed_supply h.wellFormed value
  executed := h.executed
  underway := fun hrun => (h.underway hrun).supply value
  resting := h.resting

theorem sound_foldl (h : c.Sound first) (drives : List Drive) :
    (drives.foldl after c).Sound first := by
  induction drives generalizing c with
  | nil => exact h
  | cons drive rest ih =>
    apply ih
    cases drive with
    | microStep => exact h.microStep
    | supply value => exact h.supply value

end Chronicle

theorem Machine.sound_chronicle {m : Machine} (hm : m.WellFormed) (hat : m.AtInstruction)
    (drives : List Drive) : (m.chronicle drives).Sound m.visible :=
  Chronicle.sound_foldl {
    wellFormed := hm
    executed := .start
    underway := fun _ => Machine.underway_start hat
    resting := fun _ => rfl } drives

theorem sound_chronicle (memory : Memory) (drives : List Drive) :
    (chronicle memory drives).Sound (Machine.ofMemory memory).visible :=
  Machine.sound_chronicle (Machine.wellFormed_ofMemory memory)
    (Machine.atInstruction_ofMemory memory) drives

end TrnComputer
