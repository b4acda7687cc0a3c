import Mathlib.Data.List.Forall2
import TrnComputer.Proofs.Image.RoundTrip
import TrnComputer.Proofs.Machine.Replay

/-! # Upper bits of cells do not show

A memory given from outside may hold numbers of more than 20 bits. The machine cuts what it reads
from a cell before it uses it, so only the low 20 bits of a cell matter.

* `Memory.Alike`, `Machine.Alike`: the same but for the upper bits of cells.
* `Event.Alike`: events that agree, but for the upper bits of a cell that is read.
* `alike_perform`, `alike_microStep`: machines that are alike do the same and stay alike.
* `upperBits_unseen`: they do so in runs of any length, and a memory that has been written as an
  image and read again is alike.
-/

namespace TrnComputer
set_option autoImplicit false

/-! ## Memories and events -/

/-- Two memories have the same cells, of each the low 20 bits. -/
def Memory.Alike (m n : Memory) : Prop :=
  ∀ address, (m.get? address).map Word.significant = (n.get? address).map Word.significant

/-- Two events are the same, but for the upper bits of a cell that is read. -/
inductive Event.Alike : Event → Event → Prop
  | same (event : Event) : Alike event event
  | read (address : Nat) {value other : Nat}
    (h : Word.significant value = Word.significant other) :
    Alike (.cell address value .read) (.cell address other .read)

namespace Memory.Alike
variable {m n : Memory}

theorem get?_eq_none_iff (h : m.Alike n) (address : Nat) :
    m.get? address = none ↔ n.get? address = none := by
  rw [← Option.map_eq_none_iff (f := Word.significant), h address, Option.map_eq_none_iff]

theorem size_eq (h : m.Alike n) : n.size = m.size := by
  have hn := (h.get?_eq_none_iff m.size).1 (Memory.get?_eq_none_iff.2 (Nat.le_refl _))
  have hm := (h.get?_eq_none_iff n.size).2 (Memory.get?_eq_none_iff.2 (Nat.le_refl _))
  rw [Memory.get?_eq_none_iff] at hn hm
  exact Nat.le_antisymm hn hm

/-- Memories stay alike when the same value goes into the same cell. -/
theorem setIfInBounds (h : m.Alike n) (address value : Nat) :
    Memory.Alike ⟨m.cells.setIfInBounds address value⟩ ⟨n.cells.setIfInBounds address value⟩ := by
  intro other
  have hsize : n.cells.size = m.cells.size := h.size_eq
  have hold := h other
  simp only [Memory.get?, Array.getElem?_setIfInBounds, hsize] at hold ⊢
  split
  · rfl
  · exact hold

end Memory.Alike

theorem alike_events (events : List Event) : List.Forall₂ Event.Alike events events :=
  List.forall₂_same.2 fun event _ => .same event

/-! ## Machines -/

namespace Machine

/-- The machine with another memory. -/
def withMemory (m : Machine) (memory : Memory) : Machine := { m with memory }

/-- Two machines are the same, but for the upper bits of their cells. -/
structure Alike (m n : Machine) : Prop where
  registers : n.registers = m.registers
  memory : m.memory.Alike n.memory
  status : n.status = m.status
  overflow : n.overflow = m.overflow
  input : n.input = m.input
  awaitsInput : n.awaitsInput = m.awaitsInput
  phaseOpen : n.phaseOpen = m.phaseOpen

theorem alike_withMemory (m : Machine) {memory : Memory} (h : m.memory.Alike memory) :
    m.Alike (m.withMemory memory) :=
  ⟨rfl, h, rfl, rfl, rfl, rfl, rfl⟩

theorem Alike.eq_withMemory {m n : Machine} (h : m.Alike n) : n = m.withMemory n.memory := by
  obtain ⟨hregisters, -, hstatus, hoverflow, hinput, hawaits, hopen⟩ := h
  cases n
  simp only at hregisters hstatus hoverflow hinput hawaits hopen
  subst hregisters hstatus hoverflow hinput hawaits hopen
  rfl

end Machine

/-- Two machines have done the same: the result and the reports agree, and the machines and the
events are alike. -/
structure Activity.Alike (a b : Activity) : Prop where
  machine : a.machine.Alike b.machine
  result : b.result = a.result
  events : List.Forall₂ Event.Alike a.events b.events
  reports : b.reports = a.reports

/-! ## Micro-operations -/

namespace MicroOp

/-- What two machines have done in some micro-operations is alike. -/
structure Alike (a b : Machine × List Event × Option Stop) : Prop where
  machine : a.1.Alike b.1
  events : List.Forall₂ Event.Alike a.2.1 b.2.1
  stop : b.2.2 = a.2.2

section
variable {m : Machine} {memory : Memory}

theorem alike_of_eq {n : Machine} {events : List Event} {stop : Option Stop}
    (h : n.memory.Alike memory) :
    Alike (n, events, stop) (n.withMemory memory, events, stop) :=
  ⟨n.alike_withMemory h, alike_events events, rfl⟩

theorem alike_performRead (h : m.memory.Alike memory) :
    Alike (performRead m) (performRead (m.withMemory memory)) := by
  have hcells := h m.registers.ar
  cases hcell : m.memory.get? m.registers.ar with
  | none =>
    have hnone : (m.withMemory memory).memory.get? (m.withMemory memory).registers.ar = none :=
      (h.get?_eq_none_iff _).1 hcell
    have hsize : (m.withMemory memory).memory.size = m.memory.size := h.size_eq
    rw [performRead_of_none hcell, performRead_of_none hnone, hsize]
    exact alike_of_eq h
  | some value =>
    rw [hcell] at hcells
    obtain ⟨other, hother, hsame⟩ := Option.map_eq_some_iff.1 hcells.symm
    have hsome : (m.withMemory memory).memory.get? (m.withMemory memory).registers.ar =
        some other := hother
    -- What goes into the buffer is cut to 20 bits; the value read is told as it is.
    have hcut : other % 2 ^ 20 = value % 2 ^ 20 := hsame
    rw [performRead_of_some hcell, performRead_of_some hsome, hcut]
    exact ⟨Machine.alike_withMemory (m.setRegister .br (value % 2 ^ 20)) h,
      .cons (.read _ hsame.symm) (alike_events _), rfl⟩

theorem alike_performWrite (h : m.memory.Alike memory) :
    Alike (performWrite m) (performWrite (m.withMemory memory)) := by
  have hsize : (m.withMemory memory).memory.size = m.memory.size := h.size_eq
  rcases Nat.lt_or_ge m.registers.ar m.memory.size with hlt | hle
  · have hlt' : (m.withMemory memory).registers.ar < (m.withMemory memory).memory.size := by
      rw [hsize]
      exact hlt
    rw [performWrite_of_lt hlt, performWrite_of_lt hlt']
    exact alike_of_eq (n := stored m) (h.setIfInBounds _ _)
  · have hle' : (m.withMemory memory).memory.size ≤ (m.withMemory memory).registers.ar := by
      rw [hsize]
      exact hle
    rw [performWrite_of_le hle, performWrite_of_le hle', hsize]
    exact alike_of_eq h

theorem alike_performInput (h : m.memory.Alike memory) :
    Alike (performInput m) (performInput (m.withMemory memory)) := by
  cases hinput : m.input with
  | none =>
    have hinput' : (m.withMemory memory).input = none := hinput
    rw [performInput_of_none hinput, performInput_of_none hinput']
    exact alike_of_eq (n := { m with awaitsInput := true }) h
  | some value =>
    have hinput' : (m.withMemory memory).input = some value := hinput
    rw [performInput_of_some hinput, performInput_of_some hinput']
    exact alike_of_eq h

theorem alike_perform (h : m.memory.Alike memory) (op : MicroOp) :
    Alike (perform m op) (perform (m.withMemory memory) op) := by
  cases op with
  | readCell => exact alike_performRead h
  | writeCell => exact alike_performWrite h
  | takeInput => exact alike_performInput h
  | observe | transfer | shiftPair | watch | forgetOverflow | output | halt =>
    exact alike_of_eq h

end

theorem alike_performAll {m n : Machine} (h : m.Alike n) (ops : List MicroOp) :
    Alike (performAll m ops) (performAll n ops) := by
  induction ops generalizing m n with
  | nil => exact ⟨h, .nil, rfl⟩
  | cons op rest ih =>
    have hop := alike_perform h.memory op
    rw [← h.eq_withMemory] at hop
    rw [performAll_cons, performAll_cons]
    generalize perform m op = a, perform n op = b at hop ⊢
    obtain ⟨after, events, stop⟩ := a
    obtain ⟨after', events', stop'⟩ := b
    obtain ⟨hmachine, hevents, hstop⟩ := hop
    obtain rfl : stop = stop' := hstop.symm
    cases stop with
    | some why => exact ⟨hmachine, hevents, rfl⟩
    | none =>
      have hrest := ih hmachine
      exact ⟨hrest.machine, List.rel_append hevents hrest.events, hrest.stop⟩

end MicroOp

/-! ## Micro-steps -/

namespace Machine

theorem aside_withMemory (memory : Memory) : Aside (·.withMemory memory) :=
  ⟨fun _ => rfl, fun _ => rfl, fun _ => rfl, fun _ _ _ => rfl⟩

section
variable {m n : Machine}

theorem Alike.count (h : m.Alike n) (sc : Nat) :
    (m.count sc).1.Alike (n.count sc).1 ∧ (n.count sc).2 = (m.count sc).2 := by
  have hmemory : (m.count sc).1.memory.Alike n.memory := by
    rw [count_machine]
    exact h.memory
  rw [h.eq_withMemory, (aside_withMemory n.memory).count]
  exact ⟨alike_withMemory _ hmemory, rfl⟩

theorem Alike.close (h : m.Alike n) (closing : Closing) :
    (m.close closing).1.Alike (n.close closing).1 ∧ (n.close closing).2 = (m.close closing).2 := by
  have hmemory : (m.close closing).1.memory.Alike n.memory := by
    rw [close_machine]
    split
    · rw [updateFlags_machine]
      exact h.memory
    · exact h.memory
  rw [h.eq_withMemory, (aside_withMemory n.memory).close]
  exact ⟨alike_withMemory _ hmemory, rfl⟩

theorem Alike.opened (h : m.Alike n) :
    m.opened.Alike n.opened ∧ n.openPhase.2 = m.openPhase.2 := by
  have hmemory : m.opened.memory.Alike n.memory := by
    rw [memory_opened]
    exact h.memory
  unfold Machine.opened at hmemory ⊢
  rw [h.eq_withMemory, (aside_withMemory n.memory).openPhase]
  exact ⟨alike_withMemory _ hmemory, rfl⟩

theorem Alike.phaseSteps (h : m.Alike n) : n.phaseSteps = m.phaseSteps := by
  unfold Machine.phaseSteps
  rw [h.registers]

theorem Alike.beginReports (h : m.Alike n) : n.beginReports = m.beginReports := by
  unfold Machine.beginReports
  rw [h.registers]

theorem Alike.fail (h : m.Alike n) (cause : Fault) {events others : List Event}
    (hevents : List.Forall₂ Event.Alike events others) (reports : List MachineReport) :
    (m.fail cause events reports).Alike (n.fail cause others reports) where
  machine := { h with status := rfl }
  result := rfl
  events := List.rel_append hevents (alike_events _)
  reports := by simp only [Machine.fail, h.registers]

theorem Alike.stepPhaseOpen (h : m.Alike n) (steps : List (List MicroOp)) (closing : Closing)
    (opening : List Event) :
    (m.stepPhaseOpen steps closing opening).Alike (n.stepPhaseOpen steps closing opening) := by
  have hops := MicroOp.alike_performAll h (Microcode.stepAt steps m.registers.sc)
  simp only [Machine.stepPhaseOpen, h.registers, h.beginReports]
  generalize MicroOp.performAll m (Microcode.stepAt steps m.registers.sc) = a,
    MicroOp.performAll n (Microcode.stepAt steps m.registers.sc) = b at hops ⊢
  obtain ⟨after, events, stop⟩ := a
  obtain ⟨after', events', stop'⟩ := b
  obtain ⟨hmachine, hevents, hstop⟩ := hops
  obtain rfl : stop = stop' := hstop.symm
  dsimp only at hmachine hevents
  have hopening := List.rel_append (alike_events opening) hevents
  cases stop with
  | some why =>
    cases why with
    | awaitsInput => exact ⟨hmachine, rfl, hopening, rfl⟩
    | fault cause => exact Alike.fail hmachine cause hopening _
  | none =>
    simp only [hmachine.status, hmachine.registers]
    by_cases hhalted : after.status = .halted
    · simp only [if_pos hhalted]
      exact ⟨hmachine, rfl, hopening, rfl⟩
    · simp only [if_neg hhalted]
      by_cases hmore : m.registers.sc + 1 < steps.length
      · simp only [if_pos hmore]
        obtain ⟨hcounted, hsame⟩ := hmachine.count (m.registers.sc + 1)
        rw [hsame]
        exact ⟨hcounted, rfl, List.rel_append hopening (alike_events _), rfl⟩
      · simp only [if_neg hmore]
        obtain ⟨hclosed, hsame⟩ := hmachine.close closing
        rw [hsame]
        exact ⟨hclosed, rfl, List.rel_append hopening (alike_events _), rfl⟩

/-- Machines that are alike do the same in a micro-step, and stay alike. -/
theorem alike_microStep (h : m.Alike n) : m.microStep.Alike n.microStep := by
  by_cases hrun : m.status = .running
  · obtain ⟨hopened, hopening⟩ := h.opened
    rw [microStep_of_running hrun, microStep_of_running (h.status.trans hrun),
      hopened.phaseSteps, hopening]
    cases hsteps : m.opened.phaseSteps with
    | error e => exact hopened.fail (.decode e) (alike_events _) []
    | ok found => exact hopened.stepPhaseOpen found.1 found.2 _
  · rw [microStep_of_not_running hrun, microStep_of_not_running (h.status ▸ hrun), h.status]
    exact ⟨h, rfl, .nil, rfl⟩

theorem Alike.supply (h : m.Alike n) (value : Nat) : (m.supply value).Alike (n.supply value) :=
  { h with input := rfl }

end

end Machine

/-! ## Runs -/

/-- What a machine does in the micro-steps of a run, one after the other. -/
def Machine.activities (m : Machine) : List Drive → List Activity
  | [] => []
  | .microStep :: rest => m.microStep :: m.microStep.machine.activities rest
  | .supply value :: rest => (m.supply value).activities rest

/-- Two memories start runs that go alike: in each micro-step, and from the beginning to the end. -/
structure Lockstep (memory other : Memory) (drives : List Drive) : Prop where
  steps : List.Forall₂ Activity.Alike ((Machine.ofMemory memory).activities drives)
    ((Machine.ofMemory other).activities drives)
  machine : (heard memory drives).machine.Alike (heard other drives).machine
  events : List.Forall₂ Event.Alike (heard memory drives).events (heard other drives).events

theorem alike_activities {m n : Machine} (h : m.Alike n) (drives : List Drive) :
    List.Forall₂ Activity.Alike (m.activities drives) (n.activities drives) := by
  induction drives generalizing m n with
  | nil => exact .nil
  | cons drive rest ih =>
    cases drive with
    | microStep =>
      have hstep := Machine.alike_microStep h
      exact .cons hstep (ih hstep.machine)
    | supply value => exact ih (h.supply value)

theorem alike_heard {h k : Heard} (hmachine : h.machine.Alike k.machine)
    (hevents : List.Forall₂ Event.Alike h.events k.events) (drives : List Drive) :
    (drives.foldl Heard.after h).machine.Alike (drives.foldl Heard.after k).machine ∧
      List.Forall₂ Event.Alike (drives.foldl Heard.after h).events
        (drives.foldl Heard.after k).events := by
  induction drives generalizing h k with
  | nil => exact ⟨hmachine, hevents⟩
  | cons drive rest ih =>
    cases drive with
    | microStep =>
      have hstep := Machine.alike_microStep hmachine
      exact ih hstep.machine (List.rel_append hevents hstep.events)
    | supply value => exact ih (hmachine.supply value) hevents

theorem lockstep_of_alike {memory other : Memory} (h : memory.Alike other) (drives : List Drive) :
    Lockstep memory other drives := by
  have hstart : (Machine.ofMemory memory).Alike (.ofMemory other) :=
    (Machine.ofMemory memory).alike_withMemory h
  obtain ⟨hmachine, hevents⟩ := alike_heard (h := { machine := .ofMemory memory })
    (k := { machine := .ofMemory other }) hstart .nil drives
  exact ⟨alike_activities hstart drives, hmachine, hevents⟩

theorem alike_significant (memory : Memory) :
    memory.Alike ⟨memory.cells.map Word.significant⟩ := by
  intro address
  have htwice : Word.significant ∘ Word.significant = Word.significant :=
    funext fun value => Nat.mod_mod value (2 ^ 20)
  simp only [Memory.get?, Array.getElem?_map, Option.map_map, htwice]

/-- The upper bits of cells do not show. Two memories that agree in the low 20 bits of their cells
start runs that go alike, whatever is supplied and whenever. A memory of at most 65536 cells that
has been written as an image and read again is such a memory, and holds words of 20 bits. -/
theorem upperBits_unseen (memory : Memory) :
    (∀ other drives, memory.Alike other → Lockstep memory other drives) ∧
      (memory.size ≤ 2 ^ 16 → ∃ reread, Image.decode (Image.render memory) = .ok reread ∧
        (∀ cell ∈ reread.cells, cell < 2 ^ 20) ∧ ∀ drives, Lockstep memory reread drives) := by
  refine ⟨fun other drives h => lockstep_of_alike h drives, fun hsize => ?_⟩
  refine ⟨⟨memory.cells.map Word.significant⟩, ?_, ?_, ?_⟩
  · have hread := Image.decode_rendered memory
    rw [if_pos hsize] at hread
    exact hread
  · intro cell hcell
    obtain ⟨old, -, rfl⟩ := Array.mem_map.1 hcell
    exact Nat.mod_lt _ (by decide)
  · exact lockstep_of_alike (alike_significant memory)

/-- A load instruction and the cell that it loads both have upper bits. They are told when the cells
are read, and show nowhere else. -/
theorem upperBits_unseen_load :
    let memory := Memory.ofList [3 * 2 ^ 20 + 2 ^ 15 + 2, 31 * 2 ^ 15, 2 ^ 20 + 5]
    let clean := Memory.ofList [2 ^ 15 + 2, 31 * 2 ^ 15, 5]
    (memory.Alike clean ∧ ∀ drives, Lockstep memory clean drives) ∧
      (memory.size ≤ 2 ^ 16 ∧ ∃ reread, Image.decode (Image.render memory) = .ok reread ∧
        (∀ cell ∈ reread.cells, cell < 2 ^ 20) ∧ ∀ drives, Lockstep memory reread drives) ∧
      (heard memory (List.replicate 5 .microStep)).events ≠
        (heard clean (List.replicate 5 .microStep)).events := by
  intro memory clean
  have hclean : clean = ⟨memory.cells.map Word.significant⟩ := by
    simp [clean, memory, Memory.ofList, Word.significant]
  have halike : memory.Alike clean := by
    rw [hclean]
    exact alike_significant memory
  have hsize : memory.size ≤ 2 ^ 16 := by decide
  obtain ⟨hlockstep, hreread⟩ := upperBits_unseen memory
  exact ⟨⟨halike, fun drives => hlockstep clean drives halike⟩, ⟨hsize, hreread hsize⟩, by decide⟩

end TrnComputer
