import TrnComputer.Proofs.Machine.Stepping

/-! # Machines told from their events

A listener starts from zero registers and the memory that the machine starts with, and carries out
what the events say. So it always has the registers and the memory of the machine.

* `Replica`, `Replica.replay`: what a listener knows, and how it follows the events.
* `Replica.Truthful`: what the events say is so at their place in the replay.
* `Replica.Told`: events are truthful and lead from one replica to another.
* `told_perform`, `told_microStep`: the events of a micro-operation and of a micro-step tell what it
  does.
* `replay_heard`: the events of a whole run tell the machine.
-/

namespace TrnComputer
set_option autoImplicit false

/-! ## Listening -/

/-- What a listener knows of a machine. -/
structure Replica where
  registers : Registers := .zero
  memory : Memory

namespace Replica

/-- What a listener knows after an event. A register or a cell that is written or changed in place
gets the value told, and a tick sets the clock. -/
def hear (r : Replica) : Event → Replica
  | .register q value .write | .register q value .inPlace =>
    { r with registers := r.registers.set q value }
  | .cell address value .write => { r with memory := r.memory.store address value }
  | .tick clock => { r with registers := { r.registers with clock } }
  | _ => r

def replay (r : Replica) (events : List Event) : Replica := events.foldl hear r

/-- What an event says is so. A register or a cell that is read has the value told, a phase is
counted by one more than the one before, a movement is dated by the clock, and what is handed out
is in the buffer. -/
def Confirms (r : Replica) : Event → Prop
  | .register q value .read => r.registers.get q = value
  | .cell address value .read => r.memory.get? address = some value
  | .tick clock => clock = r.registers.clock + 1
  | .moved clock _ _ => clock = r.registers.clock
  | .output value => value = r.registers.br
  | _ => True

/-- Each event says what is so at its place in the replay. -/
def Truthful (r : Replica) : List Event → Prop
  | [] => True
  | event :: rest => r.Confirms event ∧ (r.hear event).Truthful rest

/-- Events are truthful and lead from one replica to another. -/
structure Told (r : Replica) (events : List Event) (r' : Replica) : Prop where
  replays : r.replay events = r'
  truthful : r.Truthful events

section
variable {r r' r'' : Replica} {events more : List Event}

theorem told_nil (r : Replica) : r.Told [] r := ⟨rfl, trivial⟩

theorem told_cons {event : Event} (h : r.Confirms event) (hrest : (r.hear event).Told events r') :
    r.Told (event :: events) r' :=
  ⟨hrest.replays, h, hrest.truthful⟩

theorem Told.append (h : r.Told events r') (hmore : r'.Told more r'') :
    r.Told (events ++ more) r'' := by
  obtain ⟨hreplays, htruthful⟩ := h
  induction events generalizing r with
  | nil =>
    obtain rfl : r = r' := hreplays
    exact hmore
  | cons event rest ih => exact told_cons htruthful.1 (ih hreplays htruthful.2)

end

/-! ## Ticks -/

/-- The numbers of the phases that begin. -/
def ticks (events : List Event) : List Nat :=
  events.filterMap fun event =>
    match event with
    | .tick clock => some clock
    | _ => none

theorem clock_hear_of_not_tick (r : Replica) {event : Event} (h : ticks [event] = []) :
    (r.hear event).registers.clock = r.registers.clock := by
  cases event with
  | tick clock => cases h
  | register q value access =>
    cases access with
    | read => rfl
    | write | inPlace => exact Registers.clock_set _ q value
  | cell address value access => cases access <;> rfl
  | moved _ _ _ | output _ | inputRequested | stopped _ | halted => rfl

/-- Ticks that are truthful count on from the clock, one by one. -/
theorem ticks_of_truthful {r : Replica} {events : List Event} (h : r.Truthful events) :
    ticks events = List.range' (r.registers.clock + 1) (ticks events).length ∧
      (r.replay events).registers.clock = r.registers.clock + (ticks events).length := by
  induction events generalizing r with
  | nil => exact ⟨rfl, rfl⟩
  | cons event rest ih =>
    obtain ⟨hevent, hrest⟩ := h
    obtain ⟨hticks, hclock⟩ := ih hrest
    change _ ∧ ((r.hear event).replay rest).registers.clock = _
    cases htick : ticks [event] with
    | nil =>
      have hsplit : ticks (event :: rest) = ticks rest := by
        rw [ticks, ← List.singleton_append, List.filterMap_append]
        exact congrArg (· ++ ticks rest) htick
      rw [clock_hear_of_not_tick r htick] at hticks hclock
      rw [hsplit]
      exact ⟨hticks, hclock⟩
    | cons clock others =>
      cases event with
      | tick told =>
        obtain rfl : told = r.registers.clock + 1 := hevent
        have hsplit : ticks (.tick (r.registers.clock + 1) :: rest) =
            (r.registers.clock + 1) :: ticks rest := rfl
        change ticks rest = List.range' (r.registers.clock + 1 + 1) _ at hticks
        change _ = r.registers.clock + 1 + _ at hclock
        rw [hsplit, List.length_cons, List.range'_succ, ← hticks, hclock]
        exact ⟨rfl, by omega⟩
      | register _ _ _ | cell _ _ _ | moved _ _ _ | output _ | inputRequested | stopped _
      | halted => cases htick

end Replica

/-! ## Registers -/

namespace Machine

def replica (m : Machine) : Replica := ⟨m.registers, m.memory⟩

open Replica

theorem told_openPhase (m : Machine) : m.replica.Told m.openPhase.2 m.openPhase.1.replica := by
  unfold openPhase
  split
  · exact told_nil _
  · exact told_cons rfl (told_nil _)

theorem told_move (m : Machine) (target : Register) (manner : Manner) (source : Source)
    (value : Nat) :
    m.replica.Told (m.move target manner source value).2
      (m.move target manner source value).1.replica := by
  have hdated (taken : Nat) : m.registers.clock = (m.registers.set target taken).clock :=
    (Registers.clock_set m.registers target taken).symm
  cases manner <;> exact told_cons trivial (told_cons (hdated _) (told_nil _))

theorem told_count (m : Machine) (sc : Nat) :
    m.replica.Told (m.count sc).2 (m.count sc).1.replica := by
  unfold count
  split
  · exact told_nil _
  · have hset : m.registers.set .sc (sc % 4) = m.registers.set .sc sc := by
      simp [Registers.set]
    have hheard : m.replica.hear (.register .sc (sc % 4) .inPlace) =
        (m.setRegister .sc sc).replica := by
      simp only [hear, replica, hset, setRegister]
    exact told_cons trivial (hheard ▸ told_nil _)

theorem told_assign (m : Machine) (q : Register) (value : Nat) :
    m.replica.Told (m.assign q value).2 (m.assign q value).1.replica := by
  unfold assign
  split
  · exact told_nil _
  · exact m.told_move _ _ _ _

theorem told_enter (m : Machine) (p : Phase) :
    m.replica.Told (m.enter p).2 (m.enter p).1.replica :=
  (m.told_count 0).append ((m.count 0).1.told_assign .f p.code)

theorem told_updateFlags (m : Machine) :
    m.replica.Told m.updateFlags.2 m.updateFlags.1.replica :=
  ((m.told_assign .z _).append (told_assign _ .s _)).append (told_assign _ .v _)

theorem told_close (m : Machine) (closing : Closing) :
    m.replica.Told (m.close closing).2 (m.close closing).1.replica := by
  cases closing with
  | afterFetch | afterIndexed | afterIndirect => exact m.told_enter _
  | nextInstruction setsFlags =>
    cases setsFlags with
    | false => exact m.told_enter .fetch
    | true => exact (m.told_enter .fetch).append (told_updateFlags _)

end Machine

/-! ## Micro-operations -/

theorem Memory.store_of_lt {m : Memory} {address : Nat} (h : address < m.size) (value : Nat) :
    m.store address value = ⟨m.cells.setIfInBounds address value⟩ := by
  have hfits : address + 1 - m.size = 0 := by omega
  simp [store, grow, hfits]

namespace MicroOp

open Replica Machine

theorem told_performRead (m : Machine) :
    m.replica.Told (performRead m).2.1 (performRead m).1.replica := by
  cases hcell : m.memory.get? m.registers.ar with
  | none =>
    rw [performRead_of_none hcell]
    exact told_nil _
  | some value =>
    rw [performRead_of_some hcell]
    exact told_cons hcell (m.told_move .br .load .cell value)

theorem told_performWrite (m : Machine) :
    m.replica.Told (performWrite m).2.1 (performWrite m).1.replica := by
  rcases Nat.lt_or_ge m.registers.ar m.memory.size with hlt | hle
  · rw [performWrite_of_lt hlt]
    have hheard : m.replica.hear
        (.cell m.registers.ar (Word.significant m.registers.br) .write) = (stored m).replica := by
      simp only [hear, replica, Memory.store_of_lt hlt, stored]
    exact told_cons rfl (told_cons trivial (hheard ▸ told_cons rfl (told_nil _)))
  · rw [performWrite_of_le hle]
    exact told_cons rfl (told_nil _)

theorem told_performInput (m : Machine) :
    m.replica.Told (performInput m).2.1 (performInput m).1.replica := by
  cases hinput : m.input with
  | none =>
    rw [performInput_of_none hinput]
    dsimp only
    split
    · exact told_nil _
    · exact told_cons trivial (told_nil _)
  | some value =>
    rw [performInput_of_some hinput]
    exact told_move { m with input := none, awaitsInput := false } .br .load .input value

/-- The events of a micro-operation tell what it does, whether it is cut short or not. -/
theorem told_perform (m : Machine) (op : MicroOp) :
    m.replica.Told (perform m op).2.1 (perform m op).1.replica := by
  cases op with
  | observe q => exact told_cons rfl (told_nil _)
  | transfer target manner e => exact m.told_move target manner _ _
  | shiftPair direction => exact (m.told_move .a .modify _ _).append (told_move _ .x .modify _ _)
  | watch addend | forgetOverflow => exact told_nil _
  | readCell => exact told_performRead m
  | writeCell => exact told_performWrite m
  | takeInput => exact told_performInput m
  | output => exact told_cons rfl (told_nil _)
  | halt => exact (m.told_move .h .load _ _).append (told_cons trivial (told_nil _))

theorem told_performAll (m : Machine) (ops : List MicroOp) :
    m.replica.Told (performAll m ops).2.1 (performAll m ops).1.replica := by
  induction ops generalizing m with
  | nil => exact told_nil _
  | cons op rest ih =>
    have hfirst := told_perform m op
    rw [performAll_cons]
    generalize perform m op = performed at hfirst ⊢
    obtain ⟨after, events, stop⟩ := performed
    cases stop with
    | some stop => exact hfirst
    | none => exact hfirst.append (ih after)

end MicroOp

/-! ## Micro-steps -/

namespace Machine

open Replica

theorem told_stepAt {m after : Machine} {ops : List MicroOp} {events : List Event}
    {stop : Option Stop} (hops : MicroOp.performAll m.opened ops = (after, events, stop)) :
    m.replica.Told (m.openPhase.2 ++ events) after.replica := by
  have hperformed := MicroOp.told_performAll m.opened ops
  rw [hops] at hperformed
  exact m.told_openPhase.append hperformed

/-- The events of a micro-step tell what it does, also when it fails, halts or waits. -/
theorem told_microStep (m : Machine) :
    m.replica.Told m.microStep.events m.microStep.machine.replica := by
  by_cases hrun : m.status = .running
  · have hstepped := stepped_microStep hrun
    generalize m.microStep = act at hstepped
    cases hstepped with
    | undecodable hsteps => exact m.told_openPhase.append (told_cons trivial (told_nil _))
    | awaits hsteps hops => exact told_stepAt hops
    | faults hsteps hops => exact (told_stepAt hops).append (told_cons trivial (told_nil _))
    | halts hsteps hops hhalted => exact told_stepAt hops
    | counts hsteps hops hnot hmore => exact (told_stepAt hops).append (told_count _ _)
    | closes hsteps hops hnot hlast => exact (told_stepAt hops).append (told_close _ _)
  · rw [microStep_of_not_running hrun]
    exact told_nil _

end Machine

/-! ## Runs -/

/-- What is done with a machine from outside. -/
inductive Drive
  | microStep
  | supply (value : Nat)

/-- A machine with all that a listener has been told since its start. -/
structure Heard where
  machine : Machine
  events : List Event := []

def Heard.after (h : Heard) : Drive → Heard
  | .microStep => ⟨h.machine.microStep.machine, h.events ++ h.machine.microStep.events⟩
  | .supply value => { h with machine := h.machine.supply value }

/-- A machine that starts from a memory, after all that is done with it. -/
def heard (memory : Memory) (drives : List Drive) : Heard :=
  drives.foldl Heard.after { machine := .ofMemory memory }

theorem told_foldl {r : Replica} {h : Heard} (htold : r.Told h.events h.machine.replica)
    (drives : List Drive) :
    r.Told (drives.foldl Heard.after h).events (drives.foldl Heard.after h).machine.replica := by
  induction drives generalizing h with
  | nil => exact htold
  | cons drive rest ih =>
    apply ih
    cases drive with
    | microStep => exact htold.append h.machine.told_microStep
    | supply value => exact htold

/-- The events are a complete and truthful account of a run. Replaying them gives the registers,
the clock and the memory of the machine, each event says what is so at its place, and the phases
are counted from one without gap or repetition. -/
theorem replay_heard (memory : Memory) (drives : List Drive) :
    ({ memory } : Replica).replay (heard memory drives).events =
        (heard memory drives).machine.replica ∧
      ({ memory } : Replica).Truthful (heard memory drives).events ∧
      Replica.ticks (heard memory drives).events =
        List.range' 1 (heard memory drives).machine.registers.clock := by
  have htold : ({ memory } : Replica).Told (heard memory drives).events
      (heard memory drives).machine.replica :=
    told_foldl (Replica.told_nil _) drives
  obtain ⟨hticks, hclock⟩ := Replica.ticks_of_truthful htold.truthful
  refine ⟨htold.replays, htold.truthful, ?_⟩
  rw [htold.replays] at hclock
  change (heard memory drives).machine.registers.clock = 0 + _ at hclock
  rw [hclock, Nat.zero_add]
  exact hticks

end TrnComputer
