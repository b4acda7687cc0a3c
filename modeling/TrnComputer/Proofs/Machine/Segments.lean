import TrnComputer.Proofs.Machine.Addressing
import TrnComputer.Proofs.Machine.Instructions

/-! # Segments of the run of an instruction

* `Machine.Passes`: a run passes another machine after so many micro-steps.
* `Machine.CutShort`: a run is cut short after at most so many micro-steps.
* `Machine.comesTo_phase`: a run that begins with a phase, by what the micro-operations of the phase
  do in a row; `cutBy` says whether these are cut short.
* `Machine.passes_readable`, `Machine.cutShort_fetch`, `Machine.cutShort_address`: a run that begins
  with an instruction passes the machine in front of the execution, or is cut short for the lack of
  a cell.
-/

namespace TrnComputer
set_option autoImplicit false

/-- How a micro-step ends that is cut short. -/
def Stop.result : Stop → Except MachineError Tick
  | awaitsInput => .ok .awaitsInput
  | fault cause => .error (.fault cause)

theorem Stop.result_ne_proceeds (why : Stop) : why.result ≠ .ok .proceeds := by
  cases why with
  | awaitsInput => exact fun h => by cases h
  | fault cause => exact fun h => by cases h

namespace Machine

/-- The run of an instruction from `n` passes `k` after `count` micro-steps. -/
def Passes (n k : Machine) (count : Nat) : Prop :=
  ∃ earlier : Activity, ∀ fuel, n.runUntil atInstruction (fuel + count) =
    earlier.after (k.runUntil atInstruction fuel)

/-- The run of an instruction from `n` is cut short after at most `count` micro-steps, where
programs see `t`. -/
def CutShort (n : Machine) (why : Stop) (t : Visible) (count : Nat) : Prop :=
  ∀ fuel, (n.runUntil atInstruction (fuel + count)).result = why.result ∧
    (n.runUntil atInstruction (fuel + count)).machine.visible = t

section
variable {n k l : Machine} {why : Stop} {t : Visible} {a b : Nat}

theorem Passes.trans (h : n.Passes k a) (hmore : k.Passes l b) : n.Passes l (a + b) := by
  obtain ⟨earlier, hearlier⟩ := h
  obtain ⟨later, hlater⟩ := hmore
  refine ⟨earlier.after later, fun fuel => ?_⟩
  have hfuel : fuel + (a + b) = fuel + b + a := by omega
  rw [hfuel, hearlier, hlater]
  simp only [Activity.after, List.append_assoc]

theorem Passes.cutShort (h : n.Passes k a) (hcut : k.CutShort why t b) :
    n.CutShort why t (a + b) := by
  obtain ⟨earlier, hearlier⟩ := h
  intro fuel
  have hfuel : fuel + (a + b) = fuel + b + a := by omega
  rw [hfuel, hearlier]
  exact hcut fuel

theorem CutShort.mono (h : n.CutShort why t a) (hle : a ≤ b) : n.CutShort why t b := by
  intro fuel
  have hfuel : fuel + b = fuel + (b - a) + a := by omega
  rw [hfuel]
  exact h (fuel + (b - a))

theorem passes_microStep (hresult : n.microStep.result = .ok .proceeds)
    (hinside : atInstruction n.microStep.machine = false) : n.Passes n.microStep.machine 1 :=
  ⟨n.microStep, fun fuel => runUntil_of_proceeds fuel hresult hinside⟩

theorem cutShort_microStep (hresult : n.microStep.result = why.result)
    (hvisible : n.microStep.machine.visible = t) : n.CutShort why t 1 := by
  intro fuel
  rw [runUntil_of_stop fuel fun h => absurd (hresult.symm.trans h) why.result_ne_proceeds]
  exact ⟨hresult, hvisible⟩

end

/-! ## Phases -/

section
variable {m after : Machine} {steps : List (List MicroOp)} {closing : Closing}
  {ops : List MicroOp} {rest : List (List MicroOp)} {events : List Event} {why : Stop}

theorem visible_opened (m : Machine) : m.opened.visible = m.visible := by
  rw [opened_eq]
  rfl

theorem microStep_of_cut (hrun : m.status = .running)
    (hsteps : m.opened.phaseSteps = .ok (steps, closing))
    (hleft : steps.drop m.registers.sc = ops :: rest)
    (hcut : MicroOp.performAll m.opened ops = (after, events, some why)) :
    m.microStep.result = why.result ∧ m.microStep.machine.visible = after.visible := by
  have hsc : m.opened.registers.sc = m.registers.sc := by rw [opened_eq]
  have hat := (stepAt_of_drop hleft).1
  rw [microStep_of_running hrun, hsteps]
  simp only [stepPhaseOpen, hsc, hat, hcut]
  cases why with
  | awaitsInput => exact ⟨rfl, rfl⟩
  | fault cause => exact ⟨rfl, rfl⟩

/-- A micro-step that is not the last of its phase passes the machine with the step counter
counted up. -/
theorem passes_count (hrun : m.status = .running)
    (hsteps : m.opened.phaseSteps = .ok (steps, closing))
    (hleft : steps.drop m.registers.sc = ops :: rest) (hrest : rest ≠ []) (hhalt : .halt ∉ ops)
    (hgo : MicroOp.performAll m.opened ops = (after, events, none)) :
    m.Passes (after.setRegister .sc (m.registers.sc + 1)) 1 := by
  obtain ⟨hresult, -, hmachine⟩ := microStep_of_go hrun hsteps hleft hhalt hgo
  rw [if_neg hrest] at hmachine
  obtain ⟨-, hopen, -, -⟩ := ready_count hrun hsteps hleft hrest hhalt (by rw [hgo])
  rw [← hmachine] at hopen ⊢
  exact passes_microStep hresult (atInstruction_of_open hopen)

/-- The micro-operations that are left of a phase do the same whatever the step counter is. -/
theorem performAll_left (hsteps : m.opened.phaseSteps = .ok (steps, closing))
    (hleft : steps.drop m.registers.sc = ops :: rest) (n : Machine) (k : Nat) :
    MicroOp.performAll (n.setRegister .sc k) rest.flatten =
      ((MicroOp.performAll n rest.flatten).1.setRegister .sc k,
        (MicroOp.performAll n rest.flatten).2) := by
  have hfree := count_free hsteps (m.registers.sc + 1)
  rw [(stepAt_of_drop hleft).2.2.2] at hfree
  exact MicroOp.performAll_count (fun op hop => (hfree op hop).1) (fun op hop => (hfree op hop).2)
    n k

/-- What a run from `m` comes to in at most `count` micro-steps when the micro-operations that are
left of the phase come to a given end. -/
def ComesTo (m : Machine) (closing : Closing) (count : Nat) :
    Machine × List Event × Option Stop → Prop
  | (after, _, some why) => m.CutShort why after.visible count
  | (after, _, none) =>
    atInstruction (after.close closing).1 = false → m.Passes (after.close closing).1 count

theorem Passes.comesTo {n k : Machine} {a b : Nat} (h : n.Passes k a) {last : Machine}
    {now later : List Event} {stop : Option Stop} (hlast : k.ComesTo closing b (last, now, stop)) :
    n.ComesTo closing (a + b) (last, later, stop) := by
  cases stop with
  | some why => exact h.cutShort hlast
  | none => exact fun hinside => h.trans (hlast hinside)

theorem comesTo_count {n last : Machine} {count k : Nat} {stop : Option Stop}
    (h : n.ComesTo closing count (last.setRegister .sc k, events, stop)) :
    n.ComesTo closing count (last, events, stop) := by
  cases stop with
  | some why => exact h
  | none =>
    intro hinside
    rw [← close_count last k] at hinside ⊢
    exact h hinside

/-- What is left of a phase is carried out in a row. -/
theorem comesTo_rest (hhalt : .halt ∉ steps.flatten) (hrun : m.status = .running)
    (hsteps : m.opened.phaseSteps = .ok (steps, closing))
    (hleft : steps.drop m.registers.sc = ops :: rest) :
    m.ComesTo closing (rest.length + 1) (MicroOp.performAll m.opened (ops :: rest).flatten) := by
  -- Induction on the micro-steps after the next; each leaves the machine with the phase open.
  induction rest generalizing m ops with
  | nil =>
    obtain ⟨-, hmem, -, -⟩ := stepAt_of_drop hleft
    have hhalt' : .halt ∉ ops := fun h => hhalt (List.mem_flatten.2 ⟨ops, hmem, h⟩)
    rw [List.flatten_cons, List.flatten_nil, List.append_nil]
    cases hops : MicroOp.performAll m.opened ops with
    | mk after told =>
      obtain ⟨events, stop⟩ := told
      cases stop with
      | some why =>
        obtain ⟨hresult, hvisible⟩ := microStep_of_cut hrun hsteps hleft hops
        exact cutShort_microStep hresult hvisible
      | none =>
        intro hinside
        obtain ⟨hresult, -, hmachine⟩ := microStep_of_go hrun hsteps hleft hhalt' hops
        rw [if_pos rfl] at hmachine
        rw [← hmachine] at hinside ⊢
        exact passes_microStep hresult hinside
  | cons next rest ih =>
    obtain ⟨-, hmem, -, hdrop⟩ := stepAt_of_drop hleft
    have hhalt' : .halt ∉ ops := fun h => hhalt (List.mem_flatten.2 ⟨ops, hmem, h⟩)
    rw [List.flatten_cons, MicroOp.performAll_append]
    cases hops : MicroOp.performAll m.opened ops with
    | mk after told =>
      obtain ⟨events, stop⟩ := told
      cases stop with
      | some why =>
        obtain ⟨hresult, hvisible⟩ := microStep_of_cut hrun hsteps hleft hops
        exact (cutShort_microStep hresult hvisible).mono (by omega)
      | none =>
        have hpasses := passes_count hrun hsteps hleft (List.cons_ne_nil _ _) hhalt' hops
        obtain ⟨hstatus, hopen, hsame, hsc⟩ :=
          ready_count hrun hsteps hleft (List.cons_ne_nil _ _) hhalt' (by rw [hops])
        have hlast := @ih _ next hstatus (by rw [opened_of_open hopen]; exact hsame)
          (by rw [hsc]; exact hdrop)
        rw [opened_of_open hopen, performAll_left hsteps hleft after] at hlast
        have hcount : (next :: rest).length + 1 = 1 + (rest.length + 1) := by
          rw [List.length_cons]
          omega
        rw [hcount]
        exact hpasses.comesTo (comesTo_count hlast)

/-- A run that begins with a phase carries out the micro-operations of the phase in a row. -/
theorem comesTo_phase (hhalt : .halt ∉ steps.flatten) (hrun : m.status = .running)
    (hsc : m.registers.sc = 0) (hsteps : m.opened.phaseSteps = .ok (steps, closing)) :
    m.ComesTo closing steps.length (MicroOp.performAll m.opened steps.flatten) := by
  obtain ⟨ops, rest, rfl⟩ := List.exists_cons_of_ne_nil (ne_nil_of_phaseSteps hsteps)
  apply comesTo_rest hhalt hrun hsteps
  rw [hsc]
  rfl

end

end Machine

/-! ## Micro-operations that can be cut short -/

/-- Why some micro-operations are cut short and what programs see then, if they are. -/
def cutBy (performed : Machine × List Event × Option Stop) : Option (Stop × Visible) :=
  performed.2.2.map fun why => (why, performed.1.visible)

namespace MicroOp

/-- A micro-operation that is never cut short. -/
def Quiet (op : MicroOp) : Prop := op ∉ [readCell, writeCell, takeInput]

instance : DecidablePred Quiet := fun op => inferInstanceAs (Decidable (op ∉ _))

variable {n : Machine} {front back : List MicroOp}

theorem perform_quiet {op : MicroOp} (h : op.Quiet) (n : Machine) : (perform n op).2.2 = none := by
  cases op with
  | readCell | writeCell | takeInput => exact absurd h (by decide)
  | _ => rfl

theorem cutBy_stop {op : MicroOp} {after : Machine} {events : List Event} {why : Stop}
    (h : perform n op = (after, events, some why)) :
    cutBy (performAll n (op :: back)) = some (why, after.visible) := by
  rw [performAll_cons, h]
  rfl

theorem cutBy_go {op : MicroOp} {after : Machine} {events : List Event}
    (h : perform n op = (after, events, none)) :
    cutBy (performAll n (op :: back)) = cutBy (performAll after back) := by
  rw [performAll_cons, h]
  rfl

theorem cutBy_append (h : ∀ op ∈ front, op.Quiet) :
    cutBy (performAll n (front ++ back)) = cutBy (performAll (performAll n front).1 back) := by
  induction front generalizing n with
  | nil => rfl
  | cons op front ih =>
    obtain ⟨hop, hfront⟩ := List.forall_mem_cons.mp h
    have hgo := perform_quiet hop n
    rw [List.cons_append, performAll_cons, performAll_cons]
    generalize perform n op = performed at hgo
    obtain ⟨after, events, stop⟩ := performed
    obtain rfl : stop = none := hgo
    exact ih hfront

theorem cutBy_of_quiet (h : ∀ op ∈ back, op.Quiet) : cutBy (performAll n back) = none := by
  have hend : cutBy (performAll n (back ++ [])) = _ := cutBy_append h
  rw [List.append_nil] at hend
  rw [hend]
  rfl

theorem cutBy_readCell (h : ∀ op ∈ back, op.Quiet) :
    cutBy (performAll n (.readCell :: back)) =
      if n.memory.size ≤ n.registers.ar then
        some (.fault (.memory ⟨n.registers.ar, n.memory.size⟩), n.visible)
      else none := by
  cases hcell : n.memory.get? n.registers.ar with
  | none =>
    rw [if_pos (Memory.get?_eq_none_iff.mp hcell)]
    exact cutBy_stop (performRead_of_none hcell)
  | some value =>
    have hlt : ¬n.memory.size ≤ n.registers.ar := Nat.not_le_of_lt (Memory.lt_size_of_get? hcell)
    have hgo : perform n .readCell = _ := performRead_of_some hcell
    rw [if_neg hlt, cutBy_go hgo]
    exact cutBy_of_quiet h

theorem cutBy_writeCell (h : ∀ op ∈ back, op.Quiet) :
    cutBy (performAll n (.writeCell :: back)) =
      if n.memory.size ≤ n.registers.ar then
        some (.fault (.memory ⟨n.registers.ar, n.memory.size⟩), n.visible)
      else none := by
  by_cases hle : n.memory.size ≤ n.registers.ar
  · rw [if_pos hle]
    exact cutBy_stop (performWrite_of_le hle)
  · have hgo : perform n .writeCell = _ := performWrite_of_lt (Nat.lt_of_not_le hle)
    rw [if_neg hle, cutBy_go hgo]
    exact cutBy_of_quiet h

theorem cutBy_takeInput (h : ∀ op ∈ back, op.Quiet) :
    cutBy (performAll n (.takeInput :: back)) =
      if n.input = none then some (.awaitsInput, n.visible) else none := by
  cases hinput : n.input with
  | none =>
    have hstop : perform n .takeInput = _ := performInput_of_none hinput
    rw [if_pos rfl, cutBy_stop hstop]
    rfl
  | some value =>
    have hgo : perform n .takeInput = _ := performInput_of_some hinput
    rw [if_neg (by simp), cutBy_go hgo]
    exact cutBy_of_quiet h

end MicroOp

/-! ## Reading an instruction and its address -/

namespace Machine

section
variable {m n : Machine} {steps : List (List MicroOp)} {closing : Closing} {p : Phase}
  {w b e : Nat} {t : Visible} {why : Stop}

theorem cutShort_phase (hhalt : .halt ∉ steps.flatten) (hrun : m.status = .running)
    (hsc : m.registers.sc = 0) (hsteps : m.opened.phaseSteps = .ok (steps, closing))
    (hcut : cutBy (MicroOp.performAll m.opened steps.flatten) = some (why, t)) :
    m.CutShort why t steps.length := by
  have hcomes := comesTo_phase hhalt hrun hsc hsteps
  generalize MicroOp.performAll m.opened steps.flatten = performed at hcut hcomes
  obtain ⟨after, events, stop⟩ := performed
  cases stop with
  | none => cases hcut
  | some found =>
    cases hcut
    exact hcomes

theorem passes_phase (hhalt : .halt ∉ steps.flatten) (hrun : m.status = .running)
    (hsc : m.registers.sc = 0) (hsteps : m.opened.phaseSteps = .ok (steps, closing))
    (hclosing : ∀ b, closing ≠ .nextInstruction b) {after : Machine} {out : List Nat}
    (hafter : completed (MicroOp.performAll m.opened steps.flatten) = some (after, out))
    (hstatus : after.status = .running) (hfits : after.registers.Fits) :
    ∃ k, Ready (nextPhase after.registers.ir closing) after.registers.ir after.registers.br
        after.registers.ar after.visible k ∧
      m.Passes k steps.length := by
  have hne := nextPhase_ne_fetch hclosing after.registers.ir
  have hready := ready_close closing hstatus hfits hne
  have hinside : atInstruction (after.close closing).1 = false := by
    simp [atInstruction, hready.phase, hne]
  have hcomes := comesTo_phase hhalt hrun hsc hsteps
  generalize MicroOp.performAll m.opened steps.flatten = performed at hafter hcomes
  obtain ⟨last, events, stop⟩ := performed
  cases stop with
  | some found => cases hafter
  | none =>
    cases hafter
    exact ⟨_, hready, hcomes hinside⟩

theorem phaseSteps_opened (hf : m.registers.f = p) (hne : p ≠ .execute) :
    m.opened.phaseSteps = { m with registers := { m.registers with f := p } }.phaseSteps := by
  have hopened : m.opened.registers.f = p := by
    rw [opened_eq]
    exact hf
  unfold phaseSteps
  rw [hopened]
  cases p with
  | execute => exact absurd rfl hne
  | fetch | indexed | indirect => rfl

theorem passes_fetch (h : m.AtInstruction) (hword : m.visible.pc < m.visible.memory.size) :
    ∃ k, Ready (nextPhase m.visible.word .afterFetch) m.visible.word m.visible.word
        (m.visible.word % 2 ^ 13) m.visible.advanced k ∧ m.Passes k 3 := by
  have hsteps : m.opened.phaseSteps = .ok (Microcode.fetch, .afterFetch) :=
    phaseSteps_opened h.fetching (by decide)
  have hcell : m.opened.visible.cell m.opened.registers.pc = some m.visible.word := by
    rw [opened_eq]
    exact Visible.cell_of_lt hword
  have hcompleted := completed_fetch (fits_opened h.fits)
  rw [hcell, Option.map_some] at hcompleted
  have hlt : m.visible.word < 2 ^ 20 := MicroOp.cell_lt hcell
  have hfits := fits_fetched (fits_opened h.fits) hlt
  have hrun : (m.opened.fetched m.visible.word).status = .running := by
    rw [opened_eq]
    exact h.running
  have hvisible : (m.opened.fetched m.visible.word).visible = m.visible.advanced := by
    rw [opened_eq]
    rfl
  rw [← hvisible]
  exact passes_phase (by decide) h.running h.counted hsteps (by simp) hcompleted hrun hfits

theorem cutShort_fetch (h : m.AtInstruction) (hword : m.visible.memory.size ≤ m.visible.pc) :
    m.CutShort (.fault (.memory ⟨m.visible.pc, m.visible.memory.size⟩)) m.visible 3 := by
  have hsteps : m.opened.phaseSteps = .ok (Microcode.fetch, .afterFetch) :=
    phaseSteps_opened h.fetching (by decide)
  have hpc : m.registers.pc < 2 ^ 13 := h.fits .pc
  have har : m.registers.pc % 2 ^ 13 % 2 ^ 16 = m.registers.pc := by omega
  have hcut : cutBy (MicroOp.performAll m.opened Microcode.fetch.flatten) =
      some (.fault (.memory ⟨m.visible.pc, m.visible.memory.size⟩), m.visible) := by
    change cutBy (MicroOp.performAll m.opened (Microcode.copy .pc .ar ++ .readCell :: _)) = _
    rw [MicroOp.cutBy_append (by decide), MicroOp.cutBy_readCell (by decide), opened_eq]
    change (if m.memory.size ≤ m.registers.pc % 2 ^ 13 % 2 ^ 16 then
      some (Stop.fault (.memory ⟨m.registers.pc % 2 ^ 13 % 2 ^ 16, m.memory.size⟩), m.visible)
      else none) = _
    rw [har]
    exact if_pos hword
  exact cutShort_phase (by decide) h.running h.counted hsteps hcut

theorem passes_indexed (h : Ready .indexed w b e t n) :
    ∃ k, Ready (nextPhase w .afterIndexed) w b (w % 2 ^ 13 + t.i) t k ∧ n.Passes k 1 := by
  have hsteps : n.opened.phaseSteps = .ok (Microcode.indexed, .afterIndexed) :=
    phaseSteps_opened h.phase (by decide)
  have hcompleted := completed_indexed (fits_opened h.fits)
  have hrun : n.opened.status = .running := by rw [status_opened, h.running]
  have hfits : ({ n.opened.registers with
      ar := n.opened.registers.operand + n.opened.registers.i } : Registers).Fits := by
    intro q
    have hold := fits_opened h.fits q
    cases q with
    | ar => exact (fits_opened h.fits).indexedOperand_lt
    | _ => exact hold
  have hnext := passes_phase (by decide) h.running h.counted hsteps (by simp) hcompleted hrun hfits
  rw [opened_eq] at hnext
  rw [← h.instruction, ← h.buffer, ← h.visible]
  exact hnext

theorem cell_opened (h : Ready p w b e t n) :
    n.opened.visible.cell n.opened.registers.ar = t.cell e := by
  rw [← h.visible, ← h.address, opened_eq]
  rfl

theorem passes_indirect (h : Ready .indirect w b e t n) {c : Nat} (hc : t.cell e = some c) :
    ∃ k, Ready .execute w c (c % 2 ^ 13) t k ∧ n.Passes k 2 := by
  have hsteps : n.opened.phaseSteps = .ok (Microcode.indirect, .afterIndirect) :=
    phaseSteps_opened h.phase (by decide)
  have hcompleted := completed_indirect n.opened
  rw [cell_opened h, hc, Option.map_some] at hcompleted
  have hrun : n.opened.status = .running := by rw [status_opened, h.running]
  have hfits : ({ n.opened.registers with br := c, ar := c % 2 ^ 13 } : Registers).Fits := by
    intro q
    have hold := fits_opened h.fits q
    cases q with
    | br => exact MicroOp.cell_lt hc
    | ar => exact Nat.lt_of_lt_of_le (Nat.mod_lt c (by decide)) (by decide)
    | _ => exact hold
  have hnext := passes_phase (by decide) h.running h.counted hsteps (by simp) hcompleted hrun hfits
  rw [opened_eq] at hnext
  rw [← h.instruction, ← h.visible]
  exact hnext

theorem cutShort_indirect (h : Ready .indirect w b e t n) (hcell : t.memory.size ≤ e) :
    n.CutShort (.fault (.memory ⟨e, t.memory.size⟩)) t 2 := by
  have hsteps : n.opened.phaseSteps = .ok (Microcode.indirect, .afterIndirect) :=
    phaseSteps_opened h.phase (by decide)
  have hcut : cutBy (MicroOp.performAll n.opened Microcode.indirect.flatten) =
      some (.fault (.memory ⟨e, t.memory.size⟩), t) := by
    change cutBy (MicroOp.performAll n.opened (.readCell :: _)) = _
    rw [MicroOp.cutBy_readCell (by decide), visible_opened]
    rw [← h.visible, ← h.address] at hcell ⊢
    rw [opened_eq]
    exact if_pos hcell
  exact cutShort_phase (by decide) h.running h.counted hsteps hcut

end

/-! ## Up to the execution of an instruction -/

section
variable {m : Machine}

/-- A run that begins with an instruction passes the machine in front of the reading of an indirect
address, or of the execution. -/
theorem passes_address (h : m.AtInstruction) (hword : m.visible.pc < m.visible.memory.size) :
    ∃ k count, count ≤ 4 ∧ m.Passes k count ∧
      Ready (if Word.isIndirect m.visible.word then .indirect else .execute) m.visible.word
        m.visible.word m.visible.address m.visible.advanced k := by
  obtain ⟨k, hready, hpasses⟩ := passes_fetch h hword
  unfold nextPhase at hready
  unfold Visible.address
  by_cases hindexed : Word.isIndexed m.visible.word = true
  · rw [if_pos hindexed] at hready ⊢
    obtain ⟨l, hready, hmore⟩ := passes_indexed hready
    exact ⟨l, 4, Nat.le_refl 4, hpasses.trans hmore, hready⟩
  · rw [if_neg hindexed] at hready ⊢
    exact ⟨k, 3, by decide, hpasses, hready⟩

theorem cutShort_address (h : m.AtInstruction) (hword : m.visible.pc < m.visible.memory.size)
    (hindirect : Word.isIndirect m.visible.word = true)
    (haddress : m.visible.memory.size ≤ m.visible.address) :
    m.CutShort (.fault (.memory ⟨m.visible.address, m.visible.memory.size⟩))
      m.visible.advanced 6 := by
  obtain ⟨k, count, hcount, hpasses, hready⟩ := passes_address h hword
  rw [if_pos hindirect] at hready
  exact (hpasses.cutShort (cutShort_indirect hready haddress)).mono (by omega)

/-- A run that begins with an instruction whose cells can be read passes the machine in front of the
execution. -/
theorem passes_readable (h : m.AtInstruction) (hreadable : m.visible.Readable) :
    ∃ k count, count ≤ 6 ∧ m.Passes k count ∧
      Ready .execute m.visible.word m.visible.last m.visible.effective m.visible.advanced k := by
  obtain ⟨k, count, hcount, hpasses, hready⟩ := passes_address h hreadable.word
  unfold Visible.effective Visible.last
  by_cases hindirect : Word.isIndirect m.visible.word = true
  · simp only [if_pos hindirect] at hready ⊢
    have hcell : m.visible.advanced.cell m.visible.address = _ :=
      Visible.cell_of_lt (hreadable.address hindirect)
    obtain ⟨l, hready, hmore⟩ := passes_indirect hready hcell
    exact ⟨l, count + 2, by omega, hpasses.trans hmore, hready⟩
  · simp only [if_neg hindirect] at hready ⊢
    exact ⟨k, count, by omega, hpasses, hready⟩

end

end Machine

end TrnComputer
