import TrnComputer.Proofs.Machine.Operations

/-! # Instructions as a whole

* `Machine.AtInstruction`: a machine in front of an instruction.
* `Machine.Ready`: what reading an instruction and its address hands on to the next phase.
* `Machine.visible_stepInstruction`: the micro-steps of an instruction do to the visible part of the
  machine what `Visible.step` does in one go.
-/

namespace TrnComputer
set_option autoImplicit false

namespace Machine

/-- A running machine in front of an instruction, with its registers below their bounds. -/
structure AtInstruction (m : Machine) : Prop where
  running : m.status = .running
  closed : m.phaseOpen = false
  fetching : m.registers.f = .fetch
  counted : m.registers.sc = 0
  fits : m.registers.Fits

/-- A machine in front of a later phase `p` of the instruction `w`. The last word that was read is
`b`, the address so far is `e`, and programs see `t`. -/
structure Ready (p : Phase) (w b e : Nat) (t : Visible) (n : Machine) : Prop where
  running : n.status = .running
  closed : n.phaseOpen = false
  phase : n.registers.f = p
  counted : n.registers.sc = 0
  fits : n.registers.Fits
  instruction : n.registers.ir = w
  buffer : n.registers.br = b
  address : n.registers.ar = e
  visible : n.visible = t

theorem atInstruction_of_open {n : Machine} (h : n.phaseOpen = true) : n.atInstruction = false := by
  simp [atInstruction, atBoundary, h]

theorem ready_close (closing : Closing) {after : Machine} (hrun : after.status = .running)
    (hfits : after.registers.Fits) (hnext : nextPhase after.registers.ir closing ≠ .fetch) :
    Ready (nextPhase after.registers.ir closing) after.registers.ir after.registers.br
      after.registers.ar after.visible (after.close closing).1 := by
  have hclosing : closing ≠ .nextInstruction true := fun he => hnext (by rw [he]; rfl)
  have hclose : (after.close closing).1 = after.entered (nextPhase after.registers.ir closing) := by
    rw [close_machine, if_neg hclosing]
  rw [hclose]
  exact {
    running := hrun
    closed := rfl
    phase := rfl
    counted := rfl
    fits := fits_entered hfits _
    instruction := rfl
    buffer := rfl
    address := rfl
    visible := rfl }

/-! ## Reading an instruction and its address -/

/-- The machine after an instruction is read. -/
def fetched (n : Machine) (w : Nat) : Machine :=
  { n with registers := { n.registers with
      br := w, ir := w, ar := w % 2 ^ 13, pc := (n.registers.pc + 1) % 2 ^ 13 } }

theorem completed_fetch {n : Machine} (h : n.registers.Fits) :
    completed (MicroOp.performAll n Microcode.fetch.flatten) =
      (n.visible.cell n.registers.pc).map fun w => (n.fetched w, []) := by
  have hpc : n.registers.pc < 2 ^ 13 := h .pc
  have har : n.registers.pc % 2 ^ 13 % 2 ^ 16 = n.registers.pc := by omega
  change completed (MicroOp.performAll n (.observe .pc :: .transfer .ar .load (.register .pc) ::
    .readCell :: _)) = _
  rw [completed_cons rfl rfl, completed_cons rfl rfl, MicroOp.completed_readCell]
  change (n.visible.cell (n.registers.pc % 2 ^ 13 % 2 ^ 16)).bind _ = _
  rw [har]
  cases hc : n.visible.cell n.registers.pc with
  | none => rfl
  | some w =>
    have hw : w % 2 ^ 20 = w := Nat.mod_eq_of_lt (MicroOp.cell_lt hc)
    change some (({ n with registers := { n.registers with
      br := w
      ir := w % 2 ^ 20
      ar := w % 2 ^ 13 % 2 ^ 16
      pc := (n.registers.pc + 1) % 2 ^ 13 % 2 ^ 16 } } : Machine), _) = _
    rw [hw, MicroOp.mod_container, MicroOp.mod_container]
    rfl

theorem completed_indexed {n : Machine} (h : n.registers.Fits) :
    completed (MicroOp.performAll n Microcode.indexed.flatten) =
      some ({ n with registers := { n.registers with
        ar := n.registers.operand + n.registers.i } }, []) := by
  have hlt := h.indexedOperand_lt
  simp only [Register.limit] at hlt
  have har : (n.registers.operand + n.registers.i) % 2 ^ 16 % 2 ^ 16 =
      n.registers.operand + n.registers.i := by omega
  change some (({ n with registers := { n.registers with
    ar := (n.registers.operand + n.registers.i) % 2 ^ 16 % 2 ^ 16 } } : Machine), _) = _
  rw [har]
  rfl

theorem completed_indirect (n : Machine) :
    completed (MicroOp.performAll n Microcode.indirect.flatten) =
      (n.visible.cell n.registers.ar).map fun b =>
        ({ n with registers := { n.registers with br := b, ar := b % 2 ^ 13 } }, []) := by
  change completed (MicroOp.performAll n [.readCell, Microcode.addressFromBuffer]) = _
  rw [MicroOp.completed_readCell]
  cases n.visible.cell n.registers.ar with
  | none => rfl
  | some b =>
    change some (({ n with registers := { n.registers with
      br := b, ar := b % 2 ^ 13 % 2 ^ 16 } } : Machine), _) = _
    rw [MicroOp.mod_container]
    rfl

theorem fits_fetched {n : Machine} (h : n.registers.Fits) {w : Nat} (hw : w < 2 ^ 20) :
    (n.fetched w).registers.Fits := by
  intro q
  have hold := h q
  have hmod : ∀ k : Nat, k % 2 ^ 13 < 2 ^ 13 := fun k => Nat.mod_lt k (by decide)
  cases q with
  | br | ir => exact hw
  | ar => exact Nat.lt_of_lt_of_le (hmod w) (by decide)
  | pc => exact hmod _
  | _ => exact hold

theorem nextPhase_ne_fetch {closing : Closing} (h : ∀ b, closing ≠ .nextInstruction b)
    (ir : Nat) : nextPhase ir closing ≠ .fetch := by
  cases closing with
  | afterFetch | afterIndexed =>
    unfold nextPhase
    cases Word.isIndexed ir <;> cases Word.isIndirect ir <;> decide
  | afterIndirect => exact fun he => Phase.noConfusion he
  | nextInstruction b => exact absurd rfl (h b)

section
variable {m n : Machine} {p : Phase} {w b e : Nat} {t : Visible} (fuel : Nat)

end

/-! ## Carrying out an instruction -/

section
variable {n : Machine} {w b e : Nat} {t : Visible} (fuel : Nat)

theorem atInstruction_close {after : Machine} (hrun : after.status = .running)
    (hfits : after.registers.Fits) (setsFlags : Bool) :
    (after.close (.nextInstruction setsFlags)).1.AtInstruction := by
  have hentered : (after.entered .fetch).AtInstruction := {
    running := hrun
    closed := rfl
    fetching := rfl
    counted := rfl
    fits := fits_entered hfits _ }
  rw [close_machine]
  split
  · have hflags := fits_updateFlags hentered.fits
    rw [updateFlags_machine] at hflags ⊢
    exact { hentered with fits := hflags }
  · exact hentered

theorem visible_close {after : Machine} (hfits : after.registers.Fits) (operation : Operation)
    (hne : operation ≠ .halt) :
    (after.close (.nextInstruction (operation != .ret))).1.visible =
      after.visible.finished operation := by
  have ha : after.registers.a < 2 ^ 20 := hfits .a
  have hsig : Word.significant after.registers.a = after.registers.a := Nat.mod_eq_of_lt ha
  have hsign : Word.isNegative after.registers.a = decide (2 ^ 19 ≤ after.registers.a) := by
    rw [Bool.eq_iff_iff]
    simp only [Word.isNegative, Word.hasBit, beq_iff_eq, decide_eq_true_eq]
    omega
  rw [close_machine, Visible.finished]
  by_cases hret : operation = .ret
  · rw [if_neg (by simp [hret]), if_pos (.inl hret)]
    rfl
  · rw [if_pos (by simp [hret]), if_neg (by simp [hret, hne]), updateFlags_machine]
    change { after.visible with
      z := Word.significant after.registers.a == 0
      s := Word.isNegative (Word.significant after.registers.a)
      v := after.overflow } = _
    rw [hsig, hsign]
    rfl

theorem atInstruction_eq_true {m : Machine} (h : m.AtInstruction) : m.atInstruction = true := by
  simp [atInstruction, atBoundary, h.closed, h.fetching]

theorem phaseSteps_execute (h : Ready .execute w b e t n) {i : Instruction}
    (hd : Instruction.decode w = .ok i) :
    n.opened.phaseSteps = .ok (Microcode.execute n.opened.registers i.operation,
      .nextInstruction (i.operation != .ret)) := by
  have hf : n.opened.registers.f = .execute := by
    rw [opened_eq]
    exact h.phase
  have hir : n.opened.registers.ir = w := by
    rw [opened_eq]
    exact h.instruction
  rw [phaseSteps, hf, hir, hd]

theorem outcome_undecodable (h : Ready .execute w b e t n) {error : DecodeError}
    (hd : Instruction.decode w = .error error) :
    (n.runUntil atInstruction (fuel + 1)).outcome = none := by
  have hf : n.opened.registers.f = .execute := by
    rw [opened_eq]
    exact h.phase
  have hir : n.opened.registers.ir = w := by
    rw [opened_eq]
    exact h.instruction
  have herror : n.opened.phaseSteps = .error error := by
    rw [phaseSteps, hf, hir, hd]
  have hstep := microStep_of_running h.running
  rw [herror] at hstep
  rw [runUntil_of_stop fuel (by rw [hstep]; simp [fail]), hstep]
  rfl

theorem outcome_halt (h : Ready .execute w b e t n) {i : Instruction}
    (hd : Instruction.decode w = .ok i) (hi : i.operation = .halt) :
    ∃ k, (n.runUntil atInstruction (fuel + 1)).outcome = some (k, []) ∧
      k.visible = { t with h := true } ∧ k.status = .halted := by
  have hsteps := phaseSteps_execute h hd
  rw [hi] at hsteps
  have hsc : n.opened.registers.sc = 0 := by
    rw [opened_eq]
    exact h.counted
  have hvisible : n.opened.visible = t := by
    rw [opened_eq]
    exact h.visible
  have hops : MicroOp.performAll n.opened
      (Microcode.stepAt (Microcode.execute n.opened.registers .halt) n.opened.registers.sc) =
        ({ n.opened.setRegister .h 1 with status := .halted },
          n.opened.movedEvents .h .load (.constant 1) 1 ++ [.halted], none) := by
    rw [hsc]
    rfl
  have hstep := microStep_of_running h.running
  rw [hsteps] at hstep
  simp only [stepPhaseOpen, hops, if_true] at hstep
  have hout := outputs_openPhase n
  refine ⟨{ n.opened.setRegister .h 1 with status := .halted }, ?_, ?_, rfl⟩
  · rw [runUntil_of_stop fuel (by rw [hstep]; simp), hstep]
    simp only [Activity.outcome, outputs_append, hout]
    rfl
  · rw [← hvisible]
    rfl

theorem outcome_operation (h : Ready .execute w b e t n) {i : Instruction}
    (hd : Instruction.decode w = .ok i) (hi : i.operation ≠ .halt) :
    ((n.runUntil atInstruction (fuel + i.operation.microSteps)).outcome.map fun found =>
        (found.1.visible, found.2)) =
      (t.operate (w % 2 ^ 13) b e i.operation).map
        (fun next => (next.1.finished i.operation, next.2)) ∧
    ∀ found, (n.runUntil atInstruction (fuel + i.operation.microSteps)).outcome = some found →
      found.1.AtInstruction := by
  have hsteps := phaseSteps_execute h hd
  have hhalt : .halt ∉ (Microcode.execute n.opened.registers i.operation).flatten := by
    intro hmem
    obtain ⟨ops, hops, hop⟩ := List.mem_flatten.1 hmem
    exact hi ((Microcode.orderly_execute _ _ ops hops _ hop).2.2.2 rfl)
  have hbounded : ∀ op ∈ (Microcode.execute n.opened.registers i.operation).flatten,
      op.Bounded := by
    intro op hmem
    obtain ⟨ops, hops, hop⟩ := List.mem_flatten.1 hmem
    exact (Microcode.orderly_execute _ _ ops hops _ hop).1.bounded
  have hfits := fits_opened h.fits
  have hphase :=
    outcome_phase (fun _ => atInstruction_of_open) fuel h.running h.counted hsteps hhalt
  rw [Microcode.length_execute] at hphase
  have hseen := MicroOp.seen_execute i.operation hi hfits
  have hstart : n.opened.visible.operate n.opened.registers.operand n.opened.registers.br
      n.opened.registers.ar i.operation = t.operate (w % 2 ^ 13) b e i.operation := by
    rw [← h.visible, ← h.instruction, ← h.buffer, ← h.address, opened_eq]
    rfl
  rw [hstart] at hseen
  rw [hphase, ← hseen]
  have hstatus := MicroOp.status_performAll hhalt n.opened
  have hfits' := MicroOp.fits_performAll hbounded hfits
  generalize MicroOp.performAll n.opened
    (Microcode.execute n.opened.registers i.operation).flatten = performed at hstatus hfits' ⊢
  obtain ⟨after, events, stop⟩ := performed
  cases stop with
  | some why =>
    refine ⟨rfl, fun found hfound => ?_⟩
    cases hfound
  | none =>
    have hrun : after.status = .running := hstatus.trans ((status_opened n).trans h.running)
    have hat := atInstruction_close hrun hfits' (i.operation != .ret)
    have hvisible := visible_close hfits' i.operation hi
    have hend : afterPhase atInstruction fuel (.nextInstruction (i.operation != .ret))
        (after, events, none) =
          some ((after.close (.nextInstruction (i.operation != .ret))).1, outputs events) := by
      change outcomeAfter (outputs events) (outcomeFrom atInstruction fuel _) = _
      rw [outcomeFrom, if_pos (atInstruction_eq_true hat)]
      simp [outcomeAfter]
    rw [hend]
    refine ⟨?_, fun found hfound => ?_⟩
    · change some (Machine.visible _, outputs events) = _
      rw [hvisible]
      rfl
    · cases hfound
      exact hat

end

/-! ## A whole instruction -/

/-- An outcome shows what `seen` says, and the machine stands in front of the next instruction or is
halted. -/
def Agrees (outcome : Option (Machine × List Nat)) (seen : Option (Visible × List Nat)) : Prop :=
  outcome.map (fun found => (found.1.visible, found.2)) = seen ∧
    ∀ found, outcome = some found → found.1.AtInstruction ∨
      (found.1.status = .halted ∧ found.1.registers.h = true)

theorem agrees_none : Agrees none none :=
  ⟨rfl, fun _ hfound => nomatch hfound⟩

section
variable {m n : Machine} {p : Phase} {w b e : Nat} {t : Visible} (fuel : Nat)

theorem agrees_execute (h : Ready .execute w b e t n) :
    Agrees (n.runUntil atInstruction (fuel + 4)).outcome (t.carryOut w b e) := by
  unfold Visible.carryOut
  cases hd : Instruction.decode w with
  | error error =>
    have hnone : (n.runUntil atInstruction (fuel + 4)).outcome = none :=
      outcome_undecodable (fuel + 3) h hd
    rw [hnone]
    exact agrees_none
  | ok i =>
    by_cases hi : i.operation = .halt
    · obtain ⟨k, hout, hvisible, hstatus⟩ := outcome_halt (fuel + 3) h hd hi
      have hh : k.visible.h = true := by rw [hvisible]
      refine ⟨?_, fun found hfound => ?_⟩
      · simp only [hi]
        rw [hout, Option.map_some, hvisible]
        rfl
      · rw [hout] at hfound
        cases hfound
        exact .inr ⟨hstatus, hh⟩
    · have hle := i.operation.microSteps_le_four
      have hfuel : fuel + 4 = fuel + (4 - i.operation.microSteps) + i.operation.microSteps := by
        omega
      have hop := outcome_operation (fuel + (4 - i.operation.microSteps)) h hd hi
      rw [← hfuel] at hop
      exact ⟨hop.1, fun found hfound => .inl (hop.2 found hfound)⟩

end

theorem atInstruction_ofMemory (memory : Memory) : (ofMemory memory).AtInstruction where
  running := rfl
  closed := rfl
  fetching := rfl
  counted := rfl
  fits := Registers.fits_zero

end Machine

end TrnComputer
