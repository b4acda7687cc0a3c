import TrnComputer.Proofs.Machine.Flags

/-! # Signed arithmetic in the accumulator

* `Word.toInt_eq_iff`: a sum cut to 20 bits is read back as the number that was meant just when that
  number does not overflow.
* `Machine.Settles`, `Machine.settles_stepInstruction`: an instruction whose operation can be
  carried out comes to the place in front of the next, with the accumulator and the flags that
  follow.
* `Machine.signed_sum`: addition and counting by one are exact.
* `Machine.signed_difference`: what subtraction makes of the overflow flag. It counts the
  accumulator up before it adds the complement, so the flag is the wrong way round when the
  accumulator holds the largest number.
-/

namespace TrnComputer
set_option autoImplicit false

/-! ## Words as signed numbers -/

namespace Word

variable {a w : Nat}

theorem toInt_emod (h : w < 2 ^ 20) : toInt w % 2 ^ 20 = w := by
  rw [toInt_of_lt h]
  split <;> omega

theorem overflows_toInt (h : w < 2 ^ 20) : overflows (toInt w) = false := by
  rw [toInt_of_lt h, overflows, decide_eq_false_iff_not]
  split <;> omega

/-- Two numbers that agree in 20 bits and do not overflow are equal. -/
theorem eq_of_emod {n k : Int} (hn : overflows n = false) (hk : overflows k = false)
    (h : n % 2 ^ 20 = k % 2 ^ 20) : n = k := by
  rw [overflows, decide_eq_false_iff_not] at hn hk
  omega

theorem toInt_eq_iff (h : w < 2 ^ 20) {n : Int} (hn : n % 2 ^ 20 = w) :
    toInt w = n ↔ overflows n = false := by
  constructor
  · intro heq
    rw [← heq]
    exact overflows_toInt h
  · intro hfits
    exact eq_of_emod (overflows_toInt h) hfits ((toInt_emod h).trans hn.symm)

theorem toInt_complement (h : w < 2 ^ 20) : toInt (2 ^ 20 - 1 - w) = -1 - toInt w := by
  rw [toInt_of_lt h, toInt_of_lt (by omega : 2 ^ 20 - 1 - w < 2 ^ 20)]
  split <;> split <;> omega

/-- Counting up leads from the largest number to the smallest. -/
theorem toInt_successor (h : a < 2 ^ 20) :
    toInt ((a + 1) % 2 ^ 20) =
      if a = 2 ^ 19 - 1 then toInt a + 1 - 2 ^ 20 else toInt a + 1 := by
  rw [toInt_of_lt h, toInt_of_lt (Nat.mod_lt _ (by decide) : (a + 1) % 2 ^ 20 < 2 ^ 20)]
  split <;> split <;> split <;> omega

/-- The sum of the accumulator counted up and the complement overflows just when the difference
does, unless the accumulator held the largest number. -/
theorem addOverflows_complement (ha : a < 2 ^ 20) (hw : w < 2 ^ 20) :
    addOverflows ((a + 1) % 2 ^ 20) (2 ^ 20 - 1 - w) =
      if a = 2 ^ 19 - 1 then !overflows (toInt a - toInt w) else overflows (toInt a - toInt w) := by
  rw [addOverflows_eq (Nat.mod_lt _ (by decide)) (by omega), toInt_complement hw,
    toInt_successor ha]
  by_cases hmax : a = 2 ^ 19 - 1
  · have hlargest : toInt a = 2 ^ 19 - 1 := by
      rw [hmax]
      decide
    have hrange := overflows_toInt hw
    rw [overflows, decide_eq_false_iff_not] at hrange
    rw [if_pos hmax, if_pos hmax, hlargest, overflows, overflows, ← decide_not, decide_eq_decide]
    omega
  · have hsum : toInt a + 1 + (-1 - toInt w) = toInt a - toInt w := by omega
    rw [if_neg hmax, if_neg hmax, hsum]

end Word

/-! ## One instruction -/

namespace Machine

theorem halted_microStep {m : Machine} (h : m.microStep.result = .ok .halted) :
    m.microStep.machine.status = .halted := by
  have hstepped := stepped_microStep (running_of_ok h)
  generalize m.microStep = act at h hstepped
  cases hstepped with
  | halts hsteps hops hhalted => exact hhalted
  | undecodable | awaits | faults | counts | closes => cases h

theorem halted_runUntil {done : Machine → Bool} {fuel : Nat} {m : Machine}
    (h : (m.runUntil done fuel).result = .ok .halted) :
    (m.runUntil done fuel).machine.status = .halted := by
  induction fuel generalizing m with
  | zero => cases h
  | succ fuel ih =>
    obtain hgo | hlast := goesOn_or_ends done m
    · rw [runUntil_of_proceeds fuel hgo.1 hgo.2] at h ⊢
      exact ih h
    · rw [runUntil_of_stop fuel hlast] at h ⊢
      exact halted_microStep h

variable {m : Machine} {operation : Operation} {next : Visible} {out : List Nat}

/-- The accumulator and the flags in front of the next instruction, once an operation has led to
`next`. -/
structure Settles (act : Activity) (next : Visible) : Prop where
  result : act.result = .ok .proceeds
  front : act.machine.AtInstruction
  a : act.machine.registers.a = next.a
  v : act.machine.registers.v = next.overflow
  z : act.machine.registers.z = true ↔ act.machine.registers.a = 0
  s : act.machine.registers.s = act.machine.registers.a.testBit 19

theorem settles_of_finished {act : Activity} (hresult : act.result = .ok .proceeds)
    (hfront : act.machine.AtInstruction) (hret : operation ≠ .ret) (hhalt : operation ≠ .halt)
    (hvisible : act.machine.visible = next.finished operation) : Settles act next := by
  rw [Visible.finished, if_neg (by simp [hret, hhalt])] at hvisible
  have ha : act.machine.registers.a = next.a := congrArg Visible.a hvisible
  have hz : act.machine.registers.z = (next.a == 0) := congrArg Visible.z hvisible
  have hs : act.machine.registers.s = decide (2 ^ 19 ≤ next.a) := congrArg Visible.s hvisible
  have hbound : act.machine.registers.a < 2 ^ 20 := hfront.fits .a
  exact {
    result := hresult
    front := hfront
    a := ha
    v := congrArg Visible.v hvisible
    z := by rw [hz, ha, beq_iff_eq]
    s := by rw [Word.testBit_of_lt hbound, hs, ha] }

/-- An instruction that can be read and whose operation can be carried out comes to the place in
front of the next. -/
theorem settles_stepInstruction (h : m.AtInstruction) (hreadable : m.visible.Readable)
    (hoperation : m.visible.operation? = some operation) (hret : operation ≠ .ret)
    (hhalt : operation ≠ .halt)
    (hoperate : m.visible.advanced.operate (m.visible.word % 2 ^ 13) m.visible.last
      m.visible.effective operation = some (next, out)) :
    Settles m.stepInstruction next := by
  obtain ⟨i, hdecode, rfl⟩ :
      ∃ i, Instruction.decode m.visible.word = .ok i ∧ i.operation = operation := by
    unfold Visible.operation? at hoperation
    cases hd : Instruction.decode m.visible.word with
    | error e =>
      rw [hd] at hoperation
      cases hoperation
    | ok i =>
      rw [hd] at hoperation
      exact ⟨i, rfl, Option.some.inj hoperation⟩
  obtain ⟨k, count, hcount, ⟨earlier, hearlier⟩, hready⟩ := passes_readable h hreadable
  have hle := i.operation.microSteps_le_four
  obtain ⟨fuel, hfuel⟩ : ∃ fuel, 10 = fuel + i.operation.microSteps + count :=
    ⟨10 - count - i.operation.microSteps, by omega⟩
  have hstep : m.stepInstruction =
      earlier.after (k.runUntil atInstruction (fuel + i.operation.microSteps)) := by
    rw [stepInstruction, hfuel, hearlier]
  obtain ⟨hseen, hfront⟩ := outcome_operation fuel hready hdecode hhalt
  rw [hoperate] at hseen
  rw [hstep]
  generalize hact : k.runUntil atInstruction (fuel + i.operation.microSteps) = act at hseen hfront
  obtain ⟨found, hfound, hpair⟩ := Option.map_eq_some_iff.mp hseen
  have hat := hfront found hfound
  unfold Activity.outcome at hfound
  split at hfound
  next hresult =>
    cases hfound
    exact settles_of_finished hresult hat hret hhalt (congrArg Prod.fst hpair)
  next hresult =>
    -- A machine that has halted does not stand in front of an instruction.
    cases hfound
    have hhalted : act.machine.status = .halted := by
      rw [← hact] at hresult ⊢
      exact halted_runUntil hresult
    have hstatus := hhalted.symm.trans hat.running
    cases hstatus
  next => cases hfound
  next => cases hfound

end Machine

/-! ## Sums and differences -/

namespace Visible

/-- What an instruction adds to the accumulator, if it adds or counts the accumulator. -/
def summand? (t : Visible) : Operation → Option Int
  | .add => (t.cell t.effective).map Word.toInt
  | .step .a true => some 1
  | .step .a false => some (-1)
  | _ => none

/-- Such an instruction adds a word that reads as the number. -/
theorem operate_sum {t : Visible} {operation : Operation} {n : Int}
    (h : t.summand? operation = some n) (o b : Nat) :
    (operation ≠ .ret ∧ operation ≠ .halt) ∧
      ∃ w, w < 2 ^ 20 ∧ Word.toInt w = n ∧
        t.advanced.operate o b t.effective operation =
          some ({ t.advanced with
            a := (t.a + w) % 2 ^ 20, overflow := Word.addOverflows t.a w }, []) := by
  cases operation with
  | add =>
    obtain ⟨w, hcell, hw⟩ := Option.map_eq_some_iff.mp h
    have hsame : t.advanced.cell t.effective = some w := hcell
    refine ⟨by decide, w, MicroOp.cell_lt hcell, hw, ?_⟩
    rw [operate, hsame]
    rfl
  | step target up =>
    cases target with
    | a =>
      cases up with
      | true =>
        cases h
        exact ⟨by decide, 1, by decide, by decide, rfl⟩
      | false =>
        cases h
        exact ⟨by decide, 2 ^ 20 - 1, by decide, by decide, rfl⟩
    | x | i => cases h
  | _ => cases h

end Visible

namespace Machine

section
variable {m : Machine}

/-- An addition, or a count of the accumulator by one, is exact. The new accumulator is the sum in
20 bits, V tells whether the sum of the signed numbers needs more, Z and S describe the new
accumulator, and unless V is set the new accumulator reads as the sum. -/
theorem signed_sum (h : m.AtInstruction) (hreadable : m.visible.Readable) {operation : Operation}
    (hoperation : m.visible.operation? = some operation) {n : Int}
    (hn : m.visible.summand? operation = some n) :
    let after := m.stepInstruction
    let r := after.machine.registers
    let exact := Word.toInt m.registers.a + n
    after.result = .ok .proceeds ∧ after.machine.AtInstruction ∧
      (r.a : Int) = (m.registers.a + n) % 2 ^ 20 ∧
      (r.v = true ↔ exact < -2 ^ 19 ∨ 2 ^ 19 ≤ exact) ∧
      (r.z = true ↔ r.a = 0) ∧ r.s = r.a.testBit 19 ∧
      (r.v = false → Word.toInt r.a = exact) := by
  intro after r exact
  have ha : m.registers.a < 2 ^ 20 := h.fits .a
  obtain ⟨⟨hret, hhalt⟩, w, hw, hread, hoperate⟩ :=
    Visible.operate_sum hn (m.visible.word % 2 ^ 13) m.visible.last
  have hsettles : Settles after _ :=
    settles_stepInstruction h hreadable hoperation hret hhalt hoperate
  have hsum : r.a = (m.registers.a + w) % 2 ^ 20 := hsettles.a
  have hbound : r.a < 2 ^ 20 := hsettles.front.fits .a
  have hover : r.v = overflows exact := by
    have hwatched : r.v = Word.addOverflows m.registers.a w := hsettles.v
    rw [hwatched, Word.addOverflows_eq ha hw, hread]
  -- The words and the numbers that they read as agree in 20 bits.
  have hword := Word.toInt_emod hw
  have haccumulator := Word.toInt_emod ha
  rw [hread] at hword
  have hcut : (r.a : Int) = (m.registers.a + n) % 2 ^ 20 := by omega
  have hexact : exact % 2 ^ 20 = r.a := by
    show (Word.toInt m.registers.a + n) % 2 ^ 20 = r.a
    omega
  refine ⟨hsettles.result, hsettles.front, hcut, ?_, hsettles.z, hsettles.s, ?_⟩
  · rw [hover, overflows, decide_eq_true_eq]
  · intro hclear
    exact (Word.toInt_eq_iff hbound hexact).mpr (hover.symm.trans hclear)

/-- Twice the largest number, added by way of an indirect address. -/
theorem signed_sum_indirect :
    let m := (ofMemory (.ofList
      [2 ^ 15 + 3, 13 * 2 ^ 15 + 2 ^ 14 + 4, 31 * 2 ^ 15, 2 ^ 19 - 1, 3])).stepInstruction.machine
    let r := m.stepInstruction.machine.registers
    m.AtInstruction ∧ m.visible.Readable ∧ m.visible.operation? = some .add ∧
      m.visible.summand? .add = some (2 ^ 19 - 1) ∧
      (r.a : Int) = (m.registers.a + (2 ^ 19 - 1)) % 2 ^ 20 ∧ r.v = true := by
  intro m r
  have hwell : m.WellFormed := (wellFormed_runUntil (wellFormed_ofMemory _) _ _).1
  have hfront : m.AtInstruction := hwell.atInstruction (by decide +kernel) (by decide +kernel)
  have hreadable : m.visible.Readable := ⟨by decide +kernel, by decide +kernel⟩
  have hoperation : m.visible.operation? = some .add := by decide +kernel
  have hsummand : m.visible.summand? .add = some (2 ^ 19 - 1) := by decide +kernel
  obtain ⟨-, -, hcut, hv, -⟩ := signed_sum hfront hreadable hoperation hsummand
  have hlargest : Word.toInt m.registers.a = 2 ^ 19 - 1 := by decide +kernel
  refine ⟨hfront, hreadable, hoperation, hsummand, hcut, hv.mpr (.inr ?_)⟩
  rw [hlargest]
  decide

/-- A subtraction leaves the difference in 20 bits. V tells whether the difference of the signed
numbers needs more, unless the accumulator held the largest number: then it tells the contrary. -/
theorem signed_difference (h : m.AtInstruction) (hreadable : m.visible.Readable)
    (hoperation : m.visible.operation? = some .subtract) {w : Nat}
    (hcell : m.visible.cell m.visible.effective = some w) :
    let after := m.stepInstruction
    let r := after.machine.registers
    let exact := Word.toInt m.registers.a - Word.toInt w
    after.result = .ok .proceeds ∧ after.machine.AtInstruction ∧
      (r.a : Int) = (m.registers.a - w) % 2 ^ 20 ∧
      (r.v = true ↔
        if m.registers.a = 2 ^ 19 - 1 then -2 ^ 19 ≤ exact ∧ exact < 2 ^ 19
        else exact < -2 ^ 19 ∨ 2 ^ 19 ≤ exact) := by
  intro after r exact
  have ha : m.registers.a < 2 ^ 20 := h.fits .a
  have hw := MicroOp.cell_lt hcell
  have hoperate : m.visible.advanced.operate (m.visible.word % 2 ^ 13) m.visible.last
      m.visible.effective .subtract = some ({ m.visible.advanced with
        a := (m.registers.a + 2 ^ 20 - w) % 2 ^ 20
        overflow := Word.addOverflows ((m.registers.a + 1) % 2 ^ 20) (2 ^ 20 - 1 - w) }, []) := by
    have hsame : m.visible.advanced.cell m.visible.effective = some w := hcell
    rw [Visible.operate, hsame]
    rfl
  have hsettles : Settles after _ :=
    settles_stepInstruction h hreadable hoperation (by decide) (by decide) hoperate
  have hdifference : r.a = (m.registers.a + 2 ^ 20 - w) % 2 ^ 20 := hsettles.a
  have hv : r.v = Word.addOverflows ((m.registers.a + 1) % 2 ^ 20) (2 ^ 20 - 1 - w) := hsettles.v
  refine ⟨hsettles.result, hsettles.front, by omega, ?_⟩
  rw [hv, Word.addOverflows_complement ha hw]
  split
  · rw [overflows, Bool.not_eq_true', decide_eq_false_iff_not]
    show ¬(exact < -2 ^ 19 ∨ 2 ^ 19 ≤ exact) ↔ _
    omega
  · rw [overflows, decide_eq_true_eq]

/-- The largest number minus minus one: the overflow is missed. -/
theorem signed_difference_missed :
    let m := (ofMemory (.ofList
      [2 ^ 15 + 3, 14 * 2 ^ 15 + 4, 31 * 2 ^ 15, 2 ^ 19 - 1, 2 ^ 20 - 1])).stepInstruction.machine
    let r := m.stepInstruction.machine.registers
    m.AtInstruction ∧ m.visible.Readable ∧ m.visible.operation? = some .subtract ∧
      m.visible.cell m.visible.effective = some (2 ^ 20 - 1) ∧
      (r.a : Int) = 2 ^ 19 ∧ ¬r.v = true := by
  intro m r
  have hwell : m.WellFormed := (wellFormed_runUntil (wellFormed_ofMemory _) _ _).1
  have hfront : m.AtInstruction := hwell.atInstruction (by decide +kernel) (by decide +kernel)
  have hreadable : m.visible.Readable := ⟨by decide +kernel, by decide +kernel⟩
  have hoperation : m.visible.operation? = some .subtract := by decide +kernel
  have hcell : m.visible.cell m.visible.effective = some (2 ^ 20 - 1) := by decide +kernel
  obtain ⟨-, -, hcut, hv⟩ := signed_difference hfront hreadable hoperation hcell
  have ha : m.registers.a = 2 ^ 19 - 1 := by decide +kernel
  have hnumbers : Word.toInt m.registers.a - Word.toInt (2 ^ 20 - 1) = 2 ^ 19 := by
    rw [ha]
    decide
  refine ⟨hfront, hreadable, hoperation, hcell, ?_, ?_⟩
  · rw [hcut, ha]
    decide
  · rw [hv, if_pos ha, hnumbers]
    decide

/-- The largest number minus zero: the difference is in range, and yet V is set. -/
theorem signed_difference_spurious :
    let m := (ofMemory (.ofList
      [2 ^ 15 + 3, 14 * 2 ^ 15 + 4, 31 * 2 ^ 15, 2 ^ 19 - 1, 0])).stepInstruction.machine
    m.atInstruction = true ∧ m.status = .running ∧ m.visible.operation? = some .subtract ∧
      m.visible.cell m.visible.effective = some 0 ∧
      ¬(m.stepInstruction.machine.registers.v = true ↔
        Word.toInt m.registers.a - Word.toInt 0 < -2 ^ 19 ∨
          2 ^ 19 ≤ Word.toInt m.registers.a - Word.toInt 0) := by
  decide +kernel

end

end Machine
end TrnComputer
