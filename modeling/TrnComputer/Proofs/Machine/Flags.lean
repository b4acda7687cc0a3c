import TrnComputer.Proofs.Machine.Chronicle

/-! # Flags

* `overflows`, `Word.addOverflows_eq`: overflow in terms of signed numbers.
* `Visible.verdict?`, `lastVerdict`: what an instruction makes of the overflow flag, and the last of
  several that concern it.
* `Lawful`, `Executed.lawful`: what the flags show after completed instructions.
* `flags_chronicle`: in front of an instruction the flags describe the accumulator and the last
  verdict, and the conditional jumps go by the sign of the accumulator.
-/

namespace TrnComputer
set_option autoImplicit false

/-! ## Signed numbers -/

/-- A number needs more than 20 bits in two's complement. -/
def overflows (n : Int) : Bool := decide (n < -2 ^ 19 ∨ 2 ^ 19 ≤ n)

namespace Word

theorem isNegative_of_lt {w : Nat} (h : w < 2 ^ 20) : isNegative w = decide (2 ^ 19 ≤ w) := by
  rw [Bool.eq_iff_iff]
  simp only [isNegative, hasBit, beq_iff_eq, decide_eq_true_eq]
  omega

theorem testBit_of_lt {w : Nat} (h : w < 2 ^ 20) : w.testBit 19 = decide (2 ^ 19 ≤ w) := by
  rw [Nat.testBit_eq_decide_div_mod_eq, decide_eq_decide]
  omega

theorem toInt_of_lt {w : Nat} (h : w < 2 ^ 20) :
    toInt w = if 2 ^ 19 ≤ w then (w : Int) - 2 ^ 20 else (w : Int) := by
  rw [toInt, isNegative_of_lt h, significant, Nat.mod_eq_of_lt h]
  simp only [decide_eq_true_eq]

/-- An addition overflows just when the sum of the signed numbers does. -/
theorem addOverflows_eq {a b : Nat} (ha : a < 2 ^ 20) (hb : b < 2 ^ 20) :
    addOverflows a b = overflows (toInt a + toInt b) := by
  have hsum : add a b < 2 ^ 20 := Nat.mod_lt _ (by decide)
  rw [addOverflows, isNegative_of_lt ha, isNegative_of_lt hb, isNegative_of_lt hsum, overflows,
    toInt_of_lt ha, toInt_of_lt hb, add, Bool.eq_iff_iff]
  simp only [Bool.and_eq_true, beq_iff_eq, bne_iff_ne, ne_eq, decide_eq_decide, decide_eq_true_eq]
  split <;> split <;> omega

end Word

/-! ## Verdicts -/

namespace Visible

/-- What an operation makes of the overflow flag, if it concerns it. A subtraction adds the
complement to the accumulator counted up, and it is this addition that counts; a jump on overflow
that is taken uses the overflow up. `e` is the address of the data. -/
def verdict (t : Visible) (e : Nat) : Operation → Option Bool
  | .add => some (overflows (Word.toInt t.a + Word.toInt ((t.cell e).getD 0)))
  | .subtract =>
    some (overflows
      (Word.toInt ((t.a + 1) % 2 ^ 20) + Word.toInt (2 ^ 20 - 1 - (t.cell e).getD 0)))
  | .step .a true => some (overflows (Word.toInt t.a + 1))
  | .step .a false => some (overflows (Word.toInt t.a - 1))
  | .jump .overflow => if t.v then some false else none
  | _ => none

/-- What the instruction at PC makes of the overflow flag, if it concerns it. -/
def verdict? (t : Visible) : Option Bool := t.operation?.bind (t.verdict t.effective)

section
variable {t next : Visible} {o b e : Nat} {out : List Nat}

theorem overflow_put {u : Visible} {address value : Nat} (h : t.put address value = some u) :
    u.overflow = t.overflow := by
  unfold put at h
  split at h
  · cases h
    rfl
  · cases h

-- The values are left open, since to compare two states field by field unfolds the remainders.
theorem counted_of_ne {target : Target} (h : target ≠ .a) (t : Visible) (up : Bool) :
    ∃ x i, t.counted target up = { t with x, i } := by
  cases target with
  | a => exact absurd rfl h
  | x => cases up <;> exact ⟨_, t.i, rfl⟩
  | i => cases up <;> exact ⟨t.x, _, rfl⟩

theorem overflow_counted (ha : t.a < 2 ^ 20) (target : Target) (up : Bool) :
    (t.counted target up).overflow = (t.verdict e (.step target up)).getD t.overflow := by
  cases target with
  | x =>
    obtain ⟨x, i, hcounted⟩ := counted_of_ne (by decide : Target.x ≠ .a) t up
    rw [hcounted]
    rfl
  | i =>
    obtain ⟨x, i, hcounted⟩ := counted_of_ne (by decide : Target.i ≠ .a) t up
    rw [hcounted]
    rfl
  | a =>
    have hone : Word.toInt 1 = 1 := by decide
    have hminusOne : Word.toInt (2 ^ 20 - 1) = -1 := by decide
    cases up with
    | true =>
      have hwatched := Word.addOverflows_eq ha (b := 1) (by decide)
      rw [hone] at hwatched
      exact hwatched
    | false =>
      have hwatched := Word.addOverflows_eq ha (b := 2 ^ 20 - 1) (by decide)
      rw [hminusOne, ← Int.sub_eq_add_neg] at hwatched
      exact hwatched

/-- An operation leaves the watched overflow as its verdict says. -/
theorem overflow_operate {operation : Operation} (ha : t.a < 2 ^ 20)
    (h : t.operate o b e operation = some (next, out)) :
    next.overflow = (t.verdict e operation).getD t.overflow := by
  cases operation with
  | nop | enterAccumulator | enterIndex | complement | output | halt =>
    cases h
    rfl
  | shift target direction =>
    cases h
    cases target <;> rfl
  | shiftPair direction =>
    cases h
    rfl
  | step target up =>
    cases h
    exact overflow_counted ha target up
  | load holder =>
    obtain ⟨w, -, hnext⟩ := Option.map_eq_some_iff.mp h
    cases hnext
    cases holder <;> rfl
  | pop | ret | input =>
    obtain ⟨w, -, hnext⟩ := Option.map_eq_some_iff.mp h
    cases hnext
    rfl
  | combine connective =>
    cases connective <;>
    · obtain ⟨w, -, hnext⟩ := Option.map_eq_some_iff.mp h
      cases hnext
      rfl
  | store | push | call =>
    obtain ⟨u, hput, hnext⟩ := Option.map_eq_some_iff.mp h
    have hkept := overflow_put hput
    cases hnext
    exact hkept
  | add =>
    obtain ⟨w, hcell, hnext⟩ := Option.map_eq_some_iff.mp h
    cases hnext
    simp only [verdict, hcell, Option.getD_some]
    exact Word.addOverflows_eq ha (MicroOp.cell_lt hcell)
  | subtract =>
    obtain ⟨w, hcell, hnext⟩ := Option.map_eq_some_iff.mp h
    cases hnext
    simp only [verdict, hcell, Option.getD_some]
    exact Word.addOverflows_eq (Nat.mod_lt _ (by decide)) (by omega)
  | jump condition =>
    change (if t.takes condition then some _ else some (t, [])) = some (next, out) at h
    cases condition with
    | overflow =>
      simp only [takes] at h
      split at h
      · next hv =>
        cases h
        simp [verdict, hv]
      · next hv =>
        cases h
        simp [verdict, hv]
    | always | negative | positive | zero | largeIndex =>
      split at h <;>
      · cases h
        rfl

theorem operate_ret (h : t.operate o b e .ret = some (next, out)) :
    next.a = t.a ∧ next.z = t.z ∧ next.s = t.s ∧ next.v = t.v := by
  obtain ⟨w, -, hnext⟩ := Option.map_eq_some_iff.mp h
  cases hnext
  exact ⟨rfl, rfl, rfl, rfl⟩

end

end Visible

/-! ## Flags after completed instructions -/

/-- An instruction other than a return is among them. -/
def Busy (list : List (Visible × Visible)) : Prop := ∃ p ∈ list, p.1.operation? ≠ some .ret

instance (list : List (Visible × Visible)) : Decidable (Busy list) :=
  inferInstanceAs (Decidable (∃ p ∈ list, _))

/-- The last verdict of completed instructions. -/
def lastVerdict (list : List (Visible × Visible)) : Bool :=
  (list.filterMap fun p => p.1.verdict?).getLast?.getD false

/-- What the flags show after completed instructions. -/
structure Lawful (list : List (Visible × Visible)) (t : Visible) : Prop where
  bounded : t.a < 2 ^ 20
  watched : t.overflow = lastVerdict list
  shown : t.v = t.overflow
  settled : Busy list → t.z = (t.a == 0) ∧ t.s = decide (2 ^ 19 ≤ t.a)
  fresh : ¬Busy list → t.a = 0 ∧ t.z = false ∧ t.s = false ∧ t.v = false

section
variable {list : List (Visible × Visible)} {first t before after : Visible}

theorem busy_append : Busy (list ++ [(before, after)]) ↔
    Busy list ∨ before.operation? ≠ some .ret := by
  simp [Busy, or_and_right, exists_or]

theorem lastVerdict_append :
    lastVerdict (list ++ [(before, after)]) = before.verdict?.getD (lastVerdict list) := by
  unfold lastVerdict
  cases hverdict : before.verdict? <;> simp [hverdict]

/-- What a completed instruction has done. -/
theorem Completes.operated (h : Completes before after) :
    ∃ i j operation next out, before.operation? = some operation ∧
      (before.withInput i).advanced.operate (before.word % 2 ^ 13) before.last before.effective
        operation = some (next, out) ∧
      after.withInput j = next.finished operation := by
  obtain ⟨i, j, out, hstep⟩ := h.step
  obtain ⟨operation, next, hoperation, hoperate, hafter⟩ := Visible.step_eq_some hstep
  exact ⟨i, j, operation, next, out, hoperation, hoperate, hafter⟩

/-- A return changes no flag and no verdict. -/
theorem Lawful.afterReturn (h : Lawful list before) (hlast : Completes before after)
    (hret : before.operation? = some .ret) : Lawful (list ++ [(before, after)]) after := by
  obtain ⟨i, j, operation, next, out, hoperation, hoperate, hafter⟩ := hlast.operated
  obtain rfl : operation = .ret := Option.some.inj (hoperation.symm.trans hret)
  rw [Visible.finished, if_pos (.inl rfl)] at hafter
  subst hafter
  obtain ⟨ha, hz, hs, hv⟩ := Visible.operate_ret hoperate
  have hoverflow : after.overflow = before.overflow :=
    Visible.overflow_operate (t := (before.withInput i).advanced) h.bounded hoperate
  change after.a = before.a at ha
  change after.z = before.z at hz
  change after.s = before.s at hs
  change after.v = before.v at hv
  have hbusy : Busy (list ++ [(before, after)]) ↔ Busy list := by
    rw [busy_append]
    simp [hret]
  have hverdict : before.verdict? = none := by
    rw [Visible.verdict?, hret]
    rfl
  exact {
    bounded := hlast.bounded
    watched := by rw [hoverflow, lastVerdict_append, hverdict, Option.getD_none, h.watched]
    shown := by rw [hv, hoverflow, h.shown]
    settled := by
      rw [hbusy, ha, hz, hs]
      exact h.settled
    fresh := by
      rw [hbusy, ha, hz, hs, hv]
      exact h.fresh }

/-- Any other instruction that is completed sets the flags anew. -/
theorem Lawful.afterOther (h : Lawful list before) (hlast : Completes before after)
    (hother : before.operation? ≠ some .ret) : Lawful (list ++ [(before, after)]) after := by
  obtain ⟨i, j, operation, next, out, hoperation, hoperate, hafter⟩ := hlast.operated
  have hret : operation ≠ .ret := fun he => hother (he ▸ hoperation)
  -- A machine that has carried out a halt does not come in front of an instruction.
  have hhalt : operation ≠ .halt := by
    rintro rfl
    cases hoperate
    have hh := congrArg Visible.h hafter
    rw [Visible.finished, if_pos (.inr rfl)] at hh
    exact Bool.false_ne_true (hlast.running.symm.trans hh)
  rw [Visible.finished, if_neg (by simp [hret, hhalt])] at hafter
  obtain ⟨ha, -, -, -, -, hv, hz, hs, -, -, hoverflow, -⟩ := Visible.ext_iff.mp hafter
  change after.a = next.a at ha
  change after.v = next.overflow at hv
  change after.z = (next.a == 0) at hz
  change after.s = decide (2 ^ 19 ≤ next.a) at hs
  change after.overflow = next.overflow at hoverflow
  have hbusy : Busy (list ++ [(before, after)]) := busy_append.mpr (.inr hother)
  have hverdict : before.verdict? = before.verdict before.effective operation := by
    rw [Visible.verdict?, hoperation]
    rfl
  exact {
    bounded := hlast.bounded
    watched := by
      rw [hoverflow, lastVerdict_append, hverdict, ← h.watched]
      exact Visible.overflow_operate (t := (before.withInput i).advanced) h.bounded hoperate
    shown := by rw [hv, hoverflow]
    settled := fun _ => by
      rw [hz, hs, ha]
      exact ⟨rfl, rfl⟩
    fresh := fun hnot => absurd hbusy hnot }

theorem lawful_start (memory : Memory) : Lawful [] (Machine.ofMemory memory).visible where
  bounded := Nat.two_pow_pos 20
  watched := rfl
  shown := rfl
  settled := fun ⟨_, hmem, _⟩ => by cases hmem
  fresh := fun _ => ⟨rfl, rfl, rfl, rfl⟩

/-- The law does not depend on what is supplied. -/
theorem Lawful.withInput (h : Lawful list before)
    (heq : after.withInput none = before.withInput none) : Lawful list after := by
  obtain ⟨ha, -, -, -, -, hv, hz, hs, -, -, hoverflow, -⟩ := Visible.ext_iff.mp heq
  change after.a = before.a at ha
  change after.v = before.v at hv
  change after.z = before.z at hz
  change after.s = before.s at hs
  change after.overflow = before.overflow at hoverflow
  exact {
    bounded := by
      rw [ha]
      exact h.bounded
    watched := by rw [hoverflow, h.watched]
    shown := by rw [hv, hoverflow, h.shown]
    settled := by
      rw [hz, hs, ha]
      exact h.settled
    fresh := by
      rw [hz, hs, ha, hv]
      exact h.fresh }

theorem Executed.lawful (h : Executed first list t) (hfirst : Lawful [] first) :
    Lawful list t := by
  induction h with
  | start => exact hfirst
  | @next list before after earlier hlast ih =>
    by_cases hret : before.operation? = some .ret
    · exact ih.afterReturn hlast hret
    · exact ih.afterOther hlast hret

end

/-! ## Jumps by the sign of the accumulator -/

/-- How the accumulator compares with zero if a jump that asks for it is taken. -/
def Condition.asks : Condition → Option Ordering
  | .negative => some .lt
  | .zero => some .eq
  | .positive => some .gt
  | .always | .overflow | .largeIndex => none

section
variable {list : List (Visible × Visible)} {t before after : Visible} {condition : Condition}
  {order : Ordering}

/-- With the flags set, such a jump goes by the sign of the accumulator. -/
theorem Lawful.takes (h : Lawful list t) (hbusy : Busy list) (hasks : condition.asks = some order) :
    t.takes condition = true ↔ compare (Word.toInt t.a) 0 = order := by
  obtain ⟨hz, hs⟩ := h.settled hbusy
  have hbounded := h.bounded
  rw [Word.toInt_of_lt hbounded]
  cases condition with
  | negative =>
    cases hasks
    simp only [Visible.takes, hs, decide_eq_true_eq, Int.compare_eq_lt]
    split <;> omega
  | zero =>
    cases hasks
    simp only [Visible.takes, hz, beq_iff_eq, Int.compare_eq_eq]
    split <;> omega
  | positive =>
    cases hasks
    simp only [Visible.takes, hs, hz, Bool.not_eq_true', Bool.or_eq_false_iff,
      decide_eq_false_iff_not, beq_eq_false_iff_ne, ne_eq, Int.compare_eq_gt]
    split <;> omega
  | always | overflow | largeIndex => cases hasks

theorem Completes.jumped (h : Completes before after)
    (hjump : before.operation? = some (.jump condition)) :
    after.pc =
      if before.takes condition then before.last % 2 ^ 13 else (before.pc + 1) % 2 ^ 13 := by
  obtain ⟨i, j, operation, next, out, hoperation, hoperate, hafter⟩ := h.operated
  obtain rfl : operation = .jump condition := Option.some.inj (hoperation.symm.trans hjump)
  obtain ⟨-, -, -, -, hpc, -⟩ := Visible.ext_iff.mp hafter
  change after.pc = next.pc at hpc
  rw [hpc]
  change (if before.takes condition then some _ else some _) = some (next, out) at hoperate
  split at hoperate
  · next htakes =>
    cases hoperate
    rw [if_pos htakes]
  · next htakes =>
    cases hoperate
    rw [if_neg htakes]
    rfl

end

/-! ## Flags in front of an instruction -/

/-- In front of an instruction the flags describe the accumulator and the last verdict, once an
instruction other than a return has been completed, and until then all is zero. The jumps that are
completed after such an instruction go by the sign of the accumulator. -/
theorem flags_chronicle (memory : Memory) (drives : List Drive)
    (hat : (chronicle memory drives).machine.atInstruction = true) :
    let list := (chronicle memory drives).completed
    let r := (chronicle memory drives).machine.registers
    (Busy list → (r.z = true ↔ r.a = 0) ∧ r.s = r.a.testBit 19 ∧ r.v = lastVerdict list) ∧
    (¬Busy list → r.a = 0 ∧ r.z = false ∧ r.s = false ∧ r.v = false) ∧
    ∀ earlier before after later condition order, list = earlier ++ (before, after) :: later →
      Busy earlier → before.operation? = some (.jump condition) → condition.asks = some order →
      after.pc =
        if compare (Word.toInt before.a) 0 = order then before.last % 2 ^ 13
        else (before.pc + 1) % 2 ^ 13 := by
  have hsound := sound_chronicle memory drives
  have hfirst := lawful_start memory
  have hlaw := (hsound.executed.lawful hfirst).withInput (hsound.resting hat)
  refine ⟨fun hbusy => ?_, hlaw.fresh, ?_⟩
  · obtain ⟨hz, hs⟩ := hlaw.settled hbusy
    exact ⟨(iff_of_eq (congrArg (· = true) hz)).trans beq_iff_eq,
      hs.trans (Word.testBit_of_lt hlaw.bounded).symm, hlaw.shown.trans hlaw.watched⟩
  · intro earlier before after later condition order hlist hbusy hjump hasks
    have hexecuted := hsound.executed
    rw [hlist] at hexecuted
    obtain ⟨hearlier, hcompletes⟩ := hexecuted.split
    have htakes := (hearlier.lawful hfirst).takes hbusy hasks
    rw [hcompletes.jumped hjump]
    simp only [htakes]

theorem flags_chronicle_return :
    let c := chronicle (.ofList ([10 * 2 ^ 15 + 11, 30 * 2 ^ 15] ++ List.replicate 9 0 ++
      [20 * 2 ^ 15 + 5])) (List.replicate 15 .microStep)
    c.machine.atInstruction = true ∧ Busy c.completed ∧
      c.machine.registers.s = c.machine.registers.a.testBit 19 ∧
      ∀ p ∈ c.completed.drop 2, p.1.operation? = some (.jump .negative) ∧ p.2.pc = 5 := by
  intro c
  have hat : c.machine.atInstruction = true := by decide +kernel
  have hbusy : Busy c.completed := by decide +kernel
  have hearlier : Busy (c.completed.take 2) := by decide +kernel
  have hlength : (c.completed.drop 2).length = 1 := by decide +kernel
  have hjump : ∀ p ∈ c.completed.drop 2, p.1.operation? = some (.jump .negative) ∧
      compare (Word.toInt p.1.a) 0 = .lt ∧ p.1.last % 2 ^ 13 = 5 := by decide +kernel
  obtain ⟨hflags, -, hjumps⟩ := flags_chronicle _ _ hat
  refine ⟨hat, hbusy, (hflags hbusy).2.1, fun p hp => ?_⟩
  obtain ⟨hoperation, hsign, htarget⟩ := hjump p hp
  obtain ⟨q, hq⟩ := List.length_eq_one_iff.mp hlength
  have hlist : c.completed = c.completed.take 2 ++ [q] := by rw [← hq, List.take_append_drop]
  rw [hq, List.mem_singleton] at hp
  subst hp
  refine ⟨hoperation, ?_⟩
  rw [hjumps _ _ _ _ _ _ hlist hearlier hoperation rfl, if_pos hsign, htarget]

end TrnComputer
