import TrnComputer.Proofs.Machine.Flags

/-! # The stack

* `closes`, `nested`, `inUse`: the pushes and calls among completed instructions whose cells are in
  use. The brackets must match, and no cell in use may be overwritten.
* `Completes.saved`, `Completes.restored`, `Completes.stored`, `Completes.steady`: what an
  instruction does to SP and to the memory.
* `Stowed`, `Stacked`: SP counts the cells in use, and each of them still holds what has been saved.
* `stack_discipline`: what is taken off the stack is what its partner has saved.
-/

namespace TrnComputer
set_option autoImplicit false

/-! ## Brackets -/

/-- The latest of the pushes and calls in use is taken off if it is of the given kind. -/
def closes (partner : Operation) :
    List (Visible × Visible) → Option (List (Visible × Visible))
  | q :: rest => if q.1.operation? = some partner then some rest else none
  | [] => none

/-- The pushes and calls in use after one more instruction, the latest first. There are none if the
instruction has no partner among them, if the stack is full, or if SP or one of their cells is
changed by other means. -/
def nested (waiting : List (Visible × Visible)) (p : Visible × Visible) :
    Option (List (Visible × Visible)) :=
  match p.1.operation? with
  | some .push | some .call => if waiting.length < 2 ^ 13 then some (p :: waiting) else none
  | some .pop => closes .push waiting
  | some .ret => closes .call waiting
  | some (.load .sp) => none
  | some (.store _) => if ∀ q ∈ waiting, q.2.sp ≠ p.1.effective then some waiting else none
  | _ => some waiting

/-- The pushes and calls in use after completed instructions. -/
def inUse (list : List (Visible × Visible)) : Option (List (Visible × Visible)) :=
  list.foldlM nested []

theorem inUse_append (list : List (Visible × Visible)) (p : Visible × Visible) :
    inUse (list ++ [p]) = (inUse list).bind (nested · p) := by
  rw [inUse, List.foldlM_append]
  cases hlist : list.foldlM nested [] <;> simp [inUse, hlist]

theorem inUse_of_append {front back waiting : List (Visible × Visible)}
    (h : inUse (front ++ back) = some waiting) : ∃ found, inUse front = some found := by
  rw [inUse, List.foldlM_append] at h
  cases hfront : front.foldlM nested [] with
  | none =>
    rw [hfront] at h
    cases h
  | some found => exact ⟨found, hfront⟩

theorem closes_eq_some_iff {partner : Operation} {waiting next : List (Visible × Visible)} :
    closes partner waiting = some next ↔
      ∃ q, waiting = q :: next ∧ q.1.operation? = some partner := by
  cases waiting with
  | nil => simp [closes]
  | cons q rest =>
    rw [closes]
    split
    · next hpartner =>
      constructor
      · intro h
        cases h
        exact ⟨q, rfl, hpartner⟩
      · rintro ⟨found, hcons, -⟩
        cases hcons
        rfl
    · next hother =>
      constructor
      · intro h
        cases h
      · rintro ⟨found, hcons, hpartner⟩
        cases hcons
        exact absurd hpartner hother

/-! ## What instructions do to the stack -/

namespace Visible

variable {t next : Visible} {o b e : Nat} {out : List Nat}

theorem cell_put {u : Visible} {address value : Nat} (h : t.put address value = some u)
    (other : Nat) :
    u.cell other = if other = address then some (value % 2 ^ 20) else t.cell other := by
  unfold put at h
  split at h
  · next hlt =>
    cases h
    have hsize : address < t.memory.cells.size := hlt
    by_cases hother : other = address
    · subst hother
      simp [cell, Memory.get?, hsize]
    · simp [cell, Memory.get?, hother, Ne.symm hother]
  · cases h

theorem put_keeps {u : Visible} {address value : Nat} (h : t.put address value = some u) :
    u.sp = t.sp ∧ u.a = t.a ∧ u.pc = t.pc := by
  unfold put at h
  split at h
  · cases h
    exact ⟨rfl, rfl, rfl⟩
  · cases h

-- The values are left open, as in `counted_of_ne`, so that no remainder is unfolded.
theorem counted_eq (t : Visible) (target : Target) (up : Bool) :
    ∃ a x i overflow, t.counted target up = { t with a, x, i, overflow } := by
  cases target with
  | a => cases up <;> exact ⟨_, t.x, t.i, _, rfl⟩
  | x => cases up <;> exact ⟨t.a, _, t.i, t.overflow, rfl⟩
  | i => cases up <;> exact ⟨t.a, t.x, _, t.overflow, rfl⟩

/-- The operations that leave SP and the memory alone. -/
def Aloof : Operation → Prop
  | .push | .pop | .call | .ret | .store _ | .load .sp => False
  | _ => True

theorem operate_aloof {operation : Operation} (haloof : Aloof operation)
    (h : t.operate o b e operation = some (next, out)) :
    next.sp = t.sp ∧ next.memory = t.memory := by
  cases operation with
  | nop | enterAccumulator | enterIndex | complement | output | halt =>
    cases h
    exact ⟨rfl, rfl⟩
  | shift target direction =>
    cases h
    cases target <;> exact ⟨rfl, rfl⟩
  | shiftPair direction =>
    cases h
    exact ⟨rfl, rfl⟩
  | step target up =>
    cases h
    obtain ⟨a, x, i, overflow, hcounted⟩ := counted_eq t target up
    rw [hcounted]
    exact ⟨rfl, rfl⟩
  | load holder =>
    obtain ⟨w, -, hnext⟩ := Option.map_eq_some_iff.mp h
    cases hnext
    cases holder with
    | sp => exact haloof.elim
    | a | x | i => exact ⟨rfl, rfl⟩
  | add | subtract | input =>
    obtain ⟨w, -, hnext⟩ := Option.map_eq_some_iff.mp h
    cases hnext
    exact ⟨rfl, rfl⟩
  | combine connective =>
    cases connective <;>
    · obtain ⟨w, -, hnext⟩ := Option.map_eq_some_iff.mp h
      cases hnext
      exact ⟨rfl, rfl⟩
  | jump condition =>
    change (if t.takes condition then some _ else some (t, [])) = some (next, out) at h
    split at h <;>
    · cases h
      exact ⟨rfl, rfl⟩
  | store | push | pop | call | ret => exact haloof.elim

/-- A word that is put where SP is counted up to. -/
theorem put_above {u : Visible} {value : Nat}
    (h : ({ t with sp := (t.sp + 1) % 2 ^ 13 } : Visible).put ((t.sp + 1) % 2 ^ 13) value =
      some u) :
    u.sp = (t.sp + 1) % 2 ^ 13 ∧ u.cell u.sp = some (value % 2 ^ 20) ∧
      ∀ address, address ≠ u.sp → u.cell address = t.cell address := by
  have hsp : u.sp = (t.sp + 1) % 2 ^ 13 := (put_keeps h).1
  refine ⟨hsp, ?_, fun address hne => ?_⟩
  · rw [cell_put h, if_pos hsp]
  · rw [cell_put h, if_neg (hsp ▸ hne)]
    rfl

theorem operate_saves {operation : Operation} {value : Nat}
    (hvalue : operation = .push ∧ value = t.a ∨ operation = .call ∧ value = t.pc)
    (h : t.operate o b e operation = some (next, out)) :
    next.sp = (t.sp + 1) % 2 ^ 13 ∧ next.cell next.sp = some (value % 2 ^ 20) ∧
      ∀ address, address ≠ next.sp → next.cell address = t.cell address := by
  obtain ⟨rfl, rfl⟩ | ⟨rfl, rfl⟩ := hvalue <;>
  · obtain ⟨u, hput, hnext⟩ := Option.map_eq_some_iff.mp h
    have habove := put_above hput
    cases hnext
    exact habove

theorem operate_restores {operation : Operation} (hrestores : operation = .pop ∨ operation = .ret)
    (h : t.operate o b e operation = some (next, out)) :
    ∃ w, t.cell t.sp = some w ∧ next.sp = (t.sp + (2 ^ 13 - 1)) % 2 ^ 13 ∧
      next.memory = t.memory ∧ (operation = .pop → next.a = w) ∧
      (operation = .ret → next.pc = w % 2 ^ 13) := by
  obtain rfl | rfl := hrestores <;>
  · obtain ⟨w, hcell, hnext⟩ := Option.map_eq_some_iff.mp h
    cases hnext
    exact ⟨w, hcell, rfl, rfl, by simp, by simp⟩

theorem operate_store {holder : Holder} (h : t.operate o b e (.store holder) = some (next, out)) :
    next.sp = t.sp ∧ ∀ address, address ≠ e → next.cell address = t.cell address := by
  obtain ⟨u, hput, hnext⟩ := Option.map_eq_some_iff.mp h
  cases hnext
  refine ⟨(put_keeps hput).1, fun address hne => ?_⟩
  rw [cell_put hput, if_neg hne]

end Visible

section
variable {before after : Visible}

/-- What a completed instruction has done to the registers of the stack and to the memory. -/
theorem Completes.operated_stack (h : Completes before after) :
    ∃ i operation next out, before.operation? = some operation ∧
      (before.withInput i).advanced.operate (before.word % 2 ^ 13) before.last before.effective
        operation = some (next, out) ∧
      after.sp = next.sp ∧ after.a = next.a ∧ after.pc = next.pc ∧ after.memory = next.memory := by
  obtain ⟨i, j, operation, next, out, hoperation, hoperate, hafter⟩ := h.operated
  have hfinished : (next.finished operation).sp = next.sp ∧ (next.finished operation).a = next.a ∧
      (next.finished operation).pc = next.pc ∧ (next.finished operation).memory = next.memory := by
    unfold Visible.finished
    split <;> exact ⟨rfl, rfl, rfl, rfl⟩
  rw [← hafter] at hfinished
  exact ⟨i, operation, next, out, hoperation, hoperate, hfinished⟩

/-- What an instruction saves on the stack: a push the accumulator, a call the address behind it. -/
def Visible.saves (t : Visible) : Nat :=
  if t.operation? = some .push then t.a else (t.pc + 1) % 2 ^ 13

/-- A push or a call counts SP up and saves in the cell there. -/
theorem Completes.saved (h : Completes before after) (ha : before.a < 2 ^ 20)
    (hsaves : before.operation? = some .push ∨ before.operation? = some .call) :
    after.sp = (before.sp + 1) % 2 ^ 13 ∧ after.cell after.sp = some before.saves ∧
      ∀ address, address ≠ after.sp → after.cell address = before.cell address := by
  obtain ⟨i, operation, next, out, hoperation, hoperate, hsp, -, -, hmemory⟩ := h.operated_stack
  have hvalue : operation = .push ∧ before.saves = before.a ∨
      operation = .call ∧ before.saves = (before.pc + 1) % 2 ^ 13 := by
    rw [hoperation, Option.some.injEq, Option.some.injEq] at hsaves
    rw [Visible.saves, hoperation]
    obtain rfl | rfl := hsaves
    · exact .inl ⟨rfl, if_pos rfl⟩
    · exact .inr ⟨rfl, if_neg (by simp)⟩
  have hword : before.saves % 2 ^ 20 = before.saves := by omega
  have hcell (address : Nat) : after.cell address = next.cell address := by
    rw [Visible.cell, hmemory]
    rfl
  obtain ⟨hup, htop, hothers⟩ := Visible.operate_saves hvalue hoperate
  refine ⟨hsp.trans hup, ?_, fun address hne => ?_⟩
  · rw [hcell, hsp, htop, hword]
  · rw [hcell]
    exact hothers address (hsp ▸ hne)

/-- A pop or a return takes the word in the cell at SP and counts SP down. -/
theorem Completes.restored (h : Completes before after)
    (hrestores : before.operation? = some .pop ∨ before.operation? = some .ret) :
    after.sp = (before.sp + (2 ^ 13 - 1)) % 2 ^ 13 ∧ after.memory = before.memory ∧
      ∃ w, before.cell before.sp = some w ∧
        (before.operation? = some .pop → after.a = w) ∧
        (before.operation? = some .ret → after.pc = w % 2 ^ 13) := by
  obtain ⟨i, operation, next, out, hoperation, hoperate, hsp, ha, hpc, hmemory⟩ :=
    h.operated_stack
  simp only [hoperation, Option.some.injEq] at hrestores ⊢
  obtain ⟨w, hcell, hdown, hsame, hpop, hret⟩ := Visible.operate_restores hrestores hoperate
  exact ⟨hsp.trans hdown, hmemory.trans hsame, w, hcell, fun heq => ha.trans (hpop heq),
    fun heq => hpc.trans (hret heq)⟩

/-- A store changes one cell, and not SP. -/
theorem Completes.stored (h : Completes before after) {holder : Holder}
    (hstore : before.operation? = some (.store holder)) :
    after.sp = before.sp ∧
      ∀ address, address ≠ before.effective → after.cell address = before.cell address := by
  obtain ⟨i, operation, next, out, hoperation, hoperate, hsp, -, -, hmemory⟩ := h.operated_stack
  obtain rfl : operation = .store holder := Option.some.inj (hoperation.symm.trans hstore)
  obtain ⟨hkept, hcells⟩ := Visible.operate_store hoperate
  refine ⟨hsp.trans hkept, fun address hne => ?_⟩
  rw [Visible.cell, hmemory]
  exact hcells address hne

theorem Completes.steady (h : Completes before after) {operation : Operation}
    (hoperation : before.operation? = some operation) (haloof : Visible.Aloof operation) :
    after.sp = before.sp ∧ after.memory = before.memory := by
  obtain ⟨i, found, next, out, hfound, hoperate, hsp, -, -, hmemory⟩ := h.operated_stack
  obtain rfl : operation = found := Option.some.inj (hoperation.symm.trans hfound)
  obtain ⟨hkept, hsame⟩ := Visible.operate_aloof haloof hoperate
  exact ⟨hsp.trans hkept, hmemory.trans hsame⟩

end

/-! ## Cells in use -/

/-- The cells in use lie one after the other from behind `start` on, and hold what has been
saved. -/
inductive Stowed (start : Nat) (t : Visible) : List (Visible × Visible) → Prop
  | nil : Stowed start t []
  | cons {p : Visible × Visible} {rest : List (Visible × Visible)}
    (hsp : p.2.sp = (start + rest.length + 1) % 2 ^ 13)
    (hcell : t.cell p.2.sp = some p.1.saves) (hrest : Stowed start t rest) :
    Stowed start t (p :: rest)

/-- SP counts the cells in use, and what is in them is still there. -/
structure Stacked (start : Nat) (waiting : List (Visible × Visible)) (t : Visible) : Prop where
  sp : t.sp = (start + waiting.length) % 2 ^ 13
  bounded : t.a < 2 ^ 20
  stowed : Stowed start t waiting

section
variable {start : Nat} {waiting rest : List (Visible × Visible)} {t before after : Visible}
  {q : Visible × Visible}

/-- Cells in use are kept as long as they hold the same. -/
theorem Stowed.frame (h : Stowed start before waiting)
    (hsame : ∀ p ∈ waiting, after.cell p.2.sp = before.cell p.2.sp) :
    Stowed start after waiting := by
  induction h with
  | nil => exact .nil
  | cons hsp hcell _ ih =>
    obtain ⟨hhead, htail⟩ := List.forall_mem_cons.mp hsame
    exact .cons hsp (hhead.trans hcell) (ih htail)

theorem Stowed.sp_of_mem (h : Stowed start t waiting) {p : Visible × Visible} (hp : p ∈ waiting) :
    ∃ k < waiting.length, p.2.sp = (start + k + 1) % 2 ^ 13 := by
  induction h with
  | nil => cases hp
  | @cons q rest hsp _ _ ih =>
    obtain rfl | hrest := List.mem_cons.mp hp
    · exact ⟨rest.length, Nat.lt_succ_self _, hsp⟩
    · obtain ⟨k, hk, hsp⟩ := ih hrest
      exact ⟨k, Nat.lt_succ_of_lt hk, hsp⟩

/-- A cell that is put into use is none of those in use, even where SP wraps around. -/
theorem Stacked.save (h : Stacked start waiting before) (hlast : Completes before after)
    (hsaves : before.operation? = some .push ∨ before.operation? = some .call)
    (hroom : waiting.length < 2 ^ 13) : Stacked start ((before, after) :: waiting) after := by
  obtain ⟨hup, hcell, hothers⟩ := hlast.saved h.bounded hsaves
  have hsp : after.sp = (start + waiting.length + 1) % 2 ^ 13 := by
    rw [hup, h.sp]
    omega
  have hkept : Stowed start after waiting := h.stowed.frame fun p hp => by
    obtain ⟨k, hk, hold⟩ := h.stowed.sp_of_mem hp
    exact hothers _ (by omega)
  refine ⟨?_, hlast.bounded, .cons hsp hcell hkept⟩
  rw [hsp, List.length_cons, Nat.add_assoc]

/-- What is taken off the stack is what has been saved last. -/
theorem Stacked.top (h : Stacked start (q :: rest) t) : t.cell t.sp = some q.1.saves := by
  obtain ⟨hsp, -, hkept⟩ := h
  cases hkept with
  | cons htop hcell _ =>
    rw [hsp, List.length_cons, ← Nat.add_assoc, ← htop]
    exact hcell

theorem Stacked.restore (h : Stacked start (q :: rest) before) (hlast : Completes before after)
    (hrestores : before.operation? = some .pop ∨ before.operation? = some .ret) :
    Stacked start rest after := by
  obtain ⟨hdown, hmemory, -⟩ := hlast.restored hrestores
  obtain ⟨hsp, -, hkept⟩ := h
  cases hkept with
  | cons _ _ hrest =>
    refine ⟨?_, hlast.bounded, hrest.frame fun p _ => by rw [Visible.cell, hmemory]; rfl⟩
    rw [hdown, hsp, List.length_cons]
    omega

theorem Stacked.keep (h : Stacked start waiting before) (hlast : Completes before after)
    (hsp : after.sp = before.sp)
    (hsame : ∀ p ∈ waiting, after.cell p.2.sp = before.cell p.2.sp) :
    Stacked start waiting after :=
  ⟨hsp.trans h.sp, hlast.bounded, h.stowed.frame hsame⟩

/-- An instruction that keeps to the brackets keeps the stack. -/
theorem Stacked.step (h : Stacked start waiting before) (hlast : Completes before after)
    {next : List (Visible × Visible)} (hnested : nested waiting (before, after) = some next) :
    Stacked start next after := by
  obtain ⟨-, operation, -, -, hoperation, -⟩ := hlast.operated_stack
  have haloof (haloof : Visible.Aloof operation) : Stacked start waiting after := by
    obtain ⟨hsp, hmemory⟩ := hlast.steady hoperation haloof
    exact h.keep hlast hsp fun p _ => by rw [Visible.cell, hmemory]; rfl
  simp only [nested, hoperation] at hnested
  cases operation with
  | push | call =>
    dsimp only at hnested
    split at hnested
    · next hroom =>
      cases hnested
      exact h.save hlast (by simp [hoperation]) hroom
    · cases hnested
  | pop | ret =>
    obtain ⟨q, rfl, -⟩ := closes_eq_some_iff.mp hnested
    exact h.restore hlast (by simp [hoperation])
  | store holder =>
    dsimp only at hnested
    split at hnested
    · next hclear =>
      cases hnested
      obtain ⟨hsp, hcells⟩ := hlast.stored hoperation
      exact h.keep hlast hsp fun p hp => hcells _ (hclear p hp)
    · cases hnested
  | load holder =>
    cases holder with
    | sp => cases hnested
    | a | x | i =>
      cases hnested
      exact haloof trivial
  | _ =>
    cases hnested
    exact haloof trivial

/-- Completed instructions that keep to the brackets keep the stack. -/
theorem Executed.stacked {first : Visible} {list : List (Visible × Visible)}
    (h : Executed first list t) (ha : first.a < 2 ^ 20) (hsp : first.sp < 2 ^ 13)
    (hwaiting : inUse list = some waiting) : Stacked first.sp waiting t := by
  induction h generalizing waiting with
  | start =>
    cases hwaiting
    refine ⟨?_, ha, .nil⟩
    rw [List.length_nil, Nat.add_zero, Nat.mod_eq_of_lt hsp]
  | @next list before after earlier hlast ih =>
    rw [inUse_append] at hwaiting
    obtain ⟨found, hfound, hnested⟩ := Option.bind_eq_some_iff.mp hwaiting
    exact (ih hfound).step hlast hnested

end

/-! ## Runs -/

/-- From one place in front of an instruction to another, with pushes and calls that are all
matched in between, SP comes back, each pop restores the accumulator that its push has saved, and
each return leads behind its call. This holds wherever SP starts, so also where it wraps around. -/
theorem stack_discipline {m : Machine} (hm : m.WellFormed) (hat : m.AtInstruction)
    (drives : List Drive) (hend : (m.chronicle drives).machine.atInstruction = true)
    (hmatched : inUse (m.chronicle drives).completed = some []) :
    (m.chronicle drives).machine.registers.sp = m.registers.sp ∧
    ∀ earlier before after later,
      (m.chronicle drives).completed = earlier ++ (before, after) :: later →
      (before.operation? = some .pop → ∃ q rest, inUse earlier = some (q :: rest) ∧
        q.1.operation? = some .push ∧ after.a = q.1.a) ∧
      (before.operation? = some .ret → ∃ q rest, inUse earlier = some (q :: rest) ∧
        q.1.operation? = some .call ∧ after.pc = (q.1.pc + 1) % 2 ^ 13) := by
  have hsound := Machine.sound_chronicle hm hat drives
  have ha : m.visible.a < 2 ^ 20 := hm.fits .a
  have hsp : m.visible.sp < 2 ^ 13 := hm.fits .sp
  refine ⟨?_, fun earlier before after later hlist => ?_⟩
  · have hlast := (hsound.executed.stacked ha hsp hmatched).sp
    obtain ⟨-, -, -, hresting, -⟩ := Visible.ext_iff.mp (hsound.resting hend)
    rw [List.length_nil, Nat.add_zero, Nat.mod_eq_of_lt hsp] at hlast
    exact hresting.trans hlast
  · have hexecuted := hsound.executed
    rw [hlist] at hexecuted hmatched
    obtain ⟨hearlier, hcompletes⟩ := hexecuted.split
    rw [← List.singleton_append, ← List.append_assoc] at hmatched
    obtain ⟨found, hfound⟩ := inUse_of_append hmatched
    rw [inUse_append] at hfound
    obtain ⟨waiting, hwaiting, hnested⟩ := Option.bind_eq_some_iff.mp hfound
    have hstacked := hearlier.stacked ha hsp hwaiting
    refine ⟨fun hpop => ?_, fun hret => ?_⟩
    · simp only [nested, hpop] at hnested
      obtain ⟨q, rfl, hpush⟩ := closes_eq_some_iff.mp hnested
      obtain ⟨-, -, w, hcell, hrestored, -⟩ := hcompletes.restored (.inl hpop)
      obtain rfl : w = q.1.saves := Option.some.inj (hcell.symm.trans hstacked.top)
      refine ⟨q, found, hwaiting, hpush, ?_⟩
      rw [hrestored hpop, Visible.saves, if_pos hpush]
    · simp only [nested, hret] at hnested
      obtain ⟨q, rfl, hcall⟩ := closes_eq_some_iff.mp hnested
      obtain ⟨-, -, w, hcell, -, hreturned⟩ := hcompletes.restored (.inr hret)
      obtain rfl : w = q.1.saves := Option.some.inj (hcell.symm.trans hstacked.top)
      refine ⟨q, found, hwaiting, hcall, ?_⟩
      rw [hreturned hret, Visible.saves, if_neg (by simp [hcall]), Nat.mod_mod]

/-- SP is loaded with 8191; then the accumulator is pushed around a call, whose return address lies
above it in cell 1. -/
theorem stack_discipline_wrapped :
    let m := (chronicle (.ofList [12 * 2 ^ 15 + 8, 7 * 2 ^ 15 + 5, 8 * 2 ^ 15, 24 * 2 ^ 15 + 6,
      9 * 2 ^ 15, 31 * 2 ^ 15, 7 * 2 ^ 15 + 9, 30 * 2 ^ 15, 8191])
      (List.replicate 5 .microStep)).machine
    let c := m.chronicle (List.replicate 36 .microStep)
    m.registers.sp = 8191 ∧ c.machine.atInstruction = true ∧ inUse c.completed = some [] ∧
      c.machine.registers.sp = 8191 ∧
      (∃ p ∈ c.completed, p.1.operation? = some .ret ∧ p.1.sp = 1 ∧ p.2.pc = 4) ∧
      ∃ p ∈ c.completed, p.1.operation? = some .pop ∧ p.1.a = 9 ∧ p.2.a = 5 := by
  intro m c
  have hm : m.WellFormed := (sound_chronicle _ _).wellFormed
  have hrun : m.status = .running := by decide +kernel
  have hfront : m.atInstruction = true := by decide +kernel
  have hend : c.machine.atInstruction = true := by decide +kernel
  have hmatched : inUse c.completed = some [] := by decide +kernel
  have hsp : m.registers.sp = 8191 := by decide +kernel
  have hret : (c.completed[4]?.map fun p => (p.1.operation?, p.1.sp)) = some (some .ret, 1) := by
    decide +kernel
  have hpop : (c.completed[5]?.map fun p => (p.1.operation?, p.1.a)) = some (some .pop, 9) := by
    decide +kernel
  have hcall : (inUse (c.completed.take 4)).map (·.map (·.1.pc)) = some [3, 2] := by decide +kernel
  have hpush : (inUse (c.completed.take 5)).map (·.map (·.1.a)) = some [5] := by decide +kernel
  have hsplit {k : Nat} {p : Visible × Visible} (hp : c.completed[k]? = some p) :
      c.completed = c.completed.take k ++ p :: c.completed.drop (k + 1) := by
    obtain ⟨hk, rfl⟩ := List.getElem?_eq_some_iff.mp hp
    rw [← List.drop_eq_getElem_cons hk, List.take_append_drop]
  obtain ⟨hback, hpairs⟩ := stack_discipline hm (hm.atInstruction hrun hfront) _ hend hmatched
  -- Without the names the two numbers would be compared by running the machine.
  have hname : m.chronicle (List.replicate 36 .microStep) = c := rfl
  rw [hname, hsp] at hback
  obtain ⟨p, hp, hreturns⟩ := Option.map_eq_some_iff.mp hret
  obtain ⟨p', hp', hpops⟩ := Option.map_eq_some_iff.mp hpop
  obtain ⟨hreturn, hsp'⟩ := Prod.mk.inj hreturns
  obtain ⟨hrestore, ha'⟩ := Prod.mk.inj hpops
  refine ⟨hsp, hend, hmatched, hback,
    ⟨p, List.mem_of_getElem? hp, hreturn, hsp', ?_⟩,
    p', List.mem_of_getElem? hp', hrestore, ha', ?_⟩
  · obtain ⟨q, rest, hwaiting, -, hpc⟩ := (hpairs _ _ _ _ (hsplit hp)).2 hreturn
    rw [hwaiting, Option.map_some, Option.some.injEq, List.map_cons, List.cons.injEq] at hcall
    rw [hpc, hcall.1]
  · obtain ⟨q, rest, hwaiting, -, ha⟩ := (hpairs _ _ _ _ (hsplit hp')).1 hrestore
    rw [hwaiting, Option.map_some, Option.some.injEq, List.map_cons, List.cons.injEq] at hpush
    rw [ha, hpush.1]

end TrnComputer
