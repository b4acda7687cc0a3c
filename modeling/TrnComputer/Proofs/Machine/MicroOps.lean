import TrnComputer.Machine.State
import TrnComputer.Proofs.Cells
import TrnComputer.Proofs.Machine.Registers

/-! # What micro-operations change

* `MicroOp.writes`: the registers that a micro-operation may change.
* `MicroOp.Bounded`: a micro-operation whose wide loads are those of an indexed address. It keeps
  every register below its bound (`fits_performAll`).
* `MicroOp.perform_induct`: all that a micro-operation can do. What stays under several of them in
  a row follows from it by `MicroOp.performAll_induct`.
-/

namespace TrnComputer
set_option autoImplicit false

/-! ## Fields of the machine -/

namespace Machine

variable (m : Machine) (q : Register) (value : Nat)

@[simp] theorem memory_setRegister : (m.setRegister q value).memory = m.memory := rfl

@[simp] theorem status_setRegister : (m.setRegister q value).status = m.status := rfl

@[simp] theorem overflow_setRegister : (m.setRegister q value).overflow = m.overflow := rfl

@[simp] theorem input_setRegister : (m.setRegister q value).input = m.input := rfl

@[simp] theorem awaitsInput_setRegister :
    (m.setRegister q value).awaitsInput = m.awaitsInput := rfl

@[simp] theorem phaseOpen_setRegister : (m.setRegister q value).phaseOpen = m.phaseOpen := rfl

theorem registers_setRegister :
    (m.setRegister q value).registers = m.registers.set q value := rfl

end Machine

/-! ## Expressions -/

namespace Expression

def reads : Expression → List Register
  | register q | successor q | predecessor q | complement q | shifted q _ => [q]
  | sum | combined _ => [.a, .br]
  | pairHigh _ | pairLow _ => [.a, .x]
  | operand | signedOperand => [.ir]
  | indexedOperand => [.ir, .i]

theorem value_congr {e : Expression} {r t : Registers} (h : ∀ q ∈ e.reads, r.get q = t.get q) :
    e.value r = e.value t := by
  cases e with
  | register q | successor q | predecessor q | complement q =>
    simp only [value, h q (by simp [reads])]
  | shifted q direction =>
    cases direction <;> simp only [value, h q (by simp [reads])]
  | sum =>
    have ha : r.a = t.a := h .a (by simp [reads])
    have hbr : r.br = t.br := h .br (by simp [reads])
    simp only [value, ha, hbr]
  | combined connective =>
    have ha : r.a = t.a := h .a (by simp [reads])
    have hbr : r.br = t.br := h .br (by simp [reads])
    simp only [value, ha, hbr]
  | pairHigh direction =>
    have ha : r.a = t.a := h .a (by simp [reads])
    have hx : r.x = t.x := h .x (by simp [reads])
    simp only [value, Registers.shiftedPair, ha, hx]
  | pairLow direction =>
    have ha : r.a = t.a := h .a (by simp [reads])
    have hx : r.x = t.x := h .x (by simp [reads])
    simp only [value, Registers.shiftedPair, ha, hx]
  | operand | signedOperand =>
    have hir : r.ir = t.ir := h .ir (by simp [reads])
    simp only [value, Registers.operand, hir]
  | indexedOperand =>
    have hir : r.ir = t.ir := h .ir (by simp [reads])
    have hi : r.i = t.i := h .i (by simp [reads])
    simp only [value, Registers.operand, hir, hi]

end Expression

namespace MicroOp

theorem performRead_of_some {m : Machine} {value : Nat}
    (h : m.memory.get? m.registers.ar = some value) :
    performRead m = (m.setRegister .br (value % 2 ^ 20),
      .cell m.registers.ar value .read :: m.movedEvents .br .load .cell (value % 2 ^ 20),
      none) := by
  simp only [performRead, Memory.read, h]
  rfl

theorem performRead_of_none {m : Machine} (h : m.memory.get? m.registers.ar = none) :
    performRead m =
      (m, [], some (.fault (.memory ⟨m.registers.ar, m.memory.size⟩))) := by
  simp only [performRead, Memory.read, h]

/-- The machine after the buffer has gone into the cell that AR points at. -/
def stored (m : Machine) : Machine :=
  { m with
    memory := ⟨m.memory.cells.setIfInBounds m.registers.ar (Word.significant m.registers.br)⟩ }

theorem performWrite_of_lt {m : Machine} (h : m.registers.ar < m.memory.size) :
    performWrite m = (stored m,
      [m.observation .br, .cell m.registers.ar (Word.significant m.registers.br) .write,
        .moved m.registers.clock .toCell (Word.significant m.registers.br)], none) := by
  have hsig : Word.significant (Word.significant m.registers.br)
      = Word.significant m.registers.br := Nat.mod_mod _ _
  simp only [performWrite, Memory.write_of_lt h, hsig]
  rfl

theorem performWrite_of_le {m : Machine} (h : m.memory.size ≤ m.registers.ar) :
    performWrite m = (m, [m.observation .br],
      some (.fault (.memory ⟨m.registers.ar, m.memory.size⟩))) := by
  simp only [performWrite, Memory.write_of_le h]

theorem size_stored (m : Machine) : (stored m).memory.size = m.memory.size := by
  simp [stored, Memory.size]

theorem performInput_of_some {m : Machine} {value : Nat} (h : m.input = some value) :
    performInput m =
      ({ m with input := none, awaitsInput := false }.setRegister .br (value % 2 ^ 20),
        m.movedEvents .br .load .input (value % 2 ^ 20), none) := by
  simp only [performInput, h]
  rfl

theorem performInput_of_none {m : Machine} (h : m.input = none) :
    performInput m = ({ m with awaitsInput := true },
      if m.awaitsInput then [] else [.inputRequested], some .awaitsInput) := by
  simp only [performInput, h]

theorem performRead_machine (m : Machine) :
    (∃ value, (performRead m).1 = m.setRegister .br (value % 2 ^ 20)) ∨ (performRead m).1 = m := by
  cases h : m.memory.get? m.registers.ar with
  | none => exact .inr (by rw [performRead_of_none h])
  | some value => exact .inl ⟨value, by rw [performRead_of_some h]⟩

theorem performWrite_machine (m : Machine) :
    (performWrite m).1 = stored m ∨ (performWrite m).1 = m := by
  rcases Nat.lt_or_ge m.registers.ar m.memory.size with h | h
  · exact .inl (by rw [performWrite_of_lt h])
  · exact .inr (by rw [performWrite_of_le h])

theorem performInput_machine (m : Machine) :
    (∃ value, (performInput m).1 =
      { m with input := none, awaitsInput := false }.setRegister .br (value % 2 ^ 20)) ∨
    (performInput m).1 = { m with awaitsInput := true } := by
  rcases Option.eq_none_or_eq_some m.input with h | ⟨value, h⟩
  · exact .inr (by rw [performInput_of_none h])
  · exact .inl ⟨value, by rw [performInput_of_some h]⟩

theorem performAll_singleton (m : Machine) (op : MicroOp) : performAll m [op] = perform m op := by
  unfold performAll
  split
  next h => exact h.symm
  next h => simp only [performAll, List.append_nil]; exact h.symm

theorem performAll_cons (m : Machine) (op : MicroOp) (rest : List MicroOp) :
    performAll m (op :: rest) =
      match perform m op with
      | (n, events, some stop) => (n, events, some stop)
      | (n, events, none) =>
        ((performAll n rest).1, events ++ (performAll n rest).2.1, (performAll n rest).2.2) := rfl

theorem performAll_append (m : Machine) (ops more : List MicroOp) :
    performAll m (ops ++ more) =
      match performAll m ops with
      | (n, events, some stop) => (n, events, some stop)
      | (n, events, none) =>
        ((performAll n more).1, events ++ (performAll n more).2.1, (performAll n more).2.2) := by
  induction ops generalizing m with
  | nil => rfl
  | cons op ops ih =>
    rw [List.cons_append, performAll_cons, performAll_cons]
    obtain ⟨n, events, stop⟩ := perform m op
    cases stop with
    | some stop => rfl
    | none =>
      simp only [ih]
      obtain ⟨k, later, stop⟩ := performAll n ops
      cases stop with
      | some stop => rfl
      | none => simp

/-! ## What changes -/

/-- The registers that a micro-operation may change. -/
def writes : MicroOp → List Register
  | transfer target _ _ => [target]
  | shiftPair _ => [.a, .x]
  | readCell | takeInput => [.br]
  | halt => [.h]
  | observe _ | watch _ | forgetOverflow | writeCell | output => []

def reads : MicroOp → List Register
  | observe q => [q]
  | transfer _ _ e => e.reads
  | _ => []

/-- A wide load is that of an indexed address. -/
def Bounded : MicroOp → Prop
  | transfer target .loadWide e => target = .ar ∧ e = .indexedOperand
  | _ => True

instance : DecidablePred Bounded
  | transfer target .loadWide e => inferInstanceAs (Decidable (target = .ar ∧ e = .indexedOperand))
  | transfer _ .load _ | transfer _ .modify _ | observe _ | shiftPair _ | watch _ | forgetOverflow
  | readCell | writeCell | takeInput | output | halt => isTrue trivial

theorem cut_load_lt (q : Register) (value : Nat) : Manner.load.cut q value < q.limit :=
  Nat.lt_of_lt_of_le (Nat.mod_lt _ (Nat.two_pow_pos _)) q.two_pow_width_le_limit

theorem cut_modify_lt (q : Register) (value : Nat) : Manner.modify.cut q value < q.limit :=
  cut_load_lt q value

theorem cut_transfer_lt {target : Register} {manner : Manner} {e : Expression}
    (hop : (transfer target manner e).Bounded) {r : Registers} (h : r.Fits) :
    manner.cut target (e.value r) < target.limit := by
  cases manner with
  | load => exact cut_load_lt _ _
  | modify => exact cut_modify_lt _ _
  | loadWide =>
    obtain ⟨rfl, rfl⟩ := hop
    exact Nat.lt_of_le_of_lt (Nat.mod_le _ _) h.indexedOperand_lt

/-- All that a micro-operation can do to the machine: set the registers that it writes, remember
an overflow, change a cell, deal with input if it is `takeInput` and stop the machine if it is
`halt`. What all of these keep, the micro-operation keeps. -/
theorem perform_induct {P : Machine → Prop} {op : MicroOp} {m : Machine} (hm : P m)
    (hregister : ∀ n q value, q ∈ op.writes →
      (op.Bounded → n.registers.Fits → value < q.limit) → P n → P (n.setRegister q value))
    (hoverflow : ∀ n b, P n → P { n with overflow := b })
    (hcell : ∀ n, P n → P (stored n))
    (hinput : op = .takeInput → ∀ n, P n →
      P { n with input := none, awaitsInput := false } ∧ P { n with awaitsInput := true })
    (hhalt : op = .halt → ∀ n, P n → P { n with status := .halted }) :
    P (perform m op).1 := by
  cases op with
  | observe _ | output => exact hm
  | watch _ | forgetOverflow => exact hoverflow m _ hm
  | transfer target manner e =>
    exact hregister m target _ List.mem_cons_self (fun hb hf => cut_transfer_lt hb hf) hm
  | shiftPair direction =>
    have hx : Register.x ∈ (shiftPair direction).writes := by simp [writes]
    apply hregister _ .x _ hx (fun _ _ => cut_modify_lt _ _)
    exact hregister m .a _ List.mem_cons_self (fun _ _ => cut_modify_lt _ _) hm
  | readCell =>
    change P (performRead m).1
    obtain ⟨value, hv⟩ | hv := performRead_machine m <;> rw [hv]
    · exact hregister m .br _ List.mem_cons_self (fun _ _ => cut_load_lt .br value) hm
    · exact hm
  | writeCell =>
    change P (performWrite m).1
    obtain hv | hv := performWrite_machine m <;> rw [hv]
    · exact hcell m hm
    · exact hm
  | takeInput =>
    change P (performInput m).1
    obtain ⟨value, hv⟩ | hv := performInput_machine m <;> rw [hv]
    · have htaken := (hinput rfl m hm).1
      exact hregister _ .br _ List.mem_cons_self (fun _ _ => cut_load_lt .br value) htaken
    · exact (hinput rfl m hm).2
  | halt =>
    have hset := hregister m .h _ List.mem_cons_self (fun _ _ => cut_load_lt .h 1) hm
    exact hhalt rfl _ hset

theorem performAll_induct {P : Machine → Prop} {ops : List MicroOp} {m : Machine} (hm : P m)
    (hregister : ∀ op ∈ ops, ∀ n q value, q ∈ op.writes →
      (op.Bounded → n.registers.Fits → value < q.limit) → P n → P (n.setRegister q value))
    (hoverflow : ∀ n b, P n → P { n with overflow := b })
    (hcell : ∀ n, P n → P (stored n))
    (hinput : .takeInput ∈ ops → ∀ n, P n →
      P { n with input := none, awaitsInput := false } ∧ P { n with awaitsInput := true })
    (hhalt : .halt ∈ ops → ∀ n, P n → P { n with status := .halted }) :
    P (performAll m ops).1 := by
  induction ops generalizing m with
  | nil => exact hm
  | cons op ops ih =>
    have h1 : P (perform m op).1 :=
      perform_induct hm (hregister op List.mem_cons_self) hoverflow hcell
        (fun he => hinput (he ▸ List.mem_cons_self)) (fun he => hhalt (he ▸ List.mem_cons_self))
    have h2 := ih h1 (fun o ho => hregister o (List.mem_cons_of_mem op ho))
      (fun ho => hinput (List.mem_cons_of_mem op ho)) (fun ho => hhalt (List.mem_cons_of_mem op ho))
    unfold performAll
    split
    next heq => rw [heq] at h1; exact h1
    next heq => rw [heq] at h2; exact h2

/-! ## What stays -/

theorem get_performAll {q : Register} {ops : List MicroOp} (h : ∀ op ∈ ops, q ∉ op.writes)
    (m : Machine) : (performAll m ops).1.registers.get q = m.registers.get q := by
  apply performAll_induct (P := fun n => n.registers.get q = m.registers.get q) rfl
  · intro op hop n p value hp _ hn
    have hqp : q ≠ p := fun he => h op hop (he ▸ hp)
    exact (Registers.get_set_of_ne _ hqp value).trans hn
  · exact fun _ _ hn => hn
  · exact fun _ hn => hn
  · exact fun _ _ hn => ⟨hn, hn⟩
  · exact fun _ _ hn => hn

theorem control_performAll (m : Machine) (ops : List MicroOp) :
    (performAll m ops).1.registers.clock = m.registers.clock ∧
      (performAll m ops).1.phaseOpen = m.phaseOpen ∧
      (performAll m ops).1.memory.size = m.memory.size := by
  apply performAll_induct (P := fun n => n.registers.clock = m.registers.clock ∧
    n.phaseOpen = m.phaseOpen ∧ n.memory.size = m.memory.size) ⟨rfl, rfl, rfl⟩
  · intro _ _ n q value _ _ hn
    exact ⟨(Registers.clock_set _ q value).trans hn.1, hn.2⟩
  · exact fun _ _ hn => hn
  · exact fun n hn => ⟨hn.1, hn.2.1, (size_stored n).trans hn.2.2⟩
  · exact fun _ _ hn => ⟨hn, hn⟩
  · exact fun _ _ hn => hn

theorem status_performAll {ops : List MicroOp} (h : .halt ∉ ops) (m : Machine) :
    (performAll m ops).1.status = m.status := by
  apply performAll_induct (P := fun n => n.status = m.status) rfl
  · exact fun _ _ _ _ _ _ _ hn => hn
  · exact fun _ _ hn => hn
  · exact fun _ hn => hn
  · exact fun _ _ hn => ⟨hn, hn⟩
  · exact fun hmem => absurd hmem h

theorem waiting_performAll {ops : List MicroOp} (h : .takeInput ∉ ops) (m : Machine) :
    (performAll m ops).1.input = m.input ∧
      (performAll m ops).1.awaitsInput = m.awaitsInput := by
  apply performAll_induct
    (P := fun n => n.input = m.input ∧ n.awaitsInput = m.awaitsInput) ⟨rfl, rfl⟩
  · exact fun _ _ _ _ _ _ _ hn => hn
  · exact fun _ _ hn => hn
  · exact fun _ hn => hn
  · exact fun hmem => absurd hmem h
  · exact fun _ _ hn => hn

theorem fits_performAll {ops : List MicroOp} (hops : ∀ op ∈ ops, op.Bounded) {m : Machine}
    (h : m.registers.Fits) : (performAll m ops).1.registers.Fits := by
  apply performAll_induct (P := fun n => n.registers.Fits) h
  · exact fun op hop n _ _ _ hv hn => hn.set (hv (hops op hop) hn)
  · exact fun _ _ hn => hn
  · exact fun _ hn => hn
  · exact fun _ _ hn => ⟨hn, hn⟩
  · exact fun _ _ hn => hn

theorem input_performAll {ops : List MicroOp} {m : Machine} {value : Nat}
    (h : (performAll m ops).1.input = some value) : m.input = some value := by
  have hback : (performAll m ops).1.input = some value → m.input = some value := by
    apply performAll_induct (P := fun n => n.input = some value → m.input = some value) id
    · exact fun _ _ _ _ _ _ _ hn => hn
    · exact fun _ _ hn => hn
    · exact fun _ hn => hn
    · exact fun _ n hn => ⟨fun hnone => absurd hnone (by simp), hn⟩
    · exact fun _ _ hn => hn
  exact hback h

/-! ## Stopping -/

theorem eq_takeInput_of_awaits {op : MicroOp} {m n : Machine} {events : List Event}
    (h : perform m op = (n, events, some .awaitsInput)) : op = .takeInput := by
  cases op with
  | observe _ | watch _ | forgetOverflow | output | transfer _ _ _ | shiftPair _ | halt =>
    cases h
  | readCell =>
    change performRead m = _ at h
    cases hc : m.memory.get? m.registers.ar with
    | none => rw [performRead_of_none hc] at h; cases h
    | some value => rw [performRead_of_some hc] at h; cases h
  | writeCell =>
    change performWrite m = _ at h
    rcases Nat.lt_or_ge m.registers.ar m.memory.size with hlt | hle
    · rw [performWrite_of_lt hlt] at h; cases h
    · rw [performWrite_of_le hle] at h; cases h
  | takeInput => rfl

theorem takeInput_mem_of_awaits {ops : List MicroOp} {m n : Machine} {events : List Event}
    (h : performAll m ops = (n, events, some .awaitsInput)) : .takeInput ∈ ops := by
  induction ops generalizing m n events with
  | nil => cases h
  | cons op ops ih =>
    cases hop : perform m op with
    | mk k rest =>
      obtain ⟨first, stop⟩ := rest
      simp only [performAll, hop] at h
      cases stop with
      | some stop =>
        obtain ⟨rfl, rfl, hstop⟩ : k = n ∧ first = events ∧ stop = .awaitsInput := by
          simpa using h
        rw [hstop] at hop
        rw [eq_takeInput_of_awaits hop]
        exact List.mem_cons_self
      | none =>
        have hrest : performAll k ops = (n, (performAll k ops).2.1, some .awaitsInput) := by
          have h1 := congrArg (·.1) h
          have h2 := congrArg (·.2.2) h
          exact Prod.ext h1 (Prod.ext rfl h2)
        exact List.mem_cons_of_mem op (ih hrest)

/-! ## The step counter -/

/-- A micro-operation that neither reads nor writes the step counter does the same at every
count. -/
theorem perform_count {op : MicroOp} (hreads : .sc ∉ op.reads) (hwrites : .sc ∉ op.writes)
    (m : Machine) (k : Nat) :
    perform (m.setRegister .sc k) op =
      ((perform m op).1.setRegister .sc k, (perform m op).2) := by
  cases op with
  | observe q =>
    have hq : q ≠ .sc := fun he => hreads (by simp [reads, he])
    simp only [perform, Machine.observation, Machine.registers_setRegister,
      Registers.get_set_of_ne _ hq]
  | transfer target manner e =>
    have ht : target ≠ .sc := fun he => hwrites (by simp [writes, he])
    have hvalue : e.value (m.registers.set .sc k) = e.value m.registers := by
      apply Expression.value_congr
      intro q hq
      have hne : q ≠ .sc := fun he => hreads (by simpa [reads, he] using hq)
      exact Registers.get_set_of_ne _ hne k
    simp only [perform, Machine.transfer, Machine.move, Machine.movedEvents,
      Machine.registers_setRegister, Registers.clock_set, hvalue]
    simp only [Machine.setRegister, Registers.set_comm _ ht]
  | shiftPair _ | watch _ | forgetOverflow | output | halt => rfl
  | readCell =>
    change performRead (m.setRegister .sc k) =
      ((performRead m).1.setRegister .sc k, (performRead m).2)
    cases hc : m.memory.get? m.registers.ar with
    | none =>
      have hc' : (m.setRegister .sc k).memory.get? (m.setRegister .sc k).registers.ar = none := hc
      rw [performRead_of_none hc, performRead_of_none hc']
      rfl
    | some value =>
      have hc' : (m.setRegister .sc k).memory.get? (m.setRegister .sc k).registers.ar =
          some value := hc
      rw [performRead_of_some hc, performRead_of_some hc']
      rfl
  | writeCell =>
    change performWrite (m.setRegister .sc k) =
      ((performWrite m).1.setRegister .sc k, (performWrite m).2)
    rcases Nat.lt_or_ge m.registers.ar m.memory.size with hlt | hle
    · have hlt' : (m.setRegister .sc k).registers.ar < (m.setRegister .sc k).memory.size := hlt
      rw [performWrite_of_lt hlt, performWrite_of_lt hlt']
      rfl
    · have hle' : (m.setRegister .sc k).memory.size ≤ (m.setRegister .sc k).registers.ar := hle
      rw [performWrite_of_le hle, performWrite_of_le hle']
      rfl
  | takeInput =>
    change performInput (m.setRegister .sc k) =
      ((performInput m).1.setRegister .sc k, (performInput m).2)
    cases hin : m.input with
    | none =>
      have hin' : (m.setRegister .sc k).input = none := hin
      rw [performInput_of_none hin, performInput_of_none hin']
      rfl
    | some value =>
      have hin' : (m.setRegister .sc k).input = some value := hin
      rw [performInput_of_some hin, performInput_of_some hin']
      rfl

theorem performAll_count {ops : List MicroOp} (hreads : ∀ op ∈ ops, .sc ∉ op.reads)
    (hwrites : ∀ op ∈ ops, .sc ∉ op.writes) (m : Machine) (k : Nat) :
    performAll (m.setRegister .sc k) ops =
      ((performAll m ops).1.setRegister .sc k, (performAll m ops).2) := by
  induction ops generalizing m with
  | nil => rfl
  | cons op ops ih =>
    have hop := perform_count (hreads op List.mem_cons_self) (hwrites op List.mem_cons_self) m k
    have hrest := ih (fun o ho => hreads o (List.mem_cons_of_mem op ho))
      (fun o ho => hwrites o (List.mem_cons_of_mem op ho))
    rw [performAll_cons, performAll_cons, hop]
    obtain ⟨n, events, stop⟩ := perform m op
    cases stop with
    | some stop => rfl
    | none => simp only [hrest n]

end MicroOp

end TrnComputer
