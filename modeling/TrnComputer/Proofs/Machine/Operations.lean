import TrnComputer.Proofs.Machine.Phases

/-! # Operations as a whole

* `Visible`: the part of the machine that programs work on.
* `Visible.operate`, `Visible.step`: what an operation and an instruction do to it, in one go.
* `MicroOp.seen_execute`: the micro-operations of an operation do just that.
-/

namespace TrnComputer
set_option autoImplicit false

/-- The part of the machine that programs work on. `overflow` is what V is to show. -/
@[ext] structure Visible where
  a : Nat
  x : Nat
  i : Nat
  sp : Nat
  pc : Nat
  v : Bool
  z : Bool
  s : Bool
  h : Bool
  memory : Memory
  overflow : Bool
  input : Option Nat
  deriving DecidableEq

/-- The part of a machine that programs work on. -/
def Machine.visible (m : Machine) : Visible where
  a := m.registers.a
  x := m.registers.x
  i := m.registers.i
  sp := m.registers.sp
  pc := m.registers.pc
  v := m.registers.v
  z := m.registers.z
  s := m.registers.s
  h := m.registers.h
  memory := m.memory
  overflow := m.overflow
  input := m.input

/-! ## Instructions in one go -/

namespace Visible

/-- The low 20 bits of the cell at an address, if there is one. -/
def cell (t : Visible) (address : Nat) : Option Nat :=
  (t.memory.get? address).map (· % 2 ^ 20)

/-- The state with a value in the cell at an address, if there is one. -/
def put (t : Visible) (address value : Nat) : Option Visible :=
  if address < t.memory.size then
    some { t with memory := ⟨t.memory.cells.setIfInBounds address (value % 2 ^ 20)⟩ }
  else none

def held (t : Visible) : Holder → Nat
  | .a => t.a
  | .x => t.x
  | .i => t.i
  | .sp => t.sp

/-- The state after a register is loaded. The short registers take 13 bits. -/
def hold (t : Visible) (value : Nat) : Holder → Visible
  | .a => { t with a := value }
  | .x => { t with x := value }
  | .i => { t with i := value % 2 ^ 13 }
  | .sp => { t with sp := value % 2 ^ 13 }

def counted (t : Visible) : Target → Bool → Visible
  | .a, true => { t with a := (t.a + 1) % 2 ^ 20, overflow := Word.addOverflows t.a 1 }
  | .a, false =>
    { t with
      a := (t.a + (2 ^ 20 - 1)) % 2 ^ 20
      overflow := Word.addOverflows t.a (2 ^ 20 - 1) }
  | .x, true => { t with x := (t.x + 1) % 2 ^ 20 }
  | .x, false => { t with x := (t.x + (2 ^ 20 - 1)) % 2 ^ 20 }
  | .i, true => { t with i := (t.i + 1) % 2 ^ 13 }
  | .i, false => { t with i := (t.i + (2 ^ 13 - 1)) % 2 ^ 13 }

def shiftedWord (w : Nat) : Direction → Nat
  | .left => 2 * w % 2 ^ 20
  | .right => w / 2

def shifted (t : Visible) (direction : Direction) : Target → Visible
  | .x => { t with x := shiftedWord t.x direction }
  | .a | .i => { t with a := shiftedWord t.a direction }

def pairShifted (t : Visible) (direction : Direction) : Visible :=
  let pair := t.a * 2 ^ 20 + t.x
  let next :=
    match direction with
    | .left => 2 * pair % 2 ^ 40
    | .right => pair / 2
  { t with a := next / 2 ^ 20, x := next % 2 ^ 20 }

def takes (t : Visible) : Condition → Bool
  | .always => true
  | .negative => t.s
  | .positive => !(t.s || t.z)
  | .zero => t.z
  | .overflow => t.v
  | .largeIndex => decide (8 ≤ t.i ∧ t.i < 4096)

/-- What an operation does after PC is counted up, and what it hands out. `o` is the operand, `b`
the last word that was read and `e` the address of the instruction. -/
def operate (t : Visible) (o b e : Nat) : Operation → Option (Visible × List Nat)
  | .nop => some (t, [])
  | .load holder => (t.cell e).map fun w => (t.hold w holder, [])
  | .store holder => (t.put e (t.held holder)).map fun u => (u, [])
  | .enterAccumulator => some ({ t with a := Word.signExtend o }, [])
  | .enterIndex => some ({ t with i := o }, [])
  | .push =>
    let sp := (t.sp + 1) % 2 ^ 13
    ({ t with sp }.put sp t.a).map fun u => (u, [])
  | .pop => (t.cell t.sp).map fun w => ({ t with a := w, sp := (t.sp + (2 ^ 13 - 1)) % 2 ^ 13 }, [])
  | .step target up => some (t.counted target up, [])
  | .add => (t.cell e).map fun w =>
      ({ t with a := (t.a + w) % 2 ^ 20, overflow := Word.addOverflows t.a w }, [])
  | .subtract => (t.cell e).map fun w =>
      ({ t with
          a := (t.a + 2 ^ 20 - w) % 2 ^ 20
          overflow := Word.addOverflows ((t.a + 1) % 2 ^ 20) (2 ^ 20 - 1 - w) }, [])
  | .combine .conjunction => (t.cell e).map fun w => ({ t with a := t.a &&& w }, [])
  | .combine .disjunction => (t.cell e).map fun w => ({ t with a := t.a ||| w }, [])
  | .combine .difference => (t.cell e).map fun w => ({ t with a := t.a ^^^ w }, [])
  | .complement => some ({ t with a := 2 ^ 20 - 1 - t.a }, [])
  | .jump condition =>
    if t.takes condition then
      some ({ t with
        pc := b % 2 ^ 13
        overflow := if condition = .overflow then false else t.overflow }, [])
    else some (t, [])
  | .call =>
    let sp := (t.sp + 1) % 2 ^ 13
    ({ t with sp }.put sp t.pc).map fun u : Visible => ({ u with pc := o }, [])
  | .shift target direction => some (t.shifted direction target, [])
  | .shiftPair direction => some (t.pairShifted direction, [])
  | .input => t.input.map fun value => ({ t with a := value % 2 ^ 20, input := none }, [])
  | .output => some (t, [t.a])
  | .ret => (t.cell t.sp).map fun w =>
      ({ t with pc := w % 2 ^ 13, sp := (t.sp + (2 ^ 13 - 1)) % 2 ^ 13 }, [])
  | .halt => some ({ t with h := true }, [])

/-- The state with its flags set anew. -/
def settled (t : Visible) : Visible :=
  { t with z := t.a == 0, s := decide (2 ^ 19 ≤ t.a), v := t.overflow }

def finished (t : Visible) (operation : Operation) : Visible :=
  if operation = .ret ∨ operation = .halt then t else t.settled

/-- What the instruction `w` does once its address `e` is known. -/
def carryOut (t : Visible) (w b e : Nat) : Option (Visible × List Nat) :=
  match Instruction.decode w with
  | .error _ => none
  | .ok i =>
    (t.operate (w % 2 ^ 13) b e i.operation).map fun next =>
      (next.1.finished i.operation, next.2)

/-- What the instruction `w` does after the index register is added to its address. -/
def resolve (t : Visible) (w e : Nat) : Option (Visible × List Nat) :=
  if Word.isIndirect w then do
    let b ← t.cell e
    t.carryOut w b (b % 2 ^ 13)
  else t.carryOut w w e

/-- What an instruction does, and what it hands out. -/
def step (t : Visible) : Option (Visible × List Nat) := do
  let w ← t.cell t.pc
  { t with pc := (t.pc + 1) % 2 ^ 13 }.resolve w
    (if Word.isIndexed w then w % 2 ^ 13 + t.i else w % 2 ^ 13)

end Visible

/-! ## Micro-operations on the visible part -/

/-- What is seen of micro-operations that are not cut short. -/
def seen (performed : Machine × List Event × Option Stop) : Option (Visible × List Nat) :=
  (completed performed).map fun found => (found.1.visible, found.2)

namespace MicroOp

variable (n : Machine) (rest : List MicroOp)

theorem seen_nil : seen (performAll n []) = some (n.visible, []) := rfl

theorem seen_cons {op : MicroOp} {after : Machine} {events : List Event}
    (h : perform n op = (after, events, none)) (hquiet : outputs events = []) :
    seen (performAll n (op :: rest)) = seen (performAll after rest) := by
  rw [seen, completed_cons h hquiet rest, seen]

theorem seen_observe (q : Register) :
    seen (performAll n (.observe q :: rest)) = seen (performAll n rest) :=
  seen_cons n rest rfl rfl

theorem seen_transfer (target : Register) (manner : Manner) (e : Expression) :
    seen (performAll n (.transfer target manner e :: rest)) =
      seen (performAll (n.setRegister target (manner.cut target (e.value n.registers))) rest) :=
  seen_cons n rest rfl rfl

theorem seen_watch (addend : Addend) :
    seen (performAll n (.watch addend :: rest)) =
      seen (performAll { n with
        overflow := Word.addOverflows n.registers.a (addend.value n.registers) } rest) :=
  seen_cons n rest rfl rfl

theorem seen_forgetOverflow :
    seen (performAll n (.forgetOverflow :: rest)) =
      seen (performAll { n with overflow := false } rest) :=
  seen_cons n rest rfl rfl

theorem seen_shiftPair (direction : Direction) :
    seen (performAll n (.shiftPair direction :: rest)) =
      seen (performAll (performShiftPair n direction).1 rest) :=
  seen_cons n rest rfl rfl

theorem cell_visible (address : Nat) :
    n.visible.cell address = (n.memory.get? address).map (· % 2 ^ 20) := rfl

theorem put_visible :
    n.visible.put n.registers.ar n.registers.br =
      if n.registers.ar < n.memory.size then some (stored n).visible else none := rfl

theorem completed_readCell :
    completed (performAll n (.readCell :: rest)) =
      (n.visible.cell n.registers.ar).bind fun w =>
        completed (performAll (n.setRegister .br w) rest) := by
  rw [cell_visible]
  cases hc : n.memory.get? n.registers.ar with
  | none =>
    have hop : perform n .readCell = _ := performRead_of_none hc
    rw [performAll_cons, hop]
    rfl
  | some w =>
    have hop : perform n .readCell = _ := performRead_of_some hc
    exact completed_cons hop rfl rest

theorem cell_lt {t : Visible} {address w : Nat} (h : t.cell address = some w) : w < 2 ^ 20 := by
  obtain ⟨value, -, rfl⟩ := Option.map_eq_some_iff.1 h
  exact Nat.mod_lt _ (by decide)

theorem seen_readCell {next : Nat → Visible × List Nat}
    (h : ∀ w, w < 2 ^ 20 → seen (performAll (n.setRegister .br w) rest) = some (next w)) :
    seen (performAll n (.readCell :: rest)) = (n.visible.cell n.registers.ar).map next := by
  rw [seen, completed_readCell]
  cases hc : n.visible.cell n.registers.ar with
  | none => rfl
  | some w => exact h w (cell_lt hc)

theorem seen_writeCell {next : Visible → Visible × List Nat}
    (h : seen (performAll (stored n) rest) = some (next (stored n).visible)) :
    seen (performAll n (.writeCell :: rest)) =
      (n.visible.put n.registers.ar n.registers.br).map next := by
  rw [put_visible]
  by_cases hlt : n.registers.ar < n.memory.size
  · have hop : perform n .writeCell = _ := performWrite_of_lt hlt
    rw [if_pos hlt, seen_cons n rest hop rfl]
    exact h
  · have hop : perform n .writeCell = _ := performWrite_of_le (Nat.le_of_not_lt hlt)
    rw [if_neg hlt, performAll_cons, hop]
    rfl

theorem seen_takeInput {next : Nat → Visible × List Nat}
    (h : ∀ value, seen (performAll ({ n with input := none, awaitsInput := false }.setRegister .br
      (value % 2 ^ 20)) rest) = some (next value)) :
    seen (performAll n (.takeInput :: rest)) = n.input.map next := by
  cases hin : n.input with
  | none =>
    have hop : perform n .takeInput = _ := performInput_of_none hin
    rw [performAll_cons, hop]
    rfl
  | some value =>
    have hop : perform n .takeInput = _ := performInput_of_some hin
    rw [seen_cons n rest hop rfl]
    exact h value

theorem seen_output :
    seen (performAll n [.output]) = some (n.visible, [n.registers.br]) := rfl

end MicroOp

/-! ## Operations -/

namespace MicroOp
open Microcode

variable {n : Machine}

/-- A short register takes 13 bits, whatever its container. -/
theorem mod_container (value : Nat) : value % 2 ^ 13 % 2 ^ 16 = value % 2 ^ 13 := by omega

theorem seen_congr {t : Nat → Visible} {v w : Nat} (h : v = w) (out : List Nat) :
    some (t v, out) = some (t w, out) := by
  rw [h]

theorem seen_load (holder : Holder) :
    seen (performAll n (execute n.registers (.load holder)).flatten) =
      n.visible.operate n.registers.operand n.registers.br n.registers.ar (.load holder) := by
  apply seen_readCell n (copy .br holder.register)
  intro w hw
  have hword : w % 2 ^ 20 = w := Nat.mod_eq_of_lt hw
  simp only [copy, seen_observe, seen_transfer, seen_nil]
  cases holder with
  | a => exact seen_congr (t := fun v => { n.visible with a := v }) hword []
  | x => exact seen_congr (t := fun v => { n.visible with x := v }) hword []
  | i => exact seen_congr (t := fun v => { n.visible with i := v }) (mod_container w) []
  | sp => exact seen_congr (t := fun v => { n.visible with sp := v }) (mod_container w) []

theorem put_mod (t : Visible) (address value : Nat) :
    t.put address (value % 2 ^ 20) = t.put address value := by
  simp only [Visible.put, Nat.mod_mod]

theorem seen_store (holder : Holder) :
    seen (performAll n (execute n.registers (.store holder)).flatten) =
      n.visible.operate n.registers.operand n.registers.br n.registers.ar (.store holder) := by
  have hheld : n.registers.get holder.register = n.visible.held holder := by
    cases holder <;> rfl
  change seen (performAll n (copy holder.register .br ++ [.writeCell])) = _
  simp only [copy, List.cons_append, List.nil_append, seen_observe, seen_transfer]
  rw [@seen_writeCell _ [] (fun u => (u, [])) (seen_nil _)]
  change Option.map _ (n.visible.put n.registers.ar (n.registers.get holder.register % 2 ^ 20)) = _
  rw [put_mod, hheld]
  rfl

theorem signExtend_operand (w : Nat) : Word.signExtend (Word.operand w) = Word.signExtend w := by
  have hbit : Word.hasBit (Word.operand w) 12 = Word.hasBit w 12 := by
    have hquotient : w % 2 ^ 13 / 2 ^ 12 % 2 = w / 2 ^ 12 % 2 := by omega
    simp only [Word.hasBit, Word.operand, hquotient]
  have hoperand : Word.operand (Word.operand w) = Word.operand w := Nat.mod_mod w _
  simp only [Word.signExtend, hbit, hoperand]

theorem signExtend_lt (w : Nat) : Word.signExtend w < 2 ^ 20 := by
  have hlt : Word.operand w < 2 ^ 13 := Nat.mod_lt _ (by decide)
  unfold Word.signExtend
  split
  · omega
  · omega

theorem seen_enterAccumulator :
    seen (performAll n (execute n.registers .enterAccumulator).flatten) =
      n.visible.operate n.registers.operand n.registers.br n.registers.ar .enterAccumulator := by
  have hvalue : Word.signExtend n.registers.ir % 2 ^ 20 = Word.signExtend n.registers.operand := by
    rw [Registers.operand, signExtend_operand]
    exact Nat.mod_eq_of_lt (signExtend_lt _)
  change seen (performAll n [.transfer .a .load .signedOperand]) = _
  rw [seen_transfer, seen_nil]
  exact seen_congr (t := fun v => { n.visible with a := v }) hvalue []

theorem seen_enterIndex :
    seen (performAll n (execute n.registers .enterIndex).flatten) =
      n.visible.operate n.registers.operand n.registers.br n.registers.ar .enterIndex := by
  have ho := n.registers.operand_lt
  have hvalue : n.registers.operand % 2 ^ 13 % 2 ^ 16 = n.registers.operand := by omega
  change seen (performAll n [.transfer .i .load .operand]) = _
  rw [seen_transfer, seen_nil]
  exact seen_congr (t := fun v => { n.visible with i := v }) hvalue []

theorem seen_push (h : n.registers.Fits) :
    seen (performAll n (execute n.registers .push).flatten) =
      n.visible.operate n.registers.operand n.registers.br n.registers.ar .push := by
  have ha : n.registers.a < 2 ^ 20 := h .a
  change seen (performAll n (increment .sp :: copy .a .br ++ copy .sp .ar ++ [.writeCell])) = _
  simp only [copy, increment, List.cons_append, List.nil_append, seen_observe, seen_transfer]
  rw [@seen_writeCell _ [] (fun u => (u, [])) (seen_nil _)]
  change Option.map _ (({ n.visible with sp := (n.registers.sp + 1) % 2 ^ 13 % 2 ^ 16 } :
    Visible).put ((n.registers.sp + 1) % 2 ^ 13 % 2 ^ 16 % 2 ^ 13 % 2 ^ 16)
      (n.registers.a % 2 ^ 20)) = _
  simp only [mod_container, Nat.mod_mod, put_mod]
  rfl

/-- A register takes the word at SP, and SP is counted down. -/
theorem seen_unstack (q : Register) (hq : q ≠ .sp) (loaded : Nat → Visible)
    (hloaded : ∀ w < 2 ^ 20, (n.setRegister q (Manner.load.cut q w)).visible = loaded w)
    (h : n.registers.Fits) :
    seen (performAll n (copy .sp .ar ++ .readCell :: (copy .br q ++ [decrement .sp]))) =
      (n.visible.cell n.registers.sp).map fun w =>
        ({ loaded w with sp := (n.registers.sp + (2 ^ 13 - 1)) % 2 ^ 13 }, []) := by
  have hsp : n.registers.sp < 2 ^ 13 := h .sp
  have har : n.registers.sp % 2 ^ 13 % 2 ^ 16 = n.registers.sp := by omega
  have hvalue : (n.registers.sp + 2 ^ 13 - 1) % 2 ^ 13 % 2 ^ 16 =
      (n.registers.sp + (2 ^ 13 - 1)) % 2 ^ 13 := by omega
  simp only [copy, decrement, List.cons_append, List.nil_append, seen_observe, seen_transfer]
  rw [@seen_readCell _ _ (fun w =>
    ({ loaded w with sp := (n.registers.sp + (2 ^ 13 - 1)) % 2 ^ 13 }, []))]
  · change Option.map _ (n.visible.cell (n.registers.sp % 2 ^ 13 % 2 ^ 16)) = _
    rw [har]
  · intro w hw
    simp only [seen_observe, seen_transfer, seen_nil, ← hloaded w hw, ← hvalue]
    -- AR and BR are not seen, and the register that is loaded is not SP.
    cases q with
    | sp => exact absurd rfl hq
    | _ => rfl

theorem seen_pop (h : n.registers.Fits) :
    seen (performAll n (execute n.registers .pop).flatten) =
      n.visible.operate n.registers.operand n.registers.br n.registers.ar .pop := by
  refine seen_unstack .a nofun (fun w => { n.visible with a := w }) ?_ h
  intro w hw
  have hword : w % 2 ^ 20 = w := Nat.mod_eq_of_lt hw
  exact congrArg (fun value => { n.visible with a := value }) hword

theorem seen_step (target : Target) (up : Bool) :
    seen (performAll n (execute n.registers (.step target up)).flatten) =
      n.visible.operate n.registers.operand n.registers.br n.registers.ar (.step target up) := by
  cases target with
  | a =>
    cases up with
    | true =>
      change seen (performAll n [.watch .one, increment .a]) = _
      rw [increment, seen_watch, seen_transfer, seen_nil]
      rfl
    | false =>
      have hvalue : (n.registers.a + 2 ^ 20 - 1) % 2 ^ 20 =
          (n.registers.a + (2 ^ 20 - 1)) % 2 ^ 20 := by omega
      change seen (performAll n [.watch .minusOne, decrement .a]) = _
      rw [decrement, seen_watch, seen_transfer, seen_nil]
      exact seen_congr (t := fun v => { n.visible with
        a := v, overflow := Word.addOverflows n.registers.a (2 ^ 20 - 1) }) hvalue []
  | x =>
    cases up with
    | true =>
      change seen (performAll n [increment .x]) = _
      rw [increment, seen_transfer, seen_nil]
      rfl
    | false =>
      have hvalue : (n.registers.x + 2 ^ 20 - 1) % 2 ^ 20 =
          (n.registers.x + (2 ^ 20 - 1)) % 2 ^ 20 := by omega
      change seen (performAll n [decrement .x]) = _
      rw [decrement, seen_transfer, seen_nil]
      exact seen_congr (t := fun v => { n.visible with x := v }) hvalue []
  | i =>
    cases up with
    | true =>
      change seen (performAll n [increment .i]) = _
      rw [increment, seen_transfer, seen_nil]
      exact seen_congr (t := fun v => { n.visible with i := v }) (mod_container _) []
    | false =>
      have hvalue : (n.registers.i + 2 ^ 13 - 1) % 2 ^ 13 % 2 ^ 16 =
          (n.registers.i + (2 ^ 13 - 1)) % 2 ^ 13 := by omega
      change seen (performAll n [decrement .i]) = _
      rw [decrement, seen_transfer, seen_nil]
      exact seen_congr (t := fun v => { n.visible with i := v }) hvalue []

theorem seen_add :
    seen (performAll n (execute n.registers .add).flatten) =
      n.visible.operate n.registers.operand n.registers.br n.registers.ar .add := by
  apply seen_readCell n addBuffer
  intro w _
  have hvalue : (n.registers.a + w) % 2 ^ 20 % 2 ^ 20 = (n.registers.a + w) % 2 ^ 20 :=
    Nat.mod_mod _ _
  simp only [addBuffer, seen_observe, seen_watch, seen_transfer, seen_nil]
  exact seen_congr (t := fun v => { n.visible with
    a := v, overflow := Word.addOverflows n.registers.a w }) hvalue []

theorem seen_subtract (h : n.registers.Fits) :
    seen (performAll n (execute n.registers .subtract).flatten) =
      n.visible.operate n.registers.operand n.registers.br n.registers.ar .subtract := by
  have ha : n.registers.a < 2 ^ 20 := h .a
  apply seen_readCell n (.transfer .br .modify (.complement .br) :: increment .a :: addBuffer)
  intro w hw
  have hbr : (2 ^ 20 - 1 - w % 2 ^ 20) % 2 ^ 20 = 2 ^ 20 - 1 - w := by omega
  have hvalue : ((n.registers.a + 1) % 2 ^ 20 + (2 ^ 20 - 1 - w)) % 2 ^ 20 % 2 ^ 20 =
      (n.registers.a + 2 ^ 20 - w) % 2 ^ 20 := by omega
  simp only [addBuffer, increment, seen_observe, seen_watch, seen_transfer, seen_nil]
  change some (({ n.visible with
    a := ((n.registers.a + 1) % 2 ^ 20 + (2 ^ 20 - 1 - w % 2 ^ 20) % 2 ^ 20) % 2 ^ 20 % 2 ^ 20
    overflow := Word.addOverflows ((n.registers.a + 1) % 2 ^ 20)
      ((2 ^ 20 - 1 - w % 2 ^ 20) % 2 ^ 20) } : Visible), _) = _
  rw [hbr, hvalue]
  rfl

theorem seen_combine (connective : Connective) (h : n.registers.Fits) :
    seen (performAll n (execute n.registers (.combine connective)).flatten) =
      n.visible.operate n.registers.operand n.registers.br n.registers.ar
        (.combine connective) := by
  have ha : n.registers.a < 2 ^ 20 := h .a
  have hall : seen (performAll n (execute n.registers (.combine connective)).flatten) =
      (n.visible.cell n.registers.ar).map fun w =>
        ({ n.visible with a := connective.apply n.registers.a w }, []) := by
    apply seen_readCell n [.observe .br, .transfer .a .modify (.combined connective)]
    intro w hw
    have hvalue : connective.apply n.registers.a w % 2 ^ 20 =
        connective.apply n.registers.a w := by
      apply Nat.mod_eq_of_lt
      cases connective with
      | conjunction => exact Nat.and_lt_two_pow _ hw
      | disjunction => exact Nat.or_lt_two_pow ha hw
      | difference => exact Nat.xor_lt_two_pow ha hw
    rw [seen_observe, seen_transfer, seen_nil]
    exact seen_congr (t := fun v => { n.visible with a := v }) hvalue []
  rw [hall]
  cases connective <;> rfl

theorem seen_complement (h : n.registers.Fits) :
    seen (performAll n (execute n.registers .complement).flatten) =
      n.visible.operate n.registers.operand n.registers.br n.registers.ar .complement := by
  have ha : n.registers.a < 2 ^ 20 := h .a
  have hvalue : (2 ^ 20 - 1 - n.registers.a % 2 ^ 20) % 2 ^ 20 = 2 ^ 20 - 1 - n.registers.a := by
    omega
  change seen (performAll n [.transfer .a .modify (.complement .a)]) = _
  rw [seen_transfer, seen_nil]
  exact seen_congr (t := fun v => { n.visible with a := v }) hvalue []

theorem holds_eq_takes (h : n.registers.Fits) (condition : Condition) :
    condition.holds n.registers = n.visible.takes condition := by
  cases condition with
  | always | negative | positive | zero | overflow => rfl
  | largeIndex =>
    have hi : n.registers.i < 2 ^ 13 := h .i
    change (n.registers.i / 2 ^ 3 % 2 ^ 10 != 0 && !Word.hasBit n.registers.i 12) =
      decide (8 ≤ n.registers.i ∧ n.registers.i < 4096)
    rw [Bool.eq_iff_iff]
    simp only [Word.hasBit, Bool.and_eq_true, bne_iff_ne, Bool.not_eq_true', beq_eq_false_iff_ne,
      decide_eq_true_eq]
    omega

theorem seen_jump (condition : Condition) (h : n.registers.Fits) :
    seen (performAll n (execute n.registers (.jump condition)).flatten) =
      n.visible.operate n.registers.operand n.registers.br n.registers.ar (.jump condition) := by
  have hvalue := mod_container n.registers.br
  simp only [execute, jump, holds_eq_takes h, Visible.operate, List.flatten_cons,
    List.flatten_nil, List.append_nil]
  cases n.visible.takes condition with
  | false => rfl
  | true =>
    simp only [if_true]
    by_cases hoverflow : condition = .overflow
    · rw [if_pos hoverflow, if_pos hoverflow]
      change seen (performAll n
        [.observe .br, .transfer .pc .load (.register .br), .forgetOverflow]) = _
      rw [seen_observe, seen_transfer, seen_forgetOverflow, seen_nil]
      exact seen_congr (t := fun v => { n.visible with pc := v, overflow := false }) hvalue []
    · rw [if_neg hoverflow, if_neg hoverflow]
      change seen (performAll n [.observe .br, .transfer .pc .load (.register .br)]) = _
      rw [seen_observe, seen_transfer, seen_nil]
      exact seen_congr (t := fun v => { n.visible with pc := v }) hvalue []

theorem seen_jumpToOperand (n : Machine) :
    seen (performAll n [.transfer .pc .load .operand]) =
      some ({ n.visible with pc := n.registers.operand }, []) := by
  have ho := n.registers.operand_lt
  have hvalue : n.registers.operand % 2 ^ 13 % 2 ^ 16 = n.registers.operand := by omega
  rw [seen_transfer, seen_nil]
  exact seen_congr (t := fun v => { n.visible with pc := v }) hvalue []

theorem seen_call :
    seen (performAll n (execute n.registers .call).flatten) =
      n.visible.operate n.registers.operand n.registers.br n.registers.ar .call := by
  change seen (performAll n (increment .sp :: (copy .pc .br ++ copy .sp .ar) ++
    [.writeCell, .transfer .pc .load .operand])) = _
  simp only [copy, increment, List.cons_append, List.nil_append, seen_observe, seen_transfer]
  rw [@seen_writeCell _ _ (fun u => ({ u with pc := n.registers.operand }, []))]
  · change Option.map _ (({ n.visible with sp := (n.registers.sp + 1) % 2 ^ 13 % 2 ^ 16 } :
      Visible).put ((n.registers.sp + 1) % 2 ^ 13 % 2 ^ 16 % 2 ^ 13 % 2 ^ 16)
        (n.registers.pc % 2 ^ 20)) = _
    simp only [mod_container, Nat.mod_mod, put_mod]
    rfl
  · exact seen_jumpToOperand _

theorem seen_shift (target : Target) (direction : Direction) (h : n.registers.Fits) :
    seen (performAll n (execute n.registers (.shift target direction)).flatten) =
      n.visible.operate n.registers.operand n.registers.br n.registers.ar
        (.shift target direction) := by
  have hshift : ∀ q : Register, q.width = 20 → n.registers.get q < 2 ^ 20 →
      Manner.modify.cut q ((Expression.shifted q direction).value n.registers) =
        Visible.shiftedWord (n.registers.get q) direction := by
    intro q hq hlt
    cases direction with
    | left =>
      change n.registers.get q * 2 % 2 ^ q.width = 2 * n.registers.get q % 2 ^ 20
      rw [hq, Nat.mul_comm]
    | right =>
      change n.registers.get q / 2 % 2 ^ q.width = n.registers.get q / 2
      rw [hq]
      omega
  cases target with
  | x =>
    change seen (performAll n [.transfer .x .modify (.shifted .x direction)]) = _
    rw [seen_transfer, seen_nil]
    exact seen_congr (t := fun v => { n.visible with x := v }) (hshift .x rfl (h .x)) []
  | a | i =>
    change seen (performAll n [.transfer .a .modify (.shifted .a direction)]) = _
    rw [seen_transfer, seen_nil]
    exact seen_congr (t := fun v => { n.visible with a := v }) (hshift .a rfl (h .a)) []

theorem seen_shiftBoth (direction : Direction) (h : n.registers.Fits) :
    seen (performAll n (execute n.registers (.shiftPair direction)).flatten) =
      n.visible.operate n.registers.operand n.registers.br n.registers.ar
        (.shiftPair direction) := by
  have ha : n.registers.a < 2 ^ 20 := h .a
  have hx : n.registers.x < 2 ^ 20 := h .x
  have hsa : Word.significant n.registers.a = n.registers.a := Nat.mod_eq_of_lt ha
  have hsx : Word.significant n.registers.x = n.registers.x := Nat.mod_eq_of_lt hx
  have hpair : n.registers.shiftedPair direction < 2 ^ 40 := by
    unfold Registers.shiftedPair
    cases direction with
    | left => exact Nat.mod_lt _ (by decide)
    | right =>
      simp only [hsa, hsx]
      omega
  have hhigh : n.registers.shiftedPair direction / 2 ^ 20 % 2 ^ 20 =
      n.registers.shiftedPair direction / 2 ^ 20 := by omega
  change seen (performAll n [.shiftPair direction]) = _
  rw [seen_shiftPair, seen_nil]
  change some (({ n.visible with
    a := n.registers.shiftedPair direction / 2 ^ 20 % 2 ^ 20
    x := n.registers.shiftedPair direction % 2 ^ 20 % 2 ^ 20 } : Visible), _) = _
  rw [hhigh, Nat.mod_mod]
  simp only [Visible.operate, Visible.pairShifted, Registers.shiftedPair, hsa, hsx]
  cases direction with
  | left =>
    simp only [Nat.mul_comm _ 2]
    rfl
  | right => rfl

theorem seen_in :
    seen (performAll n (execute n.registers .input).flatten) =
      n.visible.operate n.registers.operand n.registers.br n.registers.ar .input := by
  apply seen_takeInput n (copy .br .a)
  intro value
  rw [copy, seen_observe, seen_transfer, seen_nil]
  exact seen_congr (t := fun v => { n.visible with a := v, input := none })
    (Nat.mod_mod value (2 ^ 20)) []

theorem seen_out (h : n.registers.Fits) :
    seen (performAll n (execute n.registers .output).flatten) =
      n.visible.operate n.registers.operand n.registers.br n.registers.ar .output := by
  have ha : n.registers.a % 2 ^ 20 = n.registers.a := Nat.mod_eq_of_lt (h .a)
  change seen (performAll n (copy .a .br ++ [.observe .br, .output])) = _
  simp only [copy, List.cons_append, List.nil_append, seen_observe, seen_transfer, seen_output]
  change some (n.visible, [n.registers.a % 2 ^ 20]) = some (n.visible, [n.registers.a])
  rw [ha]

theorem seen_ret (h : n.registers.Fits) :
    seen (performAll n (execute n.registers .ret).flatten) =
      n.visible.operate n.registers.operand n.registers.br n.registers.ar .ret := by
  refine seen_unstack .pc nofun (fun w => { n.visible with pc := w % 2 ^ 13 }) ?_ h
  intro w _
  exact congrArg (fun value => { n.visible with pc := value }) (mod_container w)

/-- The micro-operations of an operation do what the operation does in one go. -/
theorem seen_execute (operation : Operation) (hne : operation ≠ .halt) (h : n.registers.Fits) :
    seen (performAll n (execute n.registers operation).flatten) =
      n.visible.operate n.registers.operand n.registers.br n.registers.ar operation := by
  cases operation with
  | nop => rfl
  | load holder => exact seen_load holder
  | store holder => exact seen_store holder
  | enterAccumulator => exact seen_enterAccumulator
  | enterIndex => exact seen_enterIndex
  | push => exact seen_push h
  | pop => exact seen_pop h
  | step target up => exact seen_step target up
  | add => exact seen_add
  | subtract => exact seen_subtract h
  | combine connective => exact seen_combine connective h
  | complement => exact seen_complement h
  | jump condition => exact seen_jump condition h
  | call => exact seen_call
  | shift target direction => exact seen_shift target direction h
  | shiftPair direction => exact seen_shiftBoth direction h
  | input => exact seen_in
  | output => exact seen_out h
  | ret => exact seen_ret h
  | halt => exact absurd rfl hne

end MicroOp
end TrnComputer
