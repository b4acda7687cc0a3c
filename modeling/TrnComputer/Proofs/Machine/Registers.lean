import TrnComputer.Machine.Register

/-! # Registers that hold what they may

* `Registers.get_set_self`, `Registers.get_set_of_ne`: a register that is set holds what its
  container takes of the value, and no other register changes.
* `Registers.ext_get`: the registers and the clock are all there is to a register file.
* `Register.limit`, `Registers.Fits`: the bounds below which the values of registers stay. The
  address register alone may be wider than its 13 bits: it holds the sum of an operand and the
  index register.
-/

namespace TrnComputer
set_option autoImplicit false

/-! ## Reading after setting -/

/-- What the container of a register takes of a value. -/
def Register.contained (q : Register) (value : Nat) : Nat :=
  match q with
  | br | a | x | ir => value
  | sp | i | pc | ar => value % 2 ^ 16
  | sc | f => value % 4
  | v | z | s | h => (value != 0).toNat

theorem Phase.code_ofCode (n : Nat) : (Phase.ofCode n).code = n % 4 := by
  have hn : n % 4 < 4 := Nat.mod_lt n (by omega)
  unfold ofCode
  generalize n % 4 = k at hn ⊢
  match k, hn with
  | 0, _ | 1, _ | 2, _ | 3, _ => rfl

theorem Phase.code_injective {p q : Phase} (h : p.code = q.code) : p = q := by
  rw [← ofCode_code p, h, ofCode_code]

namespace Registers

theorem get_set_self (r : Registers) (q : Register) (value : Nat) :
    (r.set q value).get q = q.contained value := by
  cases q with
  | f => exact Phase.code_ofCode value
  | _ => rfl

theorem get_set_of_ne (r : Registers) {p q : Register} (h : p ≠ q) (value : Nat) :
    (r.set q value).get p = r.get p := by
  cases q <;> cases p <;> first | rfl | exact absurd rfl h

theorem set_comm (r : Registers) {p q : Register} (h : p ≠ q) (value other : Nat) :
    (r.set q other).set p value = (r.set p value).set q other := by
  cases q <;> cases p <;> first | rfl | exact absurd rfl h

@[simp] theorem clock_set (r : Registers) (q : Register) (value : Nat) :
    (r.set q value).clock = r.clock := by
  cases q <;> rfl

theorem ext_get {r t : Registers} (h : ∀ q, r.get q = t.get q) (hclock : r.clock = t.clock) :
    r = t := by
  have hflag : ∀ {b c : Bool}, b.toNat = c.toNat → b = c := by decide
  have hf : r.f = t.f := Phase.code_injective (h .f)
  have hv : r.v = t.v := hflag (h .v)
  have hz : r.z = t.z := hflag (h .z)
  have hs : r.s = t.s := hflag (h .s)
  have hh : r.h = t.h := hflag (h .h)
  have hbr := h .br
  have ha := h .a
  have hx := h .x
  have hir := h .ir
  have hsp := h .sp
  have hi := h .i
  have hpc := h .pc
  have har := h .ar
  have hsc := h .sc
  cases r
  cases t
  simp only [get] at *
  subst_vars
  rfl

end Registers

/-! ## Bounds -/

/-- The bound of a register's values. -/
def Register.limit : Register → Nat
  | br | a | x | ir => 2 ^ 20
  | sp | i | pc => 2 ^ 13
  | ar => 2 * (2 ^ 13 - 1) + 1
  | sc | f => 4
  | v | z | s | h => 2

/-- Every register holds a value below its bound. -/
def Registers.Fits (r : Registers) : Prop := ∀ q : Register, r.get q < q.limit

theorem Register.two_pow_width_le_limit (q : Register) : 2 ^ q.width ≤ q.limit := by
  cases q <;> decide

theorem Register.contained_of_lt {q : Register} {value : Nat} (h : value < q.limit) :
    q.contained value = value := by
  cases q with
  | br | a | x | ir => rfl
  | sp | i | pc | ar | sc | f =>
    simp only [limit] at h
    simp only [contained]
    omega
  | v | z | s | h =>
    simp only [limit] at h
    match value, h with
    | 0, _ | 1, _ => rfl

namespace Registers

theorem fits_zero : zero.Fits := by
  intro q
  cases q <;> decide

theorem Fits.set {r : Registers} (h : r.Fits) {q : Register} {value : Nat}
    (hv : value < q.limit) : (r.set q value).Fits := by
  intro p
  by_cases hp : p = q
  · subst hp
    rw [get_set_self, Register.contained_of_lt hv]
    exact hv
  · rw [get_set_of_ne r hp]
    exact h p

theorem operand_lt (r : Registers) : r.operand < 2 ^ 13 := Nat.mod_lt _ (by decide)

theorem Fits.indexedOperand_lt {r : Registers} (h : r.Fits) :
    r.operand + r.i < Register.ar.limit := by
  have hi : r.i < 2 ^ 13 := h .i
  have ho := r.operand_lt
  simp only [Register.limit]
  omega

end Registers

end TrnComputer
