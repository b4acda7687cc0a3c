import TrnComputer.Memory

/-! # Cells of a memory

* `write_of_lt`, `write_of_le`: when a cell can be written.
* `get?_grow`, `get?_store`, `get?_store_of_ne`, `store_size`: the cells after growth.

Memories can be compared, and so can the results of what may fail to make one.
-/

namespace TrnComputer
set_option autoImplicit false

instance decidableEqResult {Fault Value : Type} [DecidableEq Fault] [DecidableEq Value] :
    DecidableEq (Except Fault Value)
  | .ok value, .ok other => decidable_of_iff (value = other) (by simp)
  | .error fault, .error other => decidable_of_iff (fault = other) (by simp)
  | .ok _, .error _ | .error _, .ok _ => isFalse (by simp)

namespace Memory

theorem write_of_lt {m : Memory} {address : Nat} (h : address < m.size) (value : Nat) :
    m.write address value = .ok ⟨m.cells.setIfInBounds address (Word.significant value)⟩ := by
  rw [write, if_pos h]

theorem write_of_le {m : Memory} {address : Nat} (h : m.size ≤ address) (value : Nat) :
    m.write address value = .error ⟨address, m.size⟩ := by
  rw [write, if_neg (by omega)]

theorem get?_eq_none_iff {m : Memory} {address : Nat} :
    m.get? address = none ↔ m.size ≤ address := by
  simp [get?, size]

theorem lt_size_of_get? {m : Memory} {address value : Nat} (h : m.get? address = some value) :
    address < m.size := by
  have hn : ¬m.size ≤ address := by
    rw [← get?_eq_none_iff, h]
    simp
  omega

/-! ## Growth -/

theorem get?_grow (m : Memory) (size address : Nat) :
    (m.grow size).get? address =
      if address < m.size then m.get? address
      else if address < size then some 0 else none := by
  unfold grow get? Memory.size
  rw [Array.getElem?_append]
  by_cases hold : address < m.cells.size
  · rw [if_pos hold, if_pos hold]
  · rw [if_neg hold, if_neg hold, Array.getElem?_replicate]
    by_cases hnew : address < size
    · rw [if_pos (by omega), if_pos hnew]
    · rw [if_neg (by omega), if_neg hnew]

theorem get?_store (m : Memory) (address value other : Nat) :
    (m.store address value).get? other =
      if other = address then some value else (m.grow (address + 1)).get? other := by
  by_cases heq : other = address
  · rw [if_pos heq, heq, get?_store_self]
  · rw [if_neg heq]
    unfold store get?
    exact Array.getElem?_setIfInBounds_ne (fun h => heq h.symm)

theorem get?_store_of_ne {m : Memory} {address cell : Nat} (value : Nat) {other : Nat}
    (h : m.get? address = some cell) (hne : other ≠ address) :
    (m.store address value).get? other = m.get? other := by
  have hlt : address < m.size := m.lt_size_of_get? h
  rw [get?_store, if_neg hne, get?_grow]
  by_cases hother : other < m.size
  · rw [if_pos hother]
  · rw [if_neg hother, if_neg (by omega)]
    exact (get?_eq_none_iff.mpr (Nat.le_of_not_lt hother)).symm

/-- Storing behind the last cell adds a cell. -/
theorem store_size (m : Memory) (value : Nat) : m.store m.size value = ⟨m.cells.push value⟩ := by
  have hone : m.cells.size + 1 - m.cells.size = 1 := by omega
  have hset : (m.cells.push 0).setIfInBounds m.cells.size value = m.cells.push value := by
    apply Array.ext'
    simp
  simpa [store, grow, size, hone] using hset

end Memory

end TrnComputer
