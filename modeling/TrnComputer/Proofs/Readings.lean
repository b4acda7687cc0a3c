import Mathlib.Data.List.Forall2

/-! # Reading one item after another

* `mapM_eq_some_iff`, `mapM_eq_ok_iff`, `exists_of_mem_mapM`: all items are read.
* `mapM_eq_error_iff`: the first item that is not read decides the fault.
* `toOption_mapM`: the items that are read, whatever the faults are.
-/

namespace TrnComputer
set_option autoImplicit false

section
variable {Item Value Fault : Type} {items : List Item} {values : List Value}

theorem mapM_eq_some_iff {read : Item → Option Value} :
    items.mapM read = some values ↔
      List.Forall₂ (fun item value => read item = some value) items values := by
  induction items generalizing values with
  | nil => cases values <;> simp
  | cons item rest ih =>
    rw [List.mapM_cons]
    cases hitem : read item with
    | none => cases values <;> simp [hitem]
    | some first =>
      cases hrest : rest.mapM read with
      | none => cases values <;> simp [hitem, ← ih, hrest]
      | some others => cases values <;> simp [hitem, ← ih, hrest]

variable {read : Item → Except Fault Value}

theorem mapM_eq_ok_iff :
    items.mapM read = .ok values ↔
      List.Forall₂ (fun item value => read item = .ok value) items values := by
  induction items generalizing values with
  | nil => cases values <;> simp [pure, Except.pure]
  | cons item rest ih =>
    rw [List.mapM_cons]
    cases hitem : read item with
    | error fault => cases values <;> simp [bind, Except.bind, hitem]
    | ok first =>
      cases hrest : rest.mapM read with
      | error fault => cases values <;> simp [bind, Except.bind, hitem, ← ih, hrest]
      | ok others =>
        cases values <;> simp [bind, Except.bind, pure, Except.pure, hitem, ← ih, hrest]

theorem mapM_eq_error_iff {fault : Fault} :
    items.mapM read = .error fault ↔
      ∃ front item back, items = front ++ item :: back ∧
        (∀ other ∈ front, ∃ value, read other = .ok value) ∧ read item = .error fault := by
  induction items with
  | nil => simp [pure, Except.pure]
  | cons first rest ih =>
    rw [List.mapM_cons]
    cases hfirst : read first with
    | error found =>
      have hstop : ((Except.error found : Except Fault Value) >>= fun first => do
          pure (first :: (← rest.mapM read))) = .error fault ↔ found = fault := by
        simp [bind, Except.bind]
      rw [hstop]
      constructor
      · rintro rfl
        exact ⟨[], first, rest, rfl, List.forall_mem_nil _, hfirst⟩
      · rintro ⟨front, item, back, heq, hfront, hitem⟩
        cases front with
        | nil =>
          cases heq
          exact Except.error.inj (hfirst.symm.trans hitem)
        | cons other front =>
          cases heq
          obtain ⟨value, hvalue⟩ := hfront first List.mem_cons_self
          rw [hfirst] at hvalue
          cases hvalue
    | ok value =>
      have hlater : ((Except.ok value : Except Fault Value) >>= fun first => do
          pure (first :: (← rest.mapM read))) = .error fault ↔ rest.mapM read = .error fault := by
        cases rest.mapM read <;> simp [bind, Except.bind, pure, Except.pure]
      rw [hlater, ih]
      constructor
      · rintro ⟨front, item, back, rfl, hfront, hitem⟩
        exact ⟨first :: front, item, back, rfl,
          List.forall_mem_cons.mpr ⟨⟨value, hfirst⟩, hfront⟩, hitem⟩
      · rintro ⟨front, item, back, heq, hfront, hitem⟩
        cases front with
        | nil =>
          cases heq
          rw [hfirst] at hitem
          cases hitem
        | cons other front =>
          cases heq
          exact ⟨front, item, back, rfl, (List.forall_mem_cons.mp hfront).2, hitem⟩

theorem exists_of_mem_mapM (h : items.mapM read = .ok values) {value : Value}
    (hmem : value ∈ values) : ∃ item ∈ items, read item = .ok value := by
  obtain ⟨place, hplace, rfl⟩ := List.mem_iff_getElem.mp hmem
  have hforall := List.forall₂_iff_get.mp (mapM_eq_ok_iff.mp h)
  have hitem : place < items.length := hforall.1 ▸ hplace
  exact ⟨items[place], List.getElem_mem hitem, hforall.2 place hitem hplace⟩

theorem toOption_mapM :
    (items.mapM read).toOption = items.mapM fun item => (read item).toOption := by
  induction items with
  | nil => rfl
  | cons item rest ih =>
    rw [List.mapM_cons, List.mapM_cons, ← ih]
    cases read item with
    | error fault => rfl
    | ok value => cases rest.mapM read <;> rfl

end

end TrnComputer
