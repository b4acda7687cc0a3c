import Mathlib.Data.List.Dedup
import TrnComputer.Proofs.Assembly.Rejection
import TrnComputer.Proofs.Text.ByteOrder

/-! # Symbol tables as maps

* `SymbolTable.ofDefinitions`: the table after definitions in a row.
* `SymbolTable.get?_ofDefinitions`: the first definition of a label stays.
* `SymbolTable.Listed`: the order of the listing, by address and by the bytes of the label.
* `SymbolTable.listing_of_perm`: the listing does not depend on the order in which the entries of
  the table are taken.
* `SymbolTable.listing_congr`, `SymbolTable.resolve_congr`: tables that are the same map have the
  same listing and give sums the same values.
* `SymbolTable.definitions_stand`: what follows for definitions in a row.
-/

namespace TrnComputer.SymbolTable
set_option autoImplicit false

/-! ## Definitions -/

/-- The table after a definition. One of a label that is defined already changes nothing. -/
def after (t : SymbolTable) (definition : String × Nat) : SymbolTable :=
  match t.define definition.1 definition.2 with
  | .error _ => t
  | .ok t' => t'

def ofDefinitions (definitions : List (String × Nat)) : SymbolTable :=
  definitions.foldl after empty

section
variable {t t' : SymbolTable}

theorem define_of_some {label : String} {old : Nat} (h : t.get? label = some old)
    (address : Nat) : t.define label address = .error old := by
  rw [define, h]

theorem define_of_none {label : String} (h : t.get? label = none) (address : Nat) :
    t.define label address = .ok (t.after (label, address)) := by
  rw [after, define, h]

theorem after_of_some {definition : String × Nat} {old : Nat}
    (h : t.get? definition.1 = some old) : t.after definition = t := by
  rw [after, define_of_some h]

theorem get?_after (t : SymbolTable) (definition : String × Nat) (label : String) :
    (t.after definition).get? label =
      (t.get? label).or (if label = definition.1 then some definition.2 else none) := by
  cases hold : t.get? definition.1 with
  | some old =>
    rw [after_of_some hold]
    by_cases hsame : label = definition.1
    · rw [hsame, hold, Option.some_or]
    · rw [if_neg hsame, Option.or_none]
  | none =>
    obtain ⟨-, hget⟩ := get?_of_define (define_of_none hold definition.2)
    rw [hget label]
    by_cases hsame : definition.1 = label
    · rw [if_pos hsame, if_pos hsame.symm, ← hsame, hold, Option.none_or]
    · rw [if_neg hsame, if_neg (Ne.symm hsame), Option.or_none]

theorem get?_foldl_after (definitions : List (String × Nat)) (t : SymbolTable) (label : String) :
    (definitions.foldl after t).get? label = (t.get? label).or (definitions.lookup label) := by
  induction definitions generalizing t with
  | nil => rw [List.foldl_nil, List.lookup_nil, Option.or_none]
  | cons definition rest ih =>
    rw [List.foldl_cons, ih, get?_after, Option.or_assoc, List.lookup_cons]
    by_cases hsame : label = definition.1
    · rw [if_pos hsame, beq_iff_eq.mpr hsame, Option.some_or]
    · rw [if_neg hsame, beq_eq_false_iff_ne.mpr hsame, Option.none_or]

theorem get?_empty (label : String) : empty.get? label = none := by
  simp [get?, empty]

/-- The first definition of a label stays. -/
theorem get?_ofDefinitions (definitions : List (String × Nat)) (label : String) :
    (ofDefinitions definitions).get? label = definitions.lookup label := by
  rw [ofDefinitions, get?_foldl_after, get?_empty, Option.none_or]

theorem ofDefinitions_snoc (definitions : List (String × Nat)) (definition : String × Nat) :
    ofDefinitions (definitions ++ [definition]) = (ofDefinitions definitions).after definition := by
  rw [ofDefinitions, List.foldl_append, List.foldl_cons, List.foldl_nil, ← ofDefinitions]

/-! ## Entries -/

/-- The entries of the table, each once, in one order or another. -/
def Enumerates (entries : List (String × Nat)) (t : SymbolTable) : Prop :=
  (entries.map Prod.fst).Nodup ∧
    ∀ label address, (label, address) ∈ entries ↔ t.get? label = some address

theorem enumerates_toList (t : SymbolTable) : Enumerates t.addresses.toList t := by
  refine ⟨?_, fun label address => Std.TreeMap.mem_toList_iff_getElem?_eq_some⟩
  rw [Std.TreeMap.map_fst_toList_eq_keys]
  exact Std.TreeMap.nodup_keys

section
variable {entries others : List (String × Nat)}

theorem Enumerates.perm (h : Enumerates entries t) (h' : Enumerates others t) :
    entries.Perm others := by
  refine (List.perm_ext_iff_of_nodup (.of_map _ h.1) (.of_map _ h'.1)).mpr
    fun ⟨label, address⟩ => ?_
  rw [h.2, h'.2]

theorem Enumerates.of_perm (h : Enumerates entries t) (hperm : others.Perm entries) :
    Enumerates others t :=
  ⟨(hperm.map Prod.fst).nodup_iff.mpr h.1, fun label address => by rw [hperm.mem_iff, h.2]⟩

/-- A definition that is not refused adds an entry. -/
theorem Enumerates.snoc (h : Enumerates entries t) {label : String} {address : Nat}
    (hdefine : t.define label address = .ok t') :
    Enumerates (entries ++ [(label, address)]) t' := by
  obtain ⟨hnew, hget⟩ := get?_of_define hdefine
  refine ⟨?_, fun other found => ?_⟩
  · rw [List.map_append, List.nodup_append]
    refine ⟨h.1, List.nodup_singleton _, ?_⟩
    rintro name hname other hother rfl
    obtain ⟨⟨found, place⟩, hmem, rfl⟩ := List.mem_map.mp hname
    obtain rfl := List.mem_singleton.mp hother
    rw [(h.2 _ _).mp hmem] at hnew
    cases hnew
  · rw [hget other, List.mem_append, List.mem_singleton, Prod.mk.injEq, h.2]
    by_cases hsame : label = other
    · subst hsame
      simp [hnew, eq_comm]
    · simp [hsame, Ne.symm hsame]

/-- A table has as many entries as there are labels in it. -/
theorem Enumerates.length_eq_size (h : Enumerates entries t) : entries.length = t.size := by
  rw [(h.perm t.enumerates_toList).length_eq, Std.TreeMap.length_toList, size]

/-! ## The listing -/

/-- By address, and by the bytes of the label where addresses are equal. -/
def Listed (a b : String × Nat) : Prop :=
  a.2 < b.2 ∨ a.2 = b.2 ∧ Text.bytes a.1 < Text.bytes b.1

theorem listedBefore_iff {a b : String × Nat} :
    listedBefore a b = true ↔ a.2 < b.2 ∨ a.2 = b.2 ∧ a.1 ≤ b.1 := by
  simp [listedBefore]

theorem listedBefore_trans (a b c : String × Nat) (hab : listedBefore a b = true)
    (hbc : listedBefore b c = true) : listedBefore a c = true := by
  rw [listedBefore_iff] at hab hbc ⊢
  rcases hab with hab | ⟨hab, hle⟩
  · rcases hbc with hbc | ⟨hbc, -⟩ <;> exact .inl (by omega)
  · rcases hbc with hbc | ⟨hbc, hle'⟩
    · exact .inl (by omega)
    · exact .inr ⟨hab.trans hbc, String.le_trans hle hle'⟩

theorem listedBefore_total (a b : String × Nat) :
    (listedBefore a b || listedBefore b a) = true := by
  rw [Bool.or_eq_true, listedBefore_iff, listedBefore_iff]
  rcases Nat.lt_trichotomy a.2 b.2 with hlt | heq | hgt
  · exact .inl (.inl hlt)
  · rcases String.le_total a.1 b.1 with hle | hle
    · exact .inl (.inr ⟨heq, hle⟩)
    · exact .inr (.inr ⟨heq.symm, hle⟩)
  · exact .inr (.inl hgt)

theorem listedBefore_antisymm {a b : String × Nat} (hab : listedBefore a b = true)
    (hba : listedBefore b a = true) : a = b := by
  rw [listedBefore_iff] at hab hba
  rcases hab with hab | ⟨hab, hle⟩
  · rcases hba with hba | ⟨hba, -⟩ <;> omega
  · rcases hba with hba | ⟨-, hle'⟩
    · omega
    · exact Prod.ext (String.le_antisymm hle hle') hab

/-- Two entries of one listing have different labels, so one is strictly before the other. -/
theorem listed_of_listedBefore {a b : String × Nat} (hab : listedBefore a b = true)
    (hne : a.1 ≠ b.1) : Listed a b := by
  rcases listedBefore_iff.mp hab with hlt | ⟨heq, hle⟩
  · exact .inl hlt
  · refine .inr ⟨heq, Text.lt_iff_bytes_lt.mp (Decidable.byContradiction fun hnot => ?_)⟩
    exact hne (String.le_antisymm hle (String.not_lt.mp hnot))

theorem pairwise_listedBefore (entries : List (String × Nat)) :
    (entries.mergeSort listedBefore).Pairwise fun a b => listedBefore a b = true :=
  List.pairwise_mergeSort listedBefore_trans listedBefore_total entries

/-- In whatever order the entries of a table are taken, sorting them gives its listing. -/
theorem listing_of_perm (h : Enumerates entries t) :
    entries.mergeSort listedBefore = t.listing := by
  refine List.Perm.eq_of_pairwise (fun a b _ _ => listedBefore_antisymm)
    (pairwise_listedBefore entries) (pairwise_listedBefore _) ?_
  exact ((List.mergeSort_perm _ _).trans (h.perm t.enumerates_toList)).trans
    (List.mergeSort_perm _ _).symm

theorem enumerates_listing (t : SymbolTable) : Enumerates t.listing t :=
  t.enumerates_toList.of_perm (List.mergeSort_perm _ _)

theorem pairwise_listing (t : SymbolTable) : t.listing.Pairwise Listed := by
  have hlabels := List.pairwise_map.mp t.enumerates_listing.1
  exact (hlabels.and (pairwise_listedBefore _)).imp fun ⟨hne, hbefore⟩ =>
    listed_of_listedBefore hbefore hne

end

/-! ## Equal maps -/

theorem listing_congr (h : ∀ label, t.get? label = t'.get? label) : t.listing = t'.listing := by
  refine (listing_of_perm (t := t') ⟨t.enumerates_toList.1, fun label address => ?_⟩)
  rw [← h label]
  exact t.enumerates_toList.2 label address

theorem resolve_congr (h : ∀ label, t.get? label = t'.get? label) (sum : LabelSum) :
    t.resolve sum = t'.resolve sum := by
  rw [resolve, resolve]
  generalize sum.constant = total
  induction sum.labels generalizing total with
  | nil => rfl
  | cons label rest ih =>
    rw [addAddresses, addAddresses, h label]
    cases t'.get? label with
    | none => rfl
    | some address => exact ih _

/-- The address of a label, zero if it has none. -/
def address (t : SymbolTable) (label : String) : Nat := (t.get? label).getD 0

/-- A sum has the total of its constant and all addresses, in 64 bits, unless a label is not
defined. -/
theorem resolve_eq {sum : LabelSum} (h : sum.Wrapped) :
    t.resolve sum =
      match sum.labels.find? fun label => (t.get? label).isNone with
      | some label => .error label
      | none => .ok (sum.total t.address) := by
  cases hfind : sum.labels.find? fun label => (t.get? label).isNone with
  | some label => exact addAddresses_error_iff.mpr hfind
  | none =>
    cases hresolve : t.resolve sum with
    | error label =>
      rw [addAddresses_error_iff.mp hresolve] at hfind
      cases hfind
    | ok value =>
      have haddress (label : String) (address : Nat) (hget : t.get? label = some address) :
          t.address label = address := by
        rw [SymbolTable.address, hget, Option.getD_some]
      rw [(resolve_of_ok haddress h hresolve).1]

end

/-! ## Definitions in a row -/

section
variable {definitions others : List (String × Nat)}

theorem lookup_eq_some_iff_mem (h : (definitions.map Prod.fst).Nodup) {label : String}
    {address : Nat} : definitions.lookup label = some address ↔ (label, address) ∈ definitions := by
  induction definitions with
  | nil => simp
  | cons definition rest ih =>
    obtain ⟨name, first⟩ := definition
    obtain ⟨hnew, hrest⟩ := List.nodup_cons.mp h
    rw [List.lookup_cons, List.mem_cons, Prod.mk.injEq]
    by_cases hsame : label = name
    · subst hsame
      have hnot : (label, address) ∉ rest := fun hmem => hnew (List.mem_map.mpr ⟨_, hmem, rfl⟩)
      simp [hnot, eq_comm]
    · rw [beq_eq_false_iff_ne.mpr hsame, ih hrest]
      simp [hsame]

theorem lookup_of_perm (hperm : others.Perm definitions) (h : (definitions.map Prod.fst).Nodup)
    (label : String) : others.lookup label = definitions.lookup label := by
  have hothers : (others.map Prod.fst).Nodup := (hperm.map Prod.fst).nodup_iff.mpr h
  refine Option.ext fun address => ?_
  rw [lookup_eq_some_iff_mem h, lookup_eq_some_iff_mem hothers, hperm.mem_iff]

theorem mem_labels_iff {label : String} :
    label ∈ definitions.map Prod.fst ↔ ∃ address, definitions.lookup label = some address := by
  induction definitions with
  | nil => simp
  | cons definition rest ih =>
    rw [List.map_cons, List.mem_cons, List.lookup_cons]
    by_cases hsame : label = definition.1
    · rw [beq_iff_eq.mpr hsame]
      exact ⟨fun _ => ⟨definition.2, rfl⟩, fun _ => .inl hsame⟩
    · rw [beq_eq_false_iff_ne.mpr hsame, ← ih]
      exact ⟨fun h => h.resolve_left hsame, .inr⟩

/-- Definitions of different labels are the entries of their table. -/
theorem enumerates_definitions (h : (definitions.map Prod.fst).Nodup) :
    Enumerates definitions (ofDefinitions definitions) :=
  ⟨h, fun label address => by rw [get?_ofDefinitions, lookup_eq_some_iff_mem h]⟩

/-- A table has as many entries as there are different labels among the definitions. -/
theorem size_ofDefinitions (definitions : List (String × Nat)) :
    (ofDefinitions definitions).size = (definitions.map Prod.fst).dedup.length := by
  have hlisting := (ofDefinitions definitions).enumerates_listing
  have hlabels : ((ofDefinitions definitions).listing.map Prod.fst).Perm
      (definitions.map Prod.fst).dedup := by
    refine (List.perm_ext_iff_of_nodup hlisting.1 (List.nodup_dedup _)).mpr fun label => ?_
    have hmem (address : Nat) : (label, address) ∈ (ofDefinitions definitions).listing ↔
        definitions.lookup label = some address := by
      rw [hlisting.2, get?_ofDefinitions]
    rw [List.mem_dedup, mem_labels_iff, mem_labels_iff]
    simp only [lookup_eq_some_iff_mem hlisting.1, hmem]
  rw [← hlisting.length_eq_size, ← hlabels.length_eq, List.length_map]

end

/-- After definitions in a row a label has the address of the first definition of it. A further one
is answered with that address and changes nothing, and the table has as many entries as there are
different labels. The listing has each label once with its address, in the order of the addresses
and then of the bytes of the labels, in whatever order the entries are taken from the table. So
another order of the definitions, if no label is defined twice, gives the same listing and the same
values: the sum in 64 bits of the constant and the addresses, or the first label from the left that
is not defined. -/
theorem definitions_stand (definitions : List (String × Nat)) :
    (∀ label, (ofDefinitions definitions).get? label = definitions.lookup label) ∧
    (∀ label address, (ofDefinitions definitions).define label address =
      match definitions.lookup label with
      | some first => .error first
      | none => .ok (ofDefinitions (definitions ++ [(label, address)]))) ∧
    (∀ label first address, definitions.lookup label = some first →
      ofDefinitions (definitions ++ [(label, address)]) = ofDefinitions definitions) ∧
    (ofDefinitions definitions).size = (definitions.map Prod.fst).dedup.length ∧
    ((ofDefinitions definitions).listing.map Prod.fst).Nodup ∧
    (∀ label address, (label, address) ∈ (ofDefinitions definitions).listing ↔
      definitions.lookup label = some address) ∧
    (ofDefinitions definitions).listing.Pairwise Listed ∧
    (∀ entries, Enumerates entries (ofDefinitions definitions) →
      entries.mergeSort listedBefore = (ofDefinitions definitions).listing) ∧
    (∀ sum : LabelSum, sum.Wrapped → (ofDefinitions definitions).resolve sum =
      match sum.labels.find? fun label => (definitions.lookup label).isNone with
      | some label => .error label
      | none => .ok (sum.total fun label => (definitions.lookup label).getD 0)) ∧
    ∀ others : List (String × Nat), others.Perm definitions → (definitions.map Prod.fst).Nodup →
      (ofDefinitions others).listing = (ofDefinitions definitions).listing ∧
        ∀ sum, (ofDefinitions others).resolve sum = (ofDefinitions definitions).resolve sum := by
  have hget := get?_ofDefinitions definitions
  refine ⟨hget, fun label address => ?_, fun label first address hfirst => ?_,
    size_ofDefinitions definitions, (enumerates_listing _).1, fun label address => ?_,
    pairwise_listing _, fun entries => listing_of_perm, fun sum hwrapped => ?_,
    fun others hperm hnodup => ?_⟩
  · cases hlookup : definitions.lookup label with
    | some first => exact define_of_some ((hget label).trans hlookup) address
    | none =>
      rw [ofDefinitions_snoc]
      exact define_of_none ((hget label).trans hlookup) address
  · rw [ofDefinitions_snoc]
    exact after_of_some ((hget label).trans hfirst)
  · rw [(enumerates_listing _).2, hget]
  · have haddress : (ofDefinitions definitions).address =
        fun label => (definitions.lookup label).getD 0 :=
      funext fun label => congrArg (Option.getD · 0) (hget label)
    simp only [resolve_eq hwrapped, hget, haddress]
  · have hsame (label : String) :
        (ofDefinitions others).get? label = (ofDefinitions definitions).get? label := by
      rw [get?_ofDefinitions, hget, lookup_of_perm hperm hnodup]
    exact ⟨listing_congr hsame, resolve_congr hsame⟩

/-- A label that is defined twice, and two labels with one address. -/
theorem definitions_stand_twice :
    (ofDefinitions [("B", 7), ("A", 7), ("B", 9)]).get? "B" = some 7 ∧
      ofDefinitions [("B", 7), ("A", 7), ("B", 9)] = ofDefinitions [("B", 7), ("A", 7)] ∧
      Enumerates [("A", 7), ("B", 7)] (ofDefinitions [("B", 7), ("A", 7)]) ∧
      (ofDefinitions [("B", 7), ("A", 7)]).listing = [("A", 7), ("B", 7)] ∧
      (ofDefinitions [("A", 7), ("B", 7)]).listing = [("A", 7), ("B", 7)] ∧
      LabelSum.Wrapped ⟨["A", "B"], -5⟩ ∧
      (ofDefinitions [("A", 7), ("B", 7)]).resolve ⟨["A", "B"], -5⟩ = .ok 9 := by
  have hnodup : ([("B", 7), ("A", 7)].map Prod.fst).Nodup := by decide
  have hperm : [("A", 7), ("B", 7)].Perm [("B", 7), ("A", 7)] := by decide
  have hwrapped : LabelSum.Wrapped ⟨["A", "B"], -5⟩ := by
    unfold LabelSum.Wrapped
    decide
  have hentries : Enumerates [("A", 7), ("B", 7)] (ofDefinitions [("B", 7), ("A", 7)]) :=
    (enumerates_definitions hnodup).of_perm hperm
  have hsorted : [("A", 7), ("B", 7)].mergeSort listedBefore = [("A", 7), ("B", 7)] :=
    List.mergeSort_of_pairwise (by decide)
  obtain ⟨hget, -⟩ := definitions_stand [("B", 7), ("A", 7), ("B", 9)]
  obtain ⟨-, -, hagain, -, -, -, -, hlisting, hresolve, hothers⟩ :=
    definitions_stand [("B", 7), ("A", 7)]
  have hlisted := (hlisting _ hentries).symm.trans hsorted
  refine ⟨hget "B", hagain "B" 7 9 rfl, hentries, hlisted, ?_, hwrapped, ?_⟩
  · exact (hothers _ hperm hnodup).1.trans hlisted
  · rw [(hothers _ hperm hnodup).2, hresolve _ hwrapped]
    decide

end TrnComputer.SymbolTable
