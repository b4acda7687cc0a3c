import TrnComputer.Proofs.Assembly.Walk
import TrnComputer.Proofs.Cells

/-! # What a draft holds

* `Draft.Leads`: placements that lead from one draft to another.
* `Drafted`: a draft holds the contents that have been put into cells so far, with zero for what is
  not known yet, waits for the sums among them, and knows the labels.
* `drafted_placements`, `drafted_contents`: putting contents into cells keeps it so.
-/

namespace TrnComputer
set_option autoImplicit false

/-! ## Carrying out placements -/

namespace Draft

/-- Carrying out placements leads from a draft to another. -/
def Leads (d : Draft) (placements : List (Nat × Placement)) (d' : Draft) : Prop :=
  (d.performAll #[] placements).2 = .ok d'

theorem performAll_records (d : Draft) (placements : List (Nat × Placement))
    (records others : Array Record) :
    (d.performAll records placements).2 = (d.performAll others placements).2 := by
  induction placements generalizing d records others with
  | nil => rfl
  | cons head rest ih =>
    obtain ⟨line, placement⟩ := head
    simp only [performAll]
    cases d.perform line placement with
    | error fault => rfl
    | ok done =>
      obtain ⟨next, record⟩ := done
      cases record with
      | none => exact ih next _ _
      | some record => exact ih next _ _

theorem leads_nil {d d' : Draft} : d.Leads [] d' ↔ d = d' := by
  simp [Leads, performAll]

theorem leads_cons {d d' : Draft} {line : Nat} {placement : Placement}
    {rest : List (Nat × Placement)} :
    d.Leads ((line, placement) :: rest) d' ↔
      ∃ next record, d.perform line placement = .ok (next, record) ∧ next.Leads rest d' := by
  unfold Leads
  simp only [performAll]
  cases hp : d.perform line placement with
  | error fault => simp
  | ok done =>
    obtain ⟨next, record⟩ := done
    cases record with
    | none => simp
    | some record =>
      rw [performAll_records next rest _ #[]]
      simp

theorem leads_append {d d' : Draft} {front back : List (Nat × Placement)} :
    d.Leads (front ++ back) d' ↔ ∃ next, d.Leads front next ∧ next.Leads back d' := by
  induction front generalizing d with
  | nil => simp [leads_nil]
  | cons head rest ih =>
    obtain ⟨line, placement⟩ := head
    rw [List.cons_append, leads_cons]
    simp only [leads_cons, ih]
    constructor
    · rintro ⟨next, record, hperform, last, hrest, hback⟩
      exact ⟨last, ⟨next, record, hperform, hrest⟩, hback⟩
    · rintro ⟨last, ⟨next, record, hperform, hrest⟩, hback⟩
      exact ⟨next, record, hperform, last, hrest, hback⟩

theorem not_leads_reject {d d' : Draft} {line : Nat} {fault : LineFault}
    {rest : List (Nat × Placement)} : ¬d.Leads ((line, .reject fault) :: rest) d' := by
  rw [leads_cons]
  rintro ⟨next, record, hperform, -⟩
  cases hperform

end Draft

/-! ## Drafts -/

theorem foldl_max (l : List Nat) (n : Nat) : l.foldl max n = max n (l.foldl max 0) := by
  induction l generalizing n with
  | nil => simp
  | cons x rest ih =>
    rw [List.foldl_cons, List.foldl_cons, ih (max n x), ih (max 0 x)]
    omega

theorem extent_emit (emitted : List (Nat × Content)) (reserved : List Nat) (address : Nat)
    (content : Content) :
    extent (emitted ++ [(address, content)]) reserved =
      max (extent emitted reserved) (address + 1) := by
  simp only [extent, List.map_append, List.map_cons, List.map_nil, List.foldl_append,
    List.foldl_cons, List.foldl_nil]
  rw [foldl_max reserved (max _ _), foldl_max reserved (List.foldl _ _ _)]
  omega

theorem extent_reserve (emitted : List (Nat × Content)) (reserved : List Nat) (address : Nat) :
    extent emitted (reserved ++ [address]) = max (extent emitted reserved) address := by
  simp only [extent, ← List.append_assoc, List.foldl_append, List.foldl_cons, List.foldl_nil]

theorem lastAt_emit (emitted : List (Nat × Content)) (address other : Nat) (content : Content) :
    lastAt other (emitted ++ [(address, content)]) =
      if address = other then some content else lastAt other emitted := by
  induction emitted with
  | nil =>
    simp only [List.nil_append, lastAt]
    split <;> rfl
  | cons e rest ih =>
    obtain ⟨front, first⟩ := e
    simp only [List.cons_append, lastAt, ih]
    by_cases heq : address = other
    · rw [if_pos heq, if_pos heq, Option.some_or]
    · rw [if_neg heq, if_neg heq]

theorem lastAt_eq_none_iff {emitted : List (Nat × Content)} {address : Nat} :
    lastAt address emitted = none ↔ ∀ e ∈ emitted, e.1 ≠ address := by
  induction emitted with
  | nil => simp [lastAt]
  | cons e rest ih =>
    obtain ⟨other, content⟩ := e
    rw [lastAt, Option.or_eq_none_iff, ih, List.forall_mem_cons]
    simp [and_comm]

/-- What is put at an address last stands behind all else that is put there. -/
theorem append_of_lastAt {emitted : List (Nat × Content)} {address : Nat} {content : Content}
    (h : lastAt address emitted = some content) :
    ∃ front back, emitted = front ++ (address, content) :: back ∧
      ∀ e ∈ back, e.1 ≠ address := by
  induction emitted with
  | nil => cases h
  | cons e rest ih =>
    obtain ⟨other, first⟩ := e
    rw [lastAt] at h
    cases hrest : lastAt address rest with
    | some found =>
      rw [hrest, Option.some_or] at h
      obtain ⟨front, back, hsplit, hback⟩ := ih (hrest.trans h)
      exact ⟨(other, first) :: front, back, by rw [hsplit, List.cons_append], hback⟩
    | none =>
      rw [hrest, Option.none_or] at h
      split at h
      · next heq =>
        cases h
        exact ⟨[], rest, by rw [heq, List.nil_append], lastAt_eq_none_iff.mp hrest⟩
      · cases h

theorem lt_extent {emitted : List (Nat × Content)} {reserved : List Nat} {e : Nat × Content}
    (h : e ∈ emitted) : e.1 < extent emitted reserved := by
  obtain ⟨front, back, rfl⟩ := List.append_of_mem h
  simp only [extent, List.map_append, List.map_cons, List.foldl_append, List.foldl_cons]
  rw [foldl_max reserved, foldl_max (back.map _)]
  omega

namespace Content

/-- The word for a content as long as no label has an address. -/
def base : Content → Nat
  | instruction m indirect indexed none =>
    Word.pack m.opcode.code indirect indexed m.subcode
  | instruction m indirect indexed (some (.literal value)) =>
    Word.pack m.opcode.code indirect indexed (lowBits 13 value)
  | instruction m indirect indexed (some (.sum _)) =>
    Word.pack m.opcode.code indirect indexed 0
  | constant (.literal value) => lowBits 20 value
  | constant (.sum _) => 0

def placements (content : Content) : List Placement :=
  content.sum?.toList.map .reference ++ [.word content.base]

end Content

def sums (emitted : List (Nat × Content)) : List (Nat × LabelSum) :=
  emitted.filterMap fun e => e.2.sum?.map (e.1, ·)

/-- A draft that holds what has been put into cells and skipped so far. -/
structure Drafted (named : List (String × Nat)) (emitted : List (Nat × Content))
    (reserved : List Nat) (d : Draft) : Prop where
  size : d.memory.size = extent emitted reserved
  cell : ∀ address < extent emitted reserved,
    d.memory.get? address = some ((lastAt address emitted).elim 0 Content.base)
  references : d.references.toList.map (fun r => (r.address, r.sum)) = sums emitted
  symbols : ∀ label address, d.symbols.get? label = some address ↔ (label, address) ∈ named

section
variable {named : List (String × Nat)} {emitted : List (Nat × Content)} {reserved : List Nat}
  {d d' : Draft} {line : Nat}

theorem drafted_initial : Drafted [] [] [] Draft.initial where
  size := rfl
  cell := fun address h => absurd h (Nat.not_lt_zero address)
  references := rfl
  symbols := by
    intro label address
    simp [Draft.initial, SymbolTable.get?, SymbolTable.empty]

theorem get?_grow_of_drafted (h : Drafted named emitted reserved d) (n address : Nat)
    (hlt : address < max (extent emitted reserved) n) :
    (d.memory.grow n).get? address = some ((lastAt address emitted).elim 0 Content.base) := by
  rw [Memory.get?_grow, h.size]
  by_cases hold : address < extent emitted reserved
  · rw [if_pos hold]
    exact h.cell address hold
  · have hnone : lastAt address emitted = none := by
      rw [lastAt_eq_none_iff]
      intro e he hsame
      have hbelow : e.1 < extent emitted reserved := lt_extent he
      omega
    rw [if_neg hold, if_pos (by omega), hnone]
    rfl


/-! ## Contents -/

theorem drafted_emit (h : Drafted named emitted reserved d) (content : Content)
    (references : Array Reference)
    (hsums : references.toList.map (fun r => (r.address, r.sum)) =
      sums (emitted ++ [(d.cursor, content)])) :
    Drafted named (emitted ++ [(d.cursor, content)]) reserved
      { d with
        memory := d.memory.store d.cursor content.base
        cursor := d.cursor + 1
        references } where
  size := by rw [Memory.size_store, h.size, extent_emit]
  cell := by
    intro address hlt
    rw [extent_emit] at hlt
    rw [Memory.get?_store, lastAt_emit]
    by_cases hsame : address = d.cursor
    · rw [if_pos hsame, if_pos hsame.symm]
      rfl
    · rw [if_neg hsame, if_neg (fun hrev => hsame hrev.symm)]
      exact get?_grow_of_drafted h _ address hlt
  references := hsums
  symbols := h.symbols

theorem sums_append (front back : List (Nat × Content)) :
    sums (front ++ back) = sums front ++ sums back := by
  simp [sums]

namespace Draft

theorem leads_word {value : Nat} :
    d.Leads [(line, .word value)] d' ↔ d.cursor < Word.addressSpace ∧
      d' = { d with memory := d.memory.store d.cursor value, cursor := d.cursor + 1 } := by
  simp only [leads_cons, leads_nil, perform]
  by_cases hfits : d.cursor < Word.addressSpace
  · simp [hfits, eq_comm]
  · simp [hfits]

theorem leads_reference {sum : LabelSum} {rest : List (Nat × Placement)} :
    d.Leads ((line, .reference sum) :: rest) d' ↔
      { d with references := d.references.push ⟨sum, d.cursor, line⟩ }.Leads rest d' := by
  simp [leads_cons, perform]

end Draft

theorem drafted_placements (h : Drafted named emitted reserved d) (content : Content)
    (hleads : d.Leads (content.placements.map (line, ·)) d') :
    Drafted named (emitted ++ [(d.cursor, content)]) reserved d' ∧
      d'.cursor = d.cursor + 1 := by
  unfold Content.placements at hleads
  cases hsum : content.sum? with
  | none =>
    rw [hsum] at hleads
    obtain ⟨-, rfl⟩ := Draft.leads_word.mp hleads
    refine ⟨drafted_emit h content d.references ?_, rfl⟩
    rw [h.references, sums_append]
    simp [sums, hsum]
  | some sum =>
    rw [hsum] at hleads
    obtain ⟨-, rfl⟩ := Draft.leads_word.mp (Draft.leads_reference.mp hleads)
    refine ⟨drafted_emit h content (d.references.push ⟨sum, d.cursor, line⟩) ?_, rfl⟩
    rw [Array.toList_push, List.map_append, h.references, sums_append]
    simp [sums, hsum]

theorem drafted_contents (contents : List Content) (h : Drafted named emitted reserved d)
    (hleads : d.Leads ((contents.flatMap Content.placements).map (line, ·)) d') :
    Drafted named (emitted ++ placed d.cursor contents) reserved d' ∧
      d'.cursor = d.cursor + contents.length := by
  induction contents generalizing d emitted with
  | nil =>
    obtain rfl := Draft.leads_nil.mp hleads
    rw [placed, List.append_nil]
    exact ⟨h, rfl⟩
  | cons content rest ih =>
    rw [List.flatMap_cons, List.map_append, Draft.leads_append] at hleads
    obtain ⟨next, hfirst, hrest⟩ := hleads
    obtain ⟨hnext, hcursor⟩ := drafted_placements h content hfirst
    obtain ⟨hlast, hend⟩ := ih hnext hrest
    rw [hcursor, List.append_assoc] at hlast
    rw [placed]
    refine ⟨hlast, ?_⟩
    rw [hend, hcursor, List.length_cons]
    omega

end

end TrnComputer
