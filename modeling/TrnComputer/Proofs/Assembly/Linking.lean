import Mathlib.Algebra.Ring.Int.Defs
import TrnComputer.Assembly.Assemble
import TrnComputer.Proofs.Assembly.Drafts
import TrnComputer.Proofs.Readings

/-! # References put in

* `LabelSum.Wrapped`: the numbers of a sum are added up in 64 bits.
* `resolve_of_ok`: the value of a sum is its total.
* `patch_base`: putting the total into a cell that waits for it makes the word of its content.
* `get?_link_of_notMem`, `get?_link_of_mem`: which cells linking changes, and to what.
-/

namespace TrnComputer
set_option autoImplicit false

/-! ## Sums of 64 bits -/

/-- The constant of a sum fits 64 bits. -/
def LabelSum.Wrapped (sum : LabelSum) : Prop := sum.constant.bmod (2 ^ 64) = sum.constant

/-- Adding up in 64 bits, step by step or at the end, gives the same. -/
theorem foldl_wrappingAdd (values : List Int) (start : Int) (h : start.bmod (2 ^ 64) = start) :
    values.foldl wrappingAdd start = (start + values.sum).bmod (2 ^ 64) := by
  induction values generalizing start with
  | nil => rw [List.foldl_nil, List.sum_nil, Int.add_zero, h]
  | cons value rest ih =>
    have hnext : (wrappingAdd start value).bmod (2 ^ 64) = wrappingAdd start value := Int.bmod_bmod
    rw [List.foldl_cons, ih _ hnext, wrappingAdd, Int.bmod_add_bmod, List.sum_cons, Int.add_assoc]

theorem wrapped_ofTerms (terms : List LabelTerm) : (LabelSum.ofTerms terms).Wrapped := by
  rw [LabelSum.Wrapped, LabelSum.ofTerms, foldl_wrappingAdd _ 0 (by decide), Int.bmod_bmod]

theorem wrapped_of_read {text : List Char} {sum : LabelSum}
    (h : LabelSum.read text = .ok sum) : sum.Wrapped := by
  unfold LabelSum.read at h
  split at h
  · cases h
  · cases h
    exact wrapped_ofTerms _

theorem wrapped_of_readOne {sole : Bool} {text : List Char} {sum : LabelSum}
    (h : Arguments.readOne sole text = .ok (.sum sum)) : sum.Wrapped := by
  unfold Arguments.readOne at h
  split at h
  · cases h
  · split at h
    · split at h
      · cases h
      · next hread =>
        cases h
        exact wrapped_of_read hread
    · cases h

theorem wrapped_of_pieces {sole : Bool} {pieces : List (List Char)} {values : List Argument}
    {sum : LabelSum}
    (h : (pieces.mapM fun piece => Arguments.readOne sole (Text.trim piece)) = .ok values)
    (hmem : .sum sum ∈ values) : sum.Wrapped := by
  obtain ⟨piece, -, hpiece⟩ := exists_of_mem_mapM h hmem
  exact wrapped_of_readOne hpiece

theorem wrapped_of_arguments {text : List Char} {arguments : Arguments} {sum : LabelSum}
    (h : Arguments.read text = .ok arguments) (hmem : .sum sum ∈ arguments.values) :
    sum.Wrapped := by
  cases hwrap : Arguments.unwrap? (Text.trim text)
  all_goals
    simp only [Arguments.read, hwrap] at h
    split at h
    · cases h
      cases hmem
    · split at h
      · cases h
      · next values hvalues =>
        cases h
        exact wrapped_of_pieces hvalues hmem

theorem wrapped_of_contents {s : Statement} {content : Content} {sum : LabelSum}
    (hmem : content ∈ s.contents) (hsum : content.sum? = some sum) : sum.Wrapped := by
  unfold Statement.contents at hmem
  split at hmem
  · cases hmem
  · next arguments hread =>
    refine wrapped_of_arguments hread ?_
    split at hmem
    · obtain rfl := List.mem_singleton.mp hmem
      cases hhead : arguments.values.head? with
      | none =>
        rw [hhead] at hsum
        cases hsum
      | some value =>
        rw [hhead] at hsum
        cases value with
        | literal number => cases hsum
        | sum found =>
          cases hsum
          exact List.mem_of_head? hhead
    · split at hmem
      · obtain ⟨value, hvalue, rfl⟩ := List.mem_map.mp hmem
        cases value with
        | literal number => cases hsum
        | sum found =>
          cases hsum
          exact hvalue
      · cases hmem

theorem mem_of_mem_placed {address : Nat} {contents : List Content} {e : Nat × Content}
    (h : e ∈ placed address contents) : e.2 ∈ contents := by
  induction contents generalizing address with
  | nil => cases h
  | cons content rest ih =>
    rw [placed] at h
    obtain rfl | hrest := List.mem_cons.mp h
    · exact List.mem_cons_self
    · exact List.mem_cons_of_mem _ (ih hrest)

theorem wrapped_of_emissions {walk : List (Statement × Nat)} {e : Nat × Content}
    {sum : LabelSum} (hmem : e ∈ emissions walk) (hsum : e.2.sum? = some sum) :
    sum.Wrapped := by
  obtain ⟨station, -, hplaced⟩ := List.mem_flatMap.mp hmem
  exact wrapped_of_contents (mem_of_mem_placed hplaced) hsum

/-! ## Values -/

theorem addAddresses_of_ok {t : SymbolTable} {addressOf : String → Nat}
    (haddress : ∀ label address, t.get? label = some address → addressOf label = address)
    (labels : List String) {total value : Int} (htotal : total.bmod (2 ^ 64) = total)
    (h : t.addAddresses total labels = .ok value) :
    value = (total + addressSum addressOf labels).bmod (2 ^ 64) ∧
      ∀ label ∈ labels, ∃ address, t.get? label = some address := by
  induction labels generalizing total with
  | nil =>
    cases h
    rw [addressSum, Int.add_zero]
    exact ⟨htotal.symm, fun label hlabel => by cases hlabel⟩
  | cons label rest ih =>
    rw [SymbolTable.addAddresses] at h
    cases hget : t.get? label with
    | none =>
      rw [hget] at h
      cases h
    | some address =>
      rw [hget] at h
      obtain ⟨hvalue, hrest⟩ := ih Int.bmod_bmod h
      refine ⟨?_, List.forall_mem_cons.mpr ⟨⟨address, hget⟩, hrest⟩⟩
      rw [hvalue, Int.bmod_add_bmod, addressSum, haddress label address hget, Int.add_assoc]

theorem resolve_of_ok {t : SymbolTable} {addressOf : String → Nat}
    (haddress : ∀ label address, t.get? label = some address → addressOf label = address)
    {sum : LabelSum} {value : Int} (hwrapped : sum.Wrapped) (h : t.resolve sum = .ok value) :
    value = sum.total addressOf ∧ ∀ label ∈ sum.labels, ∃ address, t.get? label = some address :=
  addAddresses_of_ok haddress sum.labels hwrapped h

theorem lowBits_lt (width : Nat) (value : Int) : lowBits width value < 2 ^ width := by
  have hpos : (0 : Int) < 2 ^ width := Int.pow_pos (by decide)
  have hlt : value % 2 ^ width < 2 ^ width := Int.emod_lt_of_pos value hpos
  have hnonneg : 0 ≤ value % 2 ^ width := Int.emod_nonneg value (by omega)
  unfold lowBits
  rw [Int.toNat_lt hnonneg]
  exact_mod_cast hlt

/-- The operand field of a cell that waits is free, so setting bits in it fills it in. -/
theorem or_pack (code : Nat) (indirect indexed : Bool) {field : Nat} (h : field < 2 ^ 13) :
    Word.pack code indirect indexed 0 ||| field = Word.pack code indirect indexed field := by
  have hsplit (operand : Nat) (hlt : operand < 2 ^ 13) :
      Word.pack code indirect indexed operand =
        2 ^ 13 * (code % 2 ^ 5 * 4 + indirect.toNat * 2 + indexed.toNat) + operand := by
    rw [Word.pack, Nat.mod_eq_of_lt hlt]
    omega
  rw [hsplit 0 (by decide), hsplit field h, Nat.add_zero, Nat.two_pow_add_eq_or_of_lt h]

theorem patch_base {content : Content} {sum : LabelSum} (addressOf : String → Nat)
    (h : content.sum? = some sum) :
    Reference.patch content.base (sum.total addressOf) = content.word addressOf := by
  have hfield : lowBits 13 (sum.total addressOf) < 2 ^ 13 := lowBits_lt 13 _
  cases content with
  | instruction m indirect indexed operand =>
    cases operand with
    | none => cases h
    | some value =>
      cases value with
      | literal number => cases h
      | sum found =>
        cases h
        unfold Reference.patch Content.base Content.word signedWord
        simp only [or_pack m.opcode.code indirect indexed hfield]
  | constant value =>
    cases value with
    | literal number => cases h
    | sum found =>
      cases h
      unfold Reference.patch Content.base Content.word signedWord
      simp only [Nat.zero_or]

/-! ## Linking -/

namespace Draft

variable {symbols : SymbolTable} {memory memory' : Memory} {records : Array Record}
  {references : List Reference}

theorem link_cons {reference : Reference}
    (h : (link symbols memory records (reference :: references)).2 = .ok memory') :
    ∃ value cell others, symbols.resolve reference.sum = .ok value ∧
      memory.get? reference.address = some cell ∧
      (link symbols (memory.store reference.address (Reference.patch cell value)) others
        references).2 = .ok memory' := by
  rw [link] at h
  cases hvalue : symbols.resolve reference.sum with
  | error label =>
    rw [hvalue] at h
    cases h
  | ok value =>
    cases hcell : memory.get? reference.address with
    | none =>
      rw [hvalue, hcell] at h
      cases h
    | some cell =>
      rw [hvalue, hcell] at h
      exact ⟨value, cell, _, rfl, rfl, h⟩

theorem size_link (h : (link symbols memory records references).2 = .ok memory') :
    memory'.size = memory.size := by
  induction references generalizing memory records with
  | nil =>
    cases h
    rfl
  | cons reference rest ih =>
    obtain ⟨value, cell, others, -, hcell, hrest⟩ := link_cons h
    have hlt : reference.address < memory.size := Memory.lt_size_of_get? hcell
    rw [ih hrest, Memory.size_store]
    omega

theorem get?_link_of_notMem (h : (link symbols memory records references).2 = .ok memory')
    {address : Nat} (hfree : ∀ r ∈ references, r.address ≠ address) :
    memory'.get? address = memory.get? address := by
  induction references generalizing memory records with
  | nil =>
    cases h
    rfl
  | cons reference rest ih =>
    obtain ⟨value, cell, others, -, hcell, hrest⟩ := link_cons h
    obtain ⟨hhead, htail⟩ := List.forall_mem_cons.mp hfree
    rw [ih hrest htail, Memory.get?_store_of_ne _ hcell hhead.symm]

theorem get?_link_of_mem (h : (link symbols memory records references).2 = .ok memory')
    (hdistinct : references.Pairwise fun r r' => r'.address ≠ r.address) {r : Reference}
    (hmem : r ∈ references) :
    ∃ value cell, symbols.resolve r.sum = .ok value ∧ memory.get? r.address = some cell ∧
      memory'.get? r.address = some (Reference.patch cell value) := by
  induction references generalizing memory records with
  | nil => cases hmem
  | cons reference rest ih =>
    obtain ⟨value, cell, others, hvalue, hcell, hrest⟩ := link_cons h
    obtain ⟨hhead, htail⟩ := List.pairwise_cons.mp hdistinct
    obtain rfl | hlater := List.mem_cons.mp hmem
    · refine ⟨value, cell, hvalue, hcell, ?_⟩
      rw [get?_link_of_notMem hrest hhead, Memory.get?_store_self]
    · obtain ⟨sum, old, hsum, hold, hpatched⟩ := ih hrest htail hlater
      rw [Memory.get?_store_of_ne _ hcell (hhead r hlater)] at hold
      exact ⟨sum, old, hsum, hold, hpatched⟩

end Draft

end TrnComputer
