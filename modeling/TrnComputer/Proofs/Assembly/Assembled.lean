import TrnComputer.Proofs.Assembly.Linking
import TrnComputer.Proofs.Assembly.Sources

/-! # The memory of a source

* `Settled`: no cell that waits for a sum is filled again.
* `Assembled`: a memory is what the walk over the statements of a source makes it.
* `assemble_correct`: assembling a settled source makes its memory.
-/

namespace TrnComputer
set_option autoImplicit false

/-- No cell that has got a sum of labels gets another content later. -/
def Settled (emitted : List (Nat × Content)) : Prop :=
  emitted.Pairwise fun e later => e.2.sum?.isSome → later.1 ≠ e.1

/-- What the memory of a source is, cell by cell. -/
structure Assembled (source : String) (memory : Memory) : Prop where
  readable : ∀ line ∈ Text.lines source.toList, ∃ s, Statement.read line = .ok s
  meaningful : ∀ s ∈ statements source, s.Meaningful
  labelled : ∀ label address, (label, address) ∈ labels (stations source) →
    labelAddress (stations source) label = address
  defined : ∀ e ∈ emissions (stations source), ∀ sum, e.2.sum? = some sum →
    ∀ label ∈ sum.labels, ∃ address, (label, address) ∈ labels (stations source)
  size : memory.size = extent (emissions (stations source)) (reserves (stations source))
  cell : ∀ address < memory.size, memory.get? address =
    some ((lastAt address (emissions (stations source))).elim 0
      (Content.word (labelAddress (stations source))))

section
variable {emitted : List (Nat × Content)} {address : Nat}

theorem mem_of_lastAt {content : Content} (h : lastAt address emitted = some content) :
    (address, content) ∈ emitted := by
  obtain ⟨front, back, rfl, -⟩ := append_of_lastAt h
  exact List.mem_append_right _ List.mem_cons_self

theorem mem_sums {sum : LabelSum} :
    (address, sum) ∈ sums emitted ↔ ∃ e ∈ emitted, e.1 = address ∧ e.2.sum? = some sum := by
  simp only [sums, List.mem_filterMap, Option.map_eq_some_iff, Prod.mk.injEq]
  constructor
  · rintro ⟨e, he, found, hfound, haddress, rfl⟩
    exact ⟨e, he, haddress, hfound⟩
  · rintro ⟨e, he, haddress, hsum⟩
    exact ⟨e, he, sum, hsum, haddress, rfl⟩

theorem pairwise_sums (h : Settled emitted) :
    (sums emitted).Pairwise fun r later => later.1 ≠ r.1 := by
  refine List.Pairwise.filterMap _ ?_ h
  intro e later hsettled r hr r' hr'
  obtain ⟨sum, hsum, rfl⟩ := Option.map_eq_some_iff.mp hr
  obtain ⟨sum', hsum', rfl⟩ := Option.map_eq_some_iff.mp hr'
  exact hsettled (by rw [hsum]; rfl)

theorem not_mem_sums (h : Settled emitted)
    (hlast : ((lastAt address emitted).bind Content.sum?) = none) :
    ∀ r ∈ sums emitted, r.1 ≠ address := by
  rintro ⟨other, sum⟩ hr rfl
  obtain ⟨⟨other, given⟩, he, rfl, hsum⟩ := mem_sums.mp hr
  cases hfound : lastAt other emitted with
  | none => exact lastAt_eq_none_iff.mp hfound (other, given) he rfl
  | some content =>
    rw [hfound, Option.bind_some] at hlast
    obtain ⟨front, back, hsplit, hback⟩ := append_of_lastAt hfound
    rw [hsplit, List.mem_append, List.mem_cons] at he
    rw [Settled, hsplit, List.pairwise_append] at h
    obtain hfront | hsame | hlater := he
    · exact h.2.2 _ hfront _ List.mem_cons_self (by rw [hsum]; rfl) rfl
    · cases hsame
      rw [hsum] at hlast
      cases hlast
    · exact hback _ hlater rfl

end

theorem Content.base_eq_word {content : Content} (addressOf : String → Nat)
    (h : content.sum? = none) : content.base = content.word addressOf := by
  cases content with
  | instruction m indirect indexed operand =>
    cases operand with
    | none => rfl
    | some value =>
      cases value with
      | literal number => rfl
      | sum found => cases h
  | constant value =>
    cases value with
    | literal number => rfl
    | sum found => cases h

/-! ## Labels -/

section
variable {named : List (String × Nat)} {emitted : List (Nat × Content)} {reserved : List Nat}
  {d : Draft}

theorem lookup_of_drafted (h : Drafted named emitted reserved d) {label : String}
    {address : Nat} (hmem : (label, address) ∈ named) :
    named.lookup label = some address := by
  have hget : d.symbols.get? label = some address := (h.symbols label address).mpr hmem
  cases hlookup : named.lookup label with
  | none =>
    have habsent := List.lookup_eq_none_iff.mp hlookup (label, address) hmem
    simp at habsent
  | some other =>
    obtain ⟨front, back, hsplit, -⟩ := List.lookup_eq_some_iff.mp hlookup
    have hother : (label, other) ∈ named := by
      rw [hsplit]
      exact List.mem_append_right _ List.mem_cons_self
    rw [← hget, (h.symbols label other).mpr hother]

theorem labelAddress_of_drafted {walk : List (Statement × Nat)}
    (h : Drafted (labels walk) emitted reserved d) {label : String} {address : Nat}
    (hmem : (label, address) ∈ labels walk) : labelAddress walk label = address := by
  rw [labelAddress, lookup_of_drafted h hmem]
  rfl

/-! ## Memories -/

theorem exists_reference_iff (h : Drafted named emitted reserved d) {address : Nat}
    {sum : LabelSum} :
    (∃ r ∈ d.references.toList, r.address = address ∧ r.sum = sum) ↔
      ∃ e ∈ emitted, e.1 = address ∧ e.2.sum? = some sum := by
  rw [← mem_sums, ← h.references, List.mem_map]
  simp only [Prod.mk.injEq]

theorem link_of_drafted {walk : List (Statement × Nat)}
    (h : Drafted (labels walk) (emissions walk) (reserves walk) d)
    (hsettled : Settled (emissions walk)) {records : Array Record} {memory : Memory}
    (hlink : (Draft.link d.symbols d.memory records d.references.toList).2 = .ok memory)
    {e : Nat × Content} (he : e ∈ emissions walk) {sum : LabelSum} (hsum : e.2.sum? = some sum) :
    (∀ label ∈ sum.labels, ∃ address, (label, address) ∈ labels walk) ∧
      ∃ cell, d.memory.get? e.1 = some cell ∧
        memory.get? e.1 = some (Reference.patch cell (sum.total (labelAddress walk))) := by
  obtain ⟨r, hr, haddress, rfl⟩ := (exists_reference_iff h).mpr ⟨e, he, rfl, hsum⟩
  have hdistinct : d.references.toList.Pairwise fun r later => later.address ≠ r.address := by
    have hpairs := pairwise_sums hsettled
    rw [← h.references, List.pairwise_map] at hpairs
    exact hpairs
  obtain ⟨value, cell, hvalue, hcell, hpatched⟩ := Draft.get?_link_of_mem hlink hdistinct hr
  obtain ⟨rfl, hdefined⟩ := resolve_of_ok
    (fun label address hget => labelAddress_of_drafted h ((h.symbols label address).mp hget))
    (wrapped_of_emissions he hsum) hvalue
  rw [haddress] at hcell hpatched
  refine ⟨fun label hlabel => ?_, cell, hcell, hpatched⟩
  obtain ⟨address, hget⟩ := hdefined label hlabel
  exact ⟨address, (h.symbols label address).mp hget⟩

theorem get?_of_link {walk : List (Statement × Nat)}
    (h : Drafted (labels walk) (emissions walk) (reserves walk) d)
    (hsettled : Settled (emissions walk)) {records : Array Record} {memory : Memory}
    (hlink : (Draft.link d.symbols d.memory records d.references.toList).2 = .ok memory)
    {address : Nat} (hlt : address < extent (emissions walk) (reserves walk)) :
    memory.get? address =
      some ((lastAt address (emissions walk)).elim 0 (Content.word (labelAddress walk))) := by
  cases hwaiting : (lastAt address (emissions walk)).bind Content.sum? with
  | none =>
    have hfree : ∀ r ∈ d.references.toList, r.address ≠ address := by
      intro r hr hsame
      obtain ⟨e, he, haddress, hsum⟩ := (exists_reference_iff h).mp ⟨r, hr, hsame, rfl⟩
      exact not_mem_sums hsettled hwaiting (address, r.sum)
        (mem_sums.mpr ⟨e, he, haddress, hsum⟩) rfl
    rw [Draft.get?_link_of_notMem hlink hfree, h.cell address hlt]
    cases hlast : lastAt address (emissions walk) with
    | none => rfl
    | some content =>
      rw [hlast, Option.bind_some] at hwaiting
      rw [Option.elim_some, Option.elim_some, Content.base_eq_word _ hwaiting]
  | some sum =>
    obtain ⟨content, hlast, hsum⟩ := Option.bind_eq_some_iff.mp hwaiting
    obtain ⟨-, cell, hcell, hpatched⟩ :=
      link_of_drafted h hsettled hlink (mem_of_lastAt hlast) hsum
    have hbase : cell = content.base := by
      rw [h.cell address hlt, hlast, Option.elim_some] at hcell
      exact (Option.some.inj hcell).symm
    rw [hpatched, hbase, patch_base _ hsum, hlast, Option.elim_some]

end

theorem assemble_eq_ok {source : String} {memory : Memory} (h : assemble source = .ok memory) :
    ∃ d records, Draft.initial.Leads (placementsOfSource source) d ∧
      (Draft.link d.symbols d.memory records d.references.toList).2 = .ok memory := by
  unfold assemble Assembly.run at h
  cases hplaced : Draft.initial.performAll #[] (placementsOfSource source) with
  | mk records result =>
    rw [hplaced] at h
    cases result with
    | error fault => cases h
    | ok d =>
      refine ⟨d, records, by rw [Draft.Leads, hplaced], ?_⟩
      dsimp only at h
      split at h
      · cases h
      · unfold Assembly.finish at h
        cases hlinked : Draft.link d.symbols d.memory records d.references.toList with
        | mk others linked =>
          rw [hlinked] at h
          cases linked with
          | error fault => cases h
          | ok made =>
            cases h
            rfl

theorem assemble_correct {source : String} {memory : Memory}
    (h : assemble source = .ok memory) (hsettled : Settled (emissions (stations source))) :
    Assembled source memory := by
  obtain ⟨d, records, hleads, hlink⟩ := assemble_eq_ok h
  obtain ⟨hdrafted, hmeaningful, hreadable⟩ := drafted_source hleads
  have hsize : memory.size =
      extent (emissions (stations source)) (reserves (stations source)) := by
    rw [Draft.size_link hlink, hdrafted.size]
  exact {
    readable := hreadable
    meaningful := hmeaningful
    labelled := fun label address hmem => labelAddress_of_drafted hdrafted hmem
    defined := fun e he sum hsum => (link_of_drafted hdrafted hsettled hlink he hsum).1
    size := hsize
    cell := fun address hlt => get?_of_link hdrafted hsettled hlink (hsize ▸ hlt) }

theorem assemble_correct_forward :
    assemble "NAM P\nJMP L\nL: CON -2+L\nEND" = .ok (Memory.ofList [622593, 1040385]) ∧
      Settled (emissions (stations "NAM P\nJMP L\nL: CON -2+L\nEND")) ∧
      Assembled "NAM P\nJMP L\nL: CON -2+L\nEND" (Memory.ofList [622593, 1040385]) := by
  have hmemory : (assemble "NAM P\nJMP L\nL: CON -2+L\nEND").toOption =
      some (Memory.ofList [622593, 1040385]) := by
    decide +kernel
  have hassemble : assemble "NAM P\nJMP L\nL: CON -2+L\nEND" =
      .ok (Memory.ofList [622593, 1040385]) := by
    cases hresult : assemble "NAM P\nJMP L\nL: CON -2+L\nEND" with
    | error e =>
      rw [hresult] at hmemory
      cases hmemory
    | ok memory =>
      rw [hresult] at hmemory
      exact congrArg Except.ok (Option.some.inj hmemory)
  have hsettled : Settled (emissions (stations "NAM P\nJMP L\nL: CON -2+L\nEND")) := by
    unfold Settled
    decide +kernel
  exact ⟨hassemble, hsettled, assemble_correct hassemble hsettled⟩

end TrnComputer
