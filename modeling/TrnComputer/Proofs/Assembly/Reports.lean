import TrnComputer.Proofs.Assembly.Notes
import TrnComputer.Proofs.Assembly.Outlines

/-! # What assembling reports

The records of an assembly are an account of what a source says.

* `told_link`: each reference that is put in has its record.
* `FirstPass`: the records of the first pass, and `firstPass_told`: it makes no others.
* `told_of_accepted`: the records of a source that is accepted.
* `told_of_rejected`: those of a source that is rejected.
* `records_account`: both.
-/

namespace TrnComputer
set_option autoImplicit false

/-! ## Linking -/

section
variable {symbols : SymbolTable} {memory memory' : Memory} {records : Array Record}
  {waiting : List Reference}

/-- Each reference that is put in has its record. -/
theorem told_link (valueOf : LabelSum → Int)
    (hvalues : ∀ r ∈ waiting, symbols.resolve r.sum = .ok (valueOf r.sum))
    (h : (Draft.link symbols memory records waiting).2 = .ok memory') :
    (Draft.link symbols memory records waiting).1.toList =
      records.toList ++ waiting.map (Reference.patchedRecord valueOf) := by
  induction waiting generalizing memory records with
  | nil => exact (List.append_nil _).symm
  | cons reference rest ih =>
    obtain ⟨hhead, hrest⟩ := List.forall_mem_cons.mp hvalues
    rw [Draft.link, hhead] at h ⊢
    cases hcell : memory.get? reference.address with
    | none =>
      rw [hcell] at h
      cases h
    | some cell =>
      rw [hcell] at h
      refine (ih hrest h).trans ?_
      rw [Array.toList_push, List.append_assoc]
      rfl

/-- Linking makes no other records, whatever comes of it. -/
theorem message_link {record : Record}
    (h : record ∈ (Draft.link symbols memory records waiting).1.toList) :
    record ∈ records.toList ∨ record.message = "reference patched" := by
  induction waiting generalizing memory records with
  | nil => exact .inl h
  | cons reference rest ih =>
    rw [Draft.link] at h
    split at h
    · exact .inl h
    · split at h
      · exact .inl h
      · obtain hmem | hpatched := ih h
        · rw [Array.toList_push] at hmem
          obtain hold | hnew := List.mem_append.mp hmem
          · exact .inl hold
          · rw [List.mem_singleton.mp hnew]
            exact .inr rfl
        · exact .inr hpatched

end

/-! ## Sources -/

/-- The records of the first pass. -/
def FirstPass (record : Record) : Prop :=
  record.message = "label defined" ∨ record.message = "program opened" ∨
    record.message = "reference deferred"

theorem firstPass_perform {d d' : Draft} {line : Nat} {placement : Placement} {record : Record}
    (h : d.perform line placement = .ok (d', some record)) : FirstPass record := by
  cases placement with
  | label name =>
    rw [Draft.perform] at h
    split at h <;> cases h
    exact .inl rfl
  | openProgram name =>
    rw [Draft.perform] at h
    split at h
    · cases h
    · split at h <;> cases h
      exact .inr (.inl rfl)
  | reference sum =>
    cases h
    exact .inr (.inr rfl)
  | within | word | reserve | origin =>
    rw [Draft.perform] at h
    split at h <;> cases h
  | closeProgram | reject => cases h

theorem firstPass_told {d : Draft} {placements : List (Nat × Placement)} {record : Record}
    (h : record ∈ d.told placements) : FirstPass record := by
  induction placements generalizing d with
  | nil => cases h
  | cons first rest ih =>
    obtain ⟨line, placement⟩ := first
    cases hperform : d.perform line placement with
    | error fault =>
      rw [Draft.told, Draft.performAll, hperform] at h
      cases h
    | ok done =>
      obtain ⟨next, made⟩ := done
      rw [Draft.told_cons hperform] at h
      obtain hmade | hrest := List.mem_append.mp h
      · obtain rfl := Option.mem_toList.mp hmade
        exact firstPass_perform hperform
      · exact ih hrest

section
variable {source : String} {d : Draft}

/-- Unless the references are resolved, the records are those of the first pass. -/
theorem run_of_early
    (h : (∃ e, Draft.initial.Fails (placementsOfSource source) e) ∨
      ∃ d name, Draft.initial.Leads (placementsOfSource source) d ∧ d.program = some name) :
    (Assembly.run source).1.toList = Draft.initial.told (placementsOfSource source) := by
  unfold Assembly.run Draft.told
  cases hplaced : Draft.initial.performAll #[] (placementsOfSource source) with
  | mk records result =>
    cases result with
    | error fault => rfl
    | ok found =>
      obtain ⟨e, hfails⟩ | ⟨d, name, hleads, hopen⟩ := h
      · rw [Draft.Fails, hplaced] at hfails
        cases hfails
      · rw [Draft.Leads, hplaced] at hleads
        obtain rfl := Except.ok.inj hleads
        dsimp only
        rw [hopen]

/-- Resolving the references adds to the records of the first pass. -/
theorem run_of_leads (hleads : Draft.initial.Leads (placementsOfSource source) d)
    (hclosed : d.program = none) :
    ∃ records, Assembly.run source = Assembly.finish d records ∧
      records.toList = Draft.initial.told (placementsOfSource source) := by
  unfold Assembly.run Draft.told
  rw [Draft.Leads] at hleads
  cases hplaced : Draft.initial.performAll #[] (placementsOfSource source) with
  | mk records result =>
    rw [hplaced] at hleads
    obtain rfl : result = .ok d := hleads
    dsimp only
    rw [hclosed]
    exact ⟨records, rfl, rfl⟩

theorem finish_ok {records : Array Record} {memory : Memory}
    (h : (Assembly.finish d records).2 = .ok memory) :
    (Draft.link d.symbols d.memory records d.references.toList).2 = .ok memory ∧
      (Assembly.finish d records).1.toList =
        (Draft.link d.symbols d.memory records d.references.toList).1.toList ++
          d.symbols.listing.map Assembly.symbolRecord ++
          [assembledRecord memory.size d.symbols.size] := by
  unfold Assembly.finish at h ⊢
  cases hlinked : Draft.link d.symbols d.memory records d.references.toList with
  | mk others linked =>
    rw [hlinked] at h
    cases linked with
    | error fault => cases h
    | ok made =>
      obtain rfl := Except.ok.inj h
      refine ⟨rfl, ?_⟩
      dsimp only
      rw [Array.toList_push, Array.toList_appendList]
      rfl

theorem finish_error {records : Array Record} {e : AssemblyError}
    (h : (Assembly.finish d records).2 = .error e) :
    (Assembly.finish d records).1 =
      (Draft.link d.symbols d.memory records d.references.toList).1 := by
  unfold Assembly.finish at h ⊢
  cases hlinked : Draft.link d.symbols d.memory records d.references.toList with
  | mk others linked =>
    rw [hlinked] at h
    cases linked with
    | error fault => rfl
    | ok made => cases h

theorem told_of_accepted {memory : Memory} (h : assemble source = .ok memory) :
    ((labels (stations source)).map Prod.fst).Nodup ∧
    (Assembly.run source).1.toList =
      reports (numberedStations source) ++
        (references (numberedStations source)).map
          (Reference.patchedRecord (·.total (labelAddress (stations source)))) ++
        ((labels (stations source)).mergeSort SymbolTable.listedBefore).map Assembly.symbolRecord ++
        [assembledRecord memory.size (labels (stations source)).length] := by
  obtain ⟨d, hleads, hclosed, -⟩ := assemble_eq_ok_iff.mp h
  obtain ⟨records, hrun, hrecords⟩ := run_of_leads hleads hclosed
  obtain ⟨hsymbols, hreferences, htold⟩ := notes_source hleads
  have hentries : SymbolTable.Enumerates (labels (stations source)) d.symbols :=
    hsymbols [] (SymbolTable.enumerates_definitions List.nodup_nil)
  rw [assemble, hrun] at h
  obtain ⟨hlink, hfinish⟩ := finish_ok h
  have hvalues : ∀ r ∈ d.references.toList,
      d.symbols.resolve r.sum = .ok (r.sum.total (labelAddress (stations source))) :=
    fun r hr => resolve_of_drafted (drafted_source hleads).1 hlink hr
  have hwaiting : d.references.toList = references (numberedStations source) :=
    hreferences.trans (List.nil_append _)
  refine ⟨hentries.1, ?_⟩
  rw [hrun, hfinish, told_link _ hvalues hlink, hrecords, htold, hwaiting,
    SymbolTable.listing_of_perm hentries, hentries.length_eq_size]

theorem told_of_rejected {e : AssemblyError} (h : assemble source = .error e) {record : Record}
    (hmem : record ∈ (Assembly.run source).1.toList) :
    FirstPass record ∨
      record.message = "reference patched" ∧ ∃ label, e = .undefinedLabel label := by
  obtain hfails | ⟨d, hleads, ⟨name, hopen, -⟩ | ⟨hclosed, label, he, -⟩⟩ := assemble_eq_error h
  · rw [run_of_early (.inl ⟨e, hfails⟩)] at hmem
    exact .inl (firstPass_told hmem)
  · rw [run_of_early (.inr ⟨d, name, hleads, hopen⟩)] at hmem
    exact .inl (firstPass_told hmem)
  · obtain ⟨records, hrun, hrecords⟩ := run_of_leads hleads hclosed
    rw [assemble, hrun] at h
    rw [hrun, finish_error h] at hmem
    obtain hfirst | hpatched := message_link hmem
    · rw [hrecords] at hfirst
      exact .inl (firstPass_told hfirst)
    · exact .inr ⟨hpatched, label, he⟩

end

/-- The records of a source that is accepted are, in this order: those of its statements, each with
its label, the program that it opens and its sums; the same sums put in, with their values; the
labels, each once, in the order of the addresses and then of the bytes of the labels; and the last
one. A source that is rejected has no last record, and none of a sum put in unless the error is a
label that is not defined. -/
theorem records_account (source : String) :
    (∀ memory, assemble source = .ok memory →
      let walk := numberedStations source
      let defined := labels (stations source)
      let listing := defined.mergeSort SymbolTable.listedBefore
      walk.map Prod.snd = stations source ∧ (defined.map Prod.fst).Nodup ∧
        listing.Perm defined ∧ listing.Pairwise SymbolTable.Listed ∧
        (Assembly.run source).1.toList =
          reports walk ++
            (references walk).map
              (Reference.patchedRecord (·.total (labelAddress (stations source)))) ++
            listing.map Assembly.symbolRecord ++ [assembledRecord memory.size defined.length]) ∧
    ∀ e, assemble source = .error e → ∀ record ∈ (Assembly.run source).1.toList,
      record.message ≠ "assembled" ∧
        (record.message = "reference patched" → ∃ label, e = .undefinedLabel label) := by
  refine ⟨fun memory h => ?_, fun e h record hmem => ?_⟩
  · obtain ⟨hnodup, htold⟩ := told_of_accepted h
    have hlisting := SymbolTable.listing_of_perm (SymbolTable.enumerates_definitions hnodup)
    intro walk defined listing
    have hlisted : listing.Pairwise SymbolTable.Listed := by
      rw [show listing = _ from hlisting]
      exact SymbolTable.pairwise_listing _
    exact ⟨map_snd_numberedStations source, hnodup, List.mergeSort_perm _ _, hlisted, htold⟩
  · obtain (hfirst | hfirst | hfirst) | ⟨hpatched, hundefined⟩ := told_of_rejected h hmem
    · rw [hfirst]
      exact ⟨by decide, fun heq => absurd heq (by decide)⟩
    · rw [hfirst]
      exact ⟨by decide, fun heq => absurd heq (by decide)⟩
    · rw [hfirst]
      exact ⟨by decide, fun heq => absurd heq (by decide)⟩
    · rw [hpatched]
      exact ⟨by decide, fun _ => hundefined⟩

/-- Two labels at one address, and a label that is not defined. -/
theorem records_account_labels :
    assemble "NAM P\nB: RES 0\nA: JMP B+1\nEND" = .ok (Memory.ofList [622593]) ∧
    (Assembly.run "NAM P\nB: RES 0\nA: JMP B+1\nEND").1.toList =
      [openedRecord 1 "P", definedRecord 0 "B", definedRecord 0 "A",
        Reference.deferredRecord ⟨⟨["B"], 1⟩, 0, 3⟩,
        Reference.patchedRecord (fun _ => 1) ⟨⟨["B"], 1⟩, 0, 3⟩,
        Assembly.symbolRecord ("A", 0), Assembly.symbolRecord ("B", 0), assembledRecord 1 2] ∧
    assemble "NAM P\nJMP M\nEND" = .error (.undefinedLabel "M") ∧
    ∀ record ∈ (Assembly.run "NAM P\nJMP M\nEND").1.toList, record.message ≠ "assembled" := by
  have hassemble : assemble "NAM P\nB: RES 0\nA: JMP B+1\nEND" = .ok (Memory.ofList [622593]) :=
    assemble_of_toOption (by decide +kernel)
  have hrejected : assemble "NAM P\nJMP M\nEND" = .error (.undefinedLabel "M") := by
    decide +kernel
  obtain ⟨haccepted, -⟩ := records_account "NAM P\nB: RES 0\nA: JMP B+1\nEND"
  obtain ⟨-, hnot⟩ := records_account "NAM P\nJMP M\nEND"
  obtain ⟨-, -, -, -, htold⟩ := haccepted _ hassemble
  have hlabels : labels (stations "NAM P\nB: RES 0\nA: JMP B+1\nEND") = [("B", 0), ("A", 0)] := by
    decide +kernel
  have hsorted : [("B", 0), ("A", 0)].mergeSort SymbolTable.listedBefore =
      [("A", 0), ("B", 0)] :=
    List.Perm.eq_of_pairwise (fun _ _ _ _ => SymbolTable.listedBefore_antisymm)
      (SymbolTable.pairwise_listedBefore _) (by decide)
      ((List.mergeSort_perm _ _).trans (by decide))
  refine ⟨hassemble, ?_, hrejected, fun record hmem => (hnot _ hrejected record hmem).1⟩
  rw [htold, hlabels, hsorted]
  decide +kernel

end TrnComputer
