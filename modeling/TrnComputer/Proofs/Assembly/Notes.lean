import TrnComputer.Proofs.Assembly.Programs
import TrnComputer.Proofs.Assembly.Symbols

/-! # What the first pass leaves behind

The labels, the references and the records of the first pass follow the statements of a source.

* `Statement.report`: the records of a statement, which has a line and an address.
* `numberedStations`: the statements with the numbers of their lines and their addresses.
* `Draft.Notes`: the labels, references and records that placements leave behind.
* `notes_content`, `notes_statement`, `notes_lines`: those of contents, statements and lines.
* `notes_source`: those of a source.
-/

namespace TrnComputer
set_option autoImplicit false

/-! ## Records -/

def definedRecord (address : Nat) (label : String) : Record :=
  assemblyRecord .trace "label defined" [("label", label), ("address", Text.decimal address)]

def openedRecord (line : Nat) (name : String) : Record :=
  assemblyRecord .debug "program opened" [("name", name), ("line", Text.decimal line)]

def assembledRecord (cells labels : Nat) : Record :=
  assemblyRecord .debug "assembled"
    [("cells", Text.decimal cells), ("labels", Text.decimal labels)]

namespace Reference

def deferredRecord (r : Reference) : Record :=
  assemblyRecord .trace "reference deferred"
    [("labels", String.intercalate "+" r.sum.labels),
      ("partial", Text.signedDecimal r.sum.constant), ("address", Text.decimal r.address)]

/-- The record of a reference that is put in, with the value of its sum. -/
def patchedRecord (valueOf : LabelSum → Int) (r : Reference) : Record :=
  assemblyRecord .trace "reference patched"
    [("address", Text.decimal r.address), ("value", Text.signedDecimal (valueOf r.sum)),
      ("line", Text.decimal r.line)]

end Reference

/-! ## What a source says -/

/-- The references of contents, one for each sum. -/
def referencesOf (line address : Nat) (contents : List Content) : List Reference :=
  (sums (placed address contents)).map fun e => ⟨e.2, e.1, line⟩

/-- The records of a statement on a line and at an address: one for its label, one for a program
that it opens, and one for each of its sums. -/
def Statement.report (s : Statement) (line address : Nat) : List Record :=
  s.label.toList.map (definedRecord address) ++
    (if s.mnemonic = "NAM" then [openedRecord line s.arguments] else []) ++
    (referencesOf line address s.contents).map Reference.deferredRecord

/-- Statements with the addresses at which they start, as `stationsFrom`, and the numbers of their
lines. -/
def numberedStationsFrom (address : Nat) : List (Nat × Statement) → List (Nat × Statement × Nat)
  | [] => []
  | (line, s) :: rest => (line, s, address) :: numberedStationsFrom (s.nextAddress address) rest

theorem map_snd_numberedStationsFrom (said : List (Nat × Statement)) (address : Nat) :
    (numberedStationsFrom address said).map Prod.snd =
      stationsFrom address (said.map Prod.snd) := by
  induction said generalizing address with
  | nil => rfl
  | cons entry rest ih =>
    rw [numberedStationsFrom, List.map_cons, List.map_cons, stationsFrom, ih]

/-- What numbered lines say, with the numbers. -/
def numberedStatements (lines : List (List Char × Nat)) : List (Nat × Statement) :=
  lines.filterMap fun entry => (statementOf? entry.1).map (entry.2, ·)

def numberedStations (source : String) : List (Nat × Statement × Nat) :=
  numberedStationsFrom 0 (numberedStatements (numberedLines source))

/-- The sums of a source, in order, with their lines and the addresses of their cells. -/
def references (walk : List (Nat × Statement × Nat)) : List Reference :=
  walk.flatMap fun (line, s, address) => referencesOf line address s.contents

def reports (walk : List (Nat × Statement × Nat)) : List Record :=
  walk.flatMap fun (line, s, address) => s.report line address

theorem map_snd_numberedStatements (lines : List (List Char × Nat)) :
    (numberedStatements lines).map Prod.snd =
      lines.filterMap fun entry => statementOf? entry.1 := by
  rw [numberedStatements, List.map_filterMap]
  congr 1
  funext entry
  cases statementOf? entry.1 <;> rfl

theorem map_snd_numberedStations (source : String) :
    (numberedStations source).map Prod.snd = stations source := by
  have hlines : ((Text.lines source.toList).zipIdx 1).map Prod.fst = Text.lines source.toList :=
    List.zipIdx_map_fst 1 _
  rw [numberedStations, map_snd_numberedStationsFrom, map_snd_numberedStatements, numberedLines,
    stations, statements, ← hlines, List.filterMap_map, hlines]
  rfl

/-! ## What placements leave behind -/

namespace Draft

/-- The records that are made while placements are carried out. -/
def told (d : Draft) (placements : List (Nat × Placement)) : List Record :=
  (d.performAll #[] placements).1.toList

section
variable {d next d' : Draft} {line : Nat} {placement : Placement}
  {front back rest : List (Nat × Placement)}

/-- Records are added to those before. -/
theorem toList_performAll (d : Draft) (records : Array Record)
    (placements : List (Nat × Placement)) :
    (d.performAll records placements).1.toList = records.toList ++ d.told placements := by
  unfold told
  induction placements generalizing d records with
  | nil => simp [performAll]
  | cons first rest ih =>
    obtain ⟨line, placement⟩ := first
    simp only [performAll]
    cases d.perform line placement with
    | error fault => simp
    | ok done =>
      obtain ⟨next, record⟩ := done
      cases record with
      | none => exact ih next records
      | some record =>
        rw [ih next, ih next (#[].push record), Array.toList_push, Array.toList_push]
        simp

theorem told_cons {record : Option Record} (h : d.perform line placement = .ok (next, record)) :
    d.told ((line, placement) :: rest) = record.toList ++ next.told rest := by
  rw [told, performAll, h]
  cases record with
  | none => rfl
  | some record => exact toList_performAll next _ rest

theorem told_append (h : d.Leads front next) :
    d.told (front ++ back) = d.told front ++ next.told back := by
  induction front generalizing d with
  | nil =>
    obtain rfl := leads_nil.mp h
    rfl
  | cons first rest ih =>
    obtain ⟨line, placement⟩ := first
    obtain ⟨after, record, hperform, hrest⟩ := leads_cons.mp h
    rw [List.cons_append, told_cons hperform, told_cons hperform, ih hrest, List.append_assoc]

/-- The labels, the references and the records that are added on the way from a draft to another. -/
structure Notes (d : Draft) (placements : List (Nat × Placement)) (d' : Draft)
    (named : List (String × Nat)) (waiting : List Reference) (records : List Record) : Prop where
  symbols : ∀ before, SymbolTable.Enumerates before d.symbols →
    SymbolTable.Enumerates (before ++ named) d'.symbols
  references : d'.references.toList = d.references.toList ++ waiting
  records : d.told placements = records

section
variable {named more : List (String × Nat)} {waiting others : List Reference}
  {records further : List Record}

theorem notes_nil : d.Notes [] d [] [] [] where
  symbols before h := by rwa [List.append_nil]
  references := (List.append_nil _).symm
  records := rfl

theorem Notes.append (h : d.Notes front next named waiting records) (hleads : d.Leads front next)
    (h' : next.Notes back d' more others further) :
    d.Notes (front ++ back) d' (named ++ more) (waiting ++ others) (records ++ further) where
  symbols before hbefore := by
    rw [← List.append_assoc]
    exact h'.symbols _ (h.symbols before hbefore)
  references := by rw [h'.references, h.references, List.append_assoc]
  records := by rw [told_append hleads, h.records, h'.records]

end

end

end Draft

/-! ## Placements -/

/-- A placement that is not reported. -/
def Placement.Quiet : Placement → Prop
  | .label _ | .openProgram _ | .reference _ => False
  | _ => True

section
variable {d d' : Draft} {line : Nat} {s : Statement}

theorem told_single {placement : Placement} {record : Option Record}
    (h : d.perform line placement = .ok (d', record)) :
    d.told [(line, placement)] = record.toList := by
  rw [Draft.told_cons h]
  exact List.append_nil _

theorem perform_quiet {placement : Placement} (hquiet : placement.Quiet) {record : Option Record}
    (h : d.perform line placement = .ok (d', record)) :
    d'.symbols = d.symbols ∧ d'.references = d.references ∧ record = none := by
  cases placement with
  | label | openProgram | reference => exact hquiet.elim
  | within | word | reserve | origin =>
    rw [Draft.perform] at h
    split at h <;> cases h
    exact ⟨rfl, rfl, rfl⟩
  | closeProgram =>
    cases h
    exact ⟨rfl, rfl, rfl⟩
  | reject fault => cases h

theorem notes_quiet {placements : List Placement} (hquiet : ∀ p ∈ placements, p.Quiet)
    (hleads : d.Leads (placements.map (line, ·)) d') :
    d.Notes (placements.map (line, ·)) d' [] [] [] := by
  induction placements generalizing d with
  | nil =>
    obtain rfl := Draft.leads_nil.mp hleads
    exact Draft.notes_nil
  | cons placement rest ih =>
    obtain ⟨hfirst, hrest⟩ := List.forall_mem_cons.mp hquiet
    obtain ⟨next, record, hperform, hnext⟩ := Draft.leads_cons.mp hleads
    obtain ⟨hsymbols, hreferences, rfl⟩ := perform_quiet hfirst hperform
    obtain ⟨hlater, hothers, htold⟩ := ih hrest hnext
    refine ⟨?_, ?_, ?_⟩
    · rwa [hsymbols] at hlater
    · rwa [hreferences] at hothers
    · rw [List.map_cons, Draft.told_cons hperform, htold]
      rfl

theorem notes_label {name : String} (hleads : d.Leads [(line, .label name)] d') :
    d.Notes [(line, .label name)] d' [(name, d.cursor)] [] [definedRecord d.cursor name] ∧
      d'.cursor = d.cursor := by
  obtain ⟨next, record, hperform, hnext⟩ := Draft.leads_cons.mp hleads
  obtain rfl := Draft.leads_nil.mp hnext
  have htold := told_single hperform
  rw [Draft.perform] at hperform
  split at hperform
  · cases hperform
  · next symbols hdefine =>
    cases hperform
    refine ⟨⟨fun before hbefore => hbefore.snoc hdefine, (List.append_nil _).symm, htold⟩, rfl⟩

theorem notes_openProgram {name : String} (hleads : d.Leads [(line, .openProgram name)] d') :
    d.Notes [(line, .openProgram name)] d' [] [] [openedRecord line name] := by
  obtain ⟨next, record, hperform, hnext⟩ := Draft.leads_cons.mp hleads
  obtain rfl := Draft.leads_nil.mp hnext
  have htold := told_single hperform
  rw [Draft.perform] at hperform
  split at hperform
  · cases hperform
  · split at hperform
    · cases hperform
    · cases hperform
      exact ⟨fun before hbefore => by rwa [List.append_nil], (List.append_nil _).symm, htold⟩

theorem notes_reference {sum : LabelSum} (hleads : d.Leads [(line, .reference sum)] d') :
    d.Notes [(line, .reference sum)] d' [] [⟨sum, d.cursor, line⟩]
        [Reference.deferredRecord ⟨sum, d.cursor, line⟩] ∧ d'.cursor = d.cursor := by
  obtain rfl := Draft.leads_nil.mp (Draft.leads_reference.mp hleads)
  exact ⟨⟨fun before hbefore => by rwa [List.append_nil], Array.toList_push, rfl⟩, rfl⟩

/-! ## Contents -/

theorem referencesOf_cons (line address : Nat) (content : Content) (rest : List Content) :
    referencesOf line address (content :: rest) =
      content.sum?.toList.map (⟨·, address, line⟩) ++ referencesOf line (address + 1) rest := by
  rw [referencesOf, placed, sums, List.filterMap_cons]
  cases content.sum? <;> rfl

theorem notes_content {content : Content}
    (hleads : d.Leads (content.placements.map (line, ·)) d') :
    d.Notes (content.placements.map (line, ·)) d' [] (referencesOf line d.cursor [content])
        ((referencesOf line d.cursor [content]).map Reference.deferredRecord) ∧
      d'.cursor = d.cursor + 1 := by
  rw [referencesOf_cons]
  rw [Content.placements, List.map_append, Draft.leads_append] at hleads
  obtain ⟨next, hwaiting, hword⟩ := hleads
  have hquiet : ∀ p ∈ [Placement.word content.base], p.Quiet :=
    List.forall_mem_singleton.mpr trivial
  have hnotes := notes_quiet hquiet hword
  have hcursor : d'.cursor = next.cursor + 1 := by
    obtain ⟨-, rfl⟩ := Draft.leads_word.mp hword
    rfl
  rw [hcursor, Content.placements, List.map_append]
  cases hsum : content.sum? with
  | none =>
    rw [hsum] at hwaiting
    obtain rfl := Draft.leads_nil.mp hwaiting
    exact ⟨hnotes, rfl⟩
  | some sum =>
    rw [hsum] at hwaiting
    obtain ⟨hfirst, hsame⟩ := notes_reference hwaiting
    exact ⟨hfirst.append hwaiting hnotes, by rw [hsame]⟩

theorem notes_contents (contents : List Content)
    (hleads : d.Leads ((contents.flatMap Content.placements).map (line, ·)) d') :
    d.Notes ((contents.flatMap Content.placements).map (line, ·)) d' []
      (referencesOf line d.cursor contents)
      ((referencesOf line d.cursor contents).map Reference.deferredRecord) := by
  induction contents generalizing d with
  | nil =>
    obtain rfl := Draft.leads_nil.mp hleads
    exact Draft.notes_nil
  | cons content rest ih =>
    rw [List.flatMap_cons, List.map_append, Draft.leads_append] at hleads
    obtain ⟨next, hfirst, hrest⟩ := hleads
    obtain ⟨hnotes, hcursor⟩ := notes_content hfirst
    have hothers := ih hrest
    rw [hcursor] at hothers
    rw [List.flatMap_cons, List.map_append, referencesOf_cons, List.map_append]
    have hall := hnotes.append hfirst hothers
    rw [referencesOf_cons, List.map_append] at hall
    simpa [referencesOf, placed, sums] using hall

/-! ## Statements -/

theorem quiet_literal {place : Int → Placement} (h : ∀ value, (place value).Quiet) :
    (s.literalPlacement place).Quiet := by
  unfold Statement.literalPlacement
  split
  · trivial
  · exact h _
  · trivial
  · trivial

theorem directive_of_leads {directive : Directive} (hnam : s.mnemonic ≠ "NAM")
    (hnone : Mnemonic.find? s.mnemonic = none)
    (hdirective : Directive.ofMnemonic? s.mnemonic = some directive)
    (hleads : d.Leads ((s.directivePlacements directive).map (line, ·)) d') :
    s.directivePlacements directive = s.contents.flatMap Content.placements ∨
      s.contents = [] ∧ ∀ p ∈ s.directivePlacements directive, p.Quiet := by
  have hstill (hne : directive ≠ .constants) : s.contents = [] :=
    contents_of_directive hnone fun hname => by
      rw [hname] at hdirective
      cases hdirective
      exact hne rfl
  cases directive with
  | programName =>
    refine absurd ?_ hnam
    unfold Directive.ofMnemonic? at hdirective
    split at hdirective <;> first | assumption | cases hdirective
  | constants =>
    refine .inl (constants_of_leads ?_ hleads).1
    unfold Directive.ofMnemonic? at hdirective
    split at hdirective <;> first | assumption | cases hdirective
  | programEnd =>
    have hquiet : Placement.closeProgram.Quiet := trivial
    exact .inr ⟨hstill (by decide), List.forall_mem_singleton.mpr hquiet⟩
  | reserve =>
    exact .inr ⟨hstill (by decide), List.forall_mem_singleton.mpr (quiet_literal fun _ => trivial)⟩
  | origin =>
    exact .inr ⟨hstill (by decide), List.forall_mem_singleton.mpr (quiet_literal fun _ => trivial)⟩
  | ignored => exact .inr ⟨hstill (by decide), List.forall_mem_nil _⟩

/-- A statement that does not open a program puts its contents into cells, or has none and is not
reported. -/
theorem body_of_leads (hnam : s.mnemonic ≠ "NAM")
    (hleads : d.Leads (s.bodyPlacements.map (line, ·)) d') :
    s.bodyPlacements = s.contents.flatMap Content.placements ∨
      s.contents = [] ∧ ∀ p ∈ s.bodyPlacements, p.Quiet := by
  unfold Statement.bodyPlacements at hleads ⊢
  split at hleads
  · next m hm =>
    split at hleads
    · exact absurd hleads Draft.not_leads_reject
    · next arguments hread =>
      rw [contents_of_find? hm hread]
      exact .inl ((instructionPlacements_of_leads hleads).2.trans (List.append_nil _).symm)
  · next hnone =>
    split at hleads
    · exact absurd hleads Draft.not_leads_reject
    · next directive hdirective =>
      dsimp only at hleads
      split at hleads
      · exact absurd hleads Draft.not_leads_reject
      · next hmodifiers =>
        simp only [if_neg hmodifiers]
        exact directive_of_leads hnam hnone hdirective hleads

theorem notes_body (hleads : d.Leads (s.bodyPlacements.map (line, ·)) d') :
    d.Notes (s.bodyPlacements.map (line, ·)) d' [] (referencesOf line d.cursor s.contents)
      ((if s.mnemonic = "NAM" then [openedRecord line s.arguments] else []) ++
        (referencesOf line d.cursor s.contents).map Reference.deferredRecord) := by
  by_cases hnam : s.mnemonic = "NAM"
  · have hcontents : s.contents = [] :=
      contents_of_directive (by rw [hnam]; rfl) (by rw [hnam]; decide)
    rw [if_pos hnam, hcontents]
    obtain hbody | ⟨fault, hbody⟩ := body_of_nam hnam
    · rw [hbody] at hleads ⊢
      exact notes_openProgram hleads
    · rw [hbody] at hleads
      exact absurd hleads Draft.not_leads_reject
  · rw [if_neg hnam, List.nil_append]
    obtain hbody | ⟨hcontents, hquiet⟩ := body_of_leads hnam hleads
    · rw [hbody] at hleads ⊢
      exact notes_contents s.contents hleads
    · rw [hcontents]
      exact notes_quiet hquiet hleads

theorem notes_labels (hleads : d.Leads (s.labelPlacements.map (line, ·)) d') :
    d.Notes (s.labelPlacements.map (line, ·)) d' (s.label.toList.map (·, d.cursor)) []
        (s.label.toList.map (definedRecord d.cursor)) ∧ d'.cursor = d.cursor := by
  unfold Statement.labelPlacements at hleads ⊢
  cases hname : s.label with
  | none =>
    rw [hname] at hleads
    obtain rfl := Draft.leads_nil.mp hleads
    exact ⟨Draft.notes_nil, rfl⟩
  | some name =>
    rw [hname] at hleads
    exact notes_label hleads

theorem notes_labelled
    (hleads : d.Leads ((s.labelPlacements ++ s.bodyPlacements).map (line, ·)) d') :
    d.Notes ((s.labelPlacements ++ s.bodyPlacements).map (line, ·)) d'
      (s.label.toList.map (·, d.cursor)) (referencesOf line d.cursor s.contents)
      (s.report line d.cursor) := by
  rw [List.map_append] at hleads ⊢
  obtain ⟨labelled, hlabels, hbody⟩ := Draft.leads_append.mp hleads
  obtain ⟨hnamed, hcursor⟩ := notes_labels hlabels
  have hall := hnamed.append hlabels (notes_body hbody)
  rwa [hcursor, List.append_nil, List.nil_append, ← List.append_assoc, ← Statement.report] at hall

theorem notes_statement (hleads : d.Leads (s.placements.map (line, ·)) d') :
    d.Notes (s.placements.map (line, ·)) d' (s.label.toList.map (·, d.cursor))
      (referencesOf line d.cursor s.contents) (s.report line d.cursor) := by
  by_cases hnam : s.mnemonic = "NAM"
  · rw [placements_of_nam hnam] at hleads ⊢
    exact notes_labelled hleads
  · rw [placements_of_ne hnam, List.map_cons] at hleads ⊢
    obtain ⟨hopen, hrest⟩ := leads_within.mp hleads
    have hwithin : d.Leads ([Placement.within s.mnemonic].map (line, ·)) d :=
      leads_within.mpr ⟨hopen, Draft.leads_nil.mpr rfl⟩
    have hquiet : ∀ p ∈ [Placement.within s.mnemonic], p.Quiet :=
      List.forall_mem_singleton.mpr trivial
    exact (notes_quiet hquiet hwithin).append hwithin (notes_labelled hrest)

/-! ## Lines -/

theorem numberedStatements_cons_none {text : List Char} (h : statementOf? text = none)
    (number : Nat) (rest : List (List Char × Nat)) :
    numberedStatements ((text, number) :: rest) = numberedStatements rest := by
  rw [numberedStatements, List.filterMap_cons_none (by rw [h, Option.map_none]), numberedStatements]

theorem numberedStatements_cons_some {text : List Char} (h : statementOf? text = some s)
    (number : Nat) (rest : List (List Char × Nat)) :
    numberedStatements ((text, number) :: rest) = (number, s) :: numberedStatements rest := by
  rw [numberedStatements, List.filterMap_cons_some (by rw [h, Option.map_some]), numberedStatements]

theorem notes_lines {named : List (String × Nat)} {emitted : List (Nat × Content)}
    {reserved : List Nat} (lines : List (List Char × Nat)) (h : Drafted named emitted reserved d)
    (hleads : d.Leads (lines.flatMap placementsAt) d') :
    let walk := numberedStationsFrom d.cursor (numberedStatements lines)
    d.Notes (lines.flatMap placementsAt) d' (labels (walk.map Prod.snd)) (references walk)
      (reports walk) := by
  induction lines generalizing d named emitted reserved with
  | nil =>
    obtain rfl := Draft.leads_nil.mp hleads
    exact Draft.notes_nil
  | cons entry rest ih =>
    obtain ⟨text, number⟩ := entry
    rw [List.flatMap_cons] at hleads ⊢
    obtain ⟨next, hline, hrest⟩ := Draft.leads_append.mp hleads
    obtain ⟨fault, hreject⟩ | ⟨hnone, hnothing⟩ | ⟨s, hsome, hplacements⟩ := line_cases text number
    · rw [hreject] at hline
      exact absurd hline Draft.not_leads_reject
    · rw [hnothing] at hline ⊢
      obtain rfl := Draft.leads_nil.mp hline
      rw [numberedStatements_cons_none hnone]
      exact ih h hrest
    · rw [hplacements] at hline ⊢
      have hdone := carriedOut_statement h hline
      have hlater := ih hdone.drafted hrest
      rw [hdone.cursor] at hlater
      rw [numberedStatements_cons_some hsome, numberedStationsFrom]
      dsimp only
      rw [List.map_cons, labels_cons]
      exact (notes_statement hline).append hline hlater

theorem notes_source {source : String} (h : Draft.initial.Leads (placementsOfSource source) d) :
    Draft.initial.Notes (placementsOfSource source) d (labels (stations source))
      (references (numberedStations source)) (reports (numberedStations source)) := by
  rw [← map_snd_numberedStations]
  exact notes_lines (numberedLines source) drafted_initial h

end

end TrnComputer
