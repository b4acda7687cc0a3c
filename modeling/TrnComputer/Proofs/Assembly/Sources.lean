import TrnComputer.Proofs.Assembly.Drafts

/-! # Drafts of whole sources

* `CarriedOut`, `carriedOut_statement`: what a statement does to a draft.
* `drafted_source`: the draft of a source holds what the walk over its statements puts into cells.
-/

namespace TrnComputer
set_option autoImplicit false

section
variable {named : List (String × Nat)} {emitted : List (Nat × Content)} {reserved : List Nat}
  {d d' : Draft} {s : Statement} {line : Nat}

/-! ## Directives that move the cursor -/

theorem drafted_congr (h : Drafted named emitted reserved d) (hmemory : d'.memory = d.memory)
    (hreferences : d'.references = d.references) (hsymbols : d'.symbols = d.symbols) :
    Drafted named emitted reserved d' where
  size := by rw [hmemory, h.size]
  cell := by
    rw [hmemory]
    exact h.cell
  references := by rw [hreferences, h.references]
  symbols := by
    rw [hsymbols]
    exact h.symbols

theorem drafted_reserve (h : Drafted named emitted reserved d) {count : Int}
    (hleads : d.Leads [(line, .reserve count)] d') :
    0 ≤ count ∧ Drafted named emitted (reserved ++ [d.cursor + count.toNat]) d' ∧
      d'.cursor = d.cursor + count.toNat := by
  obtain ⟨next, record, hperform, hnext⟩ := Draft.leads_cons.mp hleads
  obtain rfl := Draft.leads_nil.mp hnext
  rw [Draft.perform] at hperform
  split at hperform
  · next hfits =>
    cases hperform
    refine ⟨hfits.1, ?_, rfl⟩
    refine ⟨?_, fun address hlt => ?_, h.references, h.symbols⟩
    · rw [extent_reserve, Memory.size_grow, h.size]
    · rw [extent_reserve] at hlt
      exact get?_grow_of_drafted h _ address hlt
  · cases hperform

theorem drafted_origin (h : Drafted named emitted reserved d) {address : Int}
    (hleads : d.Leads [(line, .origin address)] d') :
    0 ≤ address ∧ Drafted named emitted reserved d' ∧ d'.cursor = address.toNat := by
  obtain ⟨next, record, hperform, hnext⟩ := Draft.leads_cons.mp hleads
  obtain rfl := Draft.leads_nil.mp hnext
  rw [Draft.perform] at hperform
  split at hperform
  · next hfits =>
    cases hperform
    exact ⟨hfits.1, drafted_congr h rfl rfl rfl, rfl⟩
  · cases hperform

/-! ## Programs and labels -/

theorem drafted_program (h : Drafted named emitted reserved d) {placement : Placement}
    (hprogram : placement = .closeProgram ∨ (∃ name, placement = .openProgram name) ∨
      ∃ mnemonic, placement = .within mnemonic)
    (hleads : d.Leads [(line, placement)] d') :
    Drafted named emitted reserved d' ∧ d'.cursor = d.cursor := by
  obtain ⟨next, record, hperform, hnext⟩ := Draft.leads_cons.mp hleads
  obtain rfl := Draft.leads_nil.mp hnext
  obtain rfl | ⟨name, rfl⟩ | ⟨mnemonic, rfl⟩ := hprogram
  · cases hperform
    exact ⟨drafted_congr h rfl rfl rfl, rfl⟩
  · rw [Draft.perform] at hperform
    split at hperform
    · cases hperform
    · split at hperform
      · cases hperform
      · cases hperform
        exact ⟨drafted_congr h rfl rfl rfl, rfl⟩
  · rw [Draft.perform] at hperform
    split at hperform
    · cases hperform
    · cases hperform
      exact ⟨h, rfl⟩

theorem SymbolTable.get?_of_define {t t' : SymbolTable} {label : String} {address : Nat}
    (h : t.define label address = .ok t') :
    t.get? label = none ∧
      ∀ other, t'.get? other = if label = other then some address else t.get? other := by
  rw [define] at h
  split at h
  · cases h
  · next hnew =>
    cases h
    refine ⟨hnew, fun other => ?_⟩
    simp only [get?, Std.TreeMap.getElem?_insert, Std.LawfulEqCmp.compare_eq_iff_eq]

theorem drafted_label (h : Drafted named emitted reserved d) {name : String}
    (hleads : d.Leads [(line, .label name)] d') :
    Drafted (named ++ [(name, d.cursor)]) emitted reserved d' ∧ d'.cursor = d.cursor := by
  obtain ⟨next, record, hperform, hnext⟩ := Draft.leads_cons.mp hleads
  obtain rfl := Draft.leads_nil.mp hnext
  rw [Draft.perform] at hperform
  split at hperform
  · cases hperform
  · next symbols hdefine =>
    cases hperform
    obtain ⟨hnew, hget⟩ := SymbolTable.get?_of_define hdefine
    refine ⟨⟨h.size, h.cell, h.references, fun label address => ?_⟩, rfl⟩
    rw [hget label, List.mem_append, List.mem_singleton, Prod.mk.injEq]
    by_cases hsame : name = label
    · subst hsame
      rw [if_pos rfl, ← h.symbols, hnew]
      simp [eq_comm]
    · rw [if_neg hsame, h.symbols]
      simp [Ne.symm hsame]

/-! ## Statements -/

theorem directives_of_find? {name : String} {m : Mnemonic} (h : Mnemonic.find? name = some m) :
    name ≠ "CON" ∧ name ≠ "RES" ∧ name ≠ "ORG" := by
  refine ⟨?_, ?_, ?_⟩ <;> rintro rfl <;> cases h

theorem instructionPlacements_of_leads {m : Mnemonic} {arguments : Arguments}
    (hleads : d.Leads ((s.instructionPlacements m arguments).map (line, ·)) d') :
    (arguments.values.length = if m.opcode.takesOperand then 1 else 0) ∧
      s.instructionPlacements m arguments = (Content.instruction m arguments.indirect s.indexed
        arguments.values.head?).placements := by
  obtain ⟨indirect, values⟩ := arguments
  rw [Statement.instructionPlacements] at hleads ⊢
  by_cases hoperand : m.opcode.takesOperand
  · rw [if_pos hoperand] at hleads ⊢
    rw [if_pos hoperand]
    match values with
    | [] => exact absurd hleads Draft.not_leads_reject
    | [.sum sum] => exact ⟨rfl, rfl⟩
    | [.literal value] =>
      by_cases hfits : leastOperand ≤ value ∧ value ≤ greatestOperand
      · simp only [if_pos hfits]
        exact ⟨rfl, rfl⟩
      · simp only [if_neg hfits] at hleads
        exact absurd hleads Draft.not_leads_reject
    | .literal _ :: second :: rest => exact absurd hleads Draft.not_leads_reject
    | .sum _ :: second :: rest => exact absurd hleads Draft.not_leads_reject
  · rw [if_neg hoperand] at hleads ⊢
    rw [if_neg hoperand]
    match values with
    | [] => exact ⟨rfl, rfl⟩
    | first :: rest => exact absurd hleads Draft.not_leads_reject

theorem constantPlacements_eq :
    Statement.constantPlacements = fun value => (Content.constant value).placements := by
  funext value
  cases value <;> rfl

theorem literal_of_leads {place : Int → Placement}
    (hleads : d.Leads [(line, s.literalPlacement place)] d') :
    ∃ value, s.literal? = some value ∧ d.Leads [(line, place value)] d' := by
  unfold Statement.literalPlacement at hleads
  unfold Statement.literal?
  split at hleads
  · exact absurd hleads Draft.not_leads_reject
  · next indirect value hread =>
    rw [hread]
    exact ⟨value, rfl, hleads⟩
  · exact absurd hleads Draft.not_leads_reject
  · exact absurd hleads Draft.not_leads_reject

/-- The draft after the body of a statement, from a draft that is `Drafted`. -/
structure CarriedOut (named : List (String × Nat)) (emitted : List (Nat × Content))
    (reserved : List Nat) (s : Statement) (d d' : Draft) : Prop where
  drafted : Drafted named (emitted ++ placed d.cursor s.contents)
    (reserved ++ if s.mnemonic = "RES" then [s.nextAddress d.cursor] else []) d'
  cursor : d'.cursor = s.nextAddress d.cursor
  meaningful : s.Meaningful

theorem contents_of_find? {m : Mnemonic} {arguments : Arguments}
    (hm : Mnemonic.find? s.mnemonic = some m)
    (hread : Arguments.read s.arguments.toList = .ok arguments) :
    s.contents = [.instruction m arguments.indirect s.indexed arguments.values.head?] := by
  unfold Statement.contents
  rw [hread, hm]

theorem carriedOut_instruction (h : Drafted named emitted reserved d) {m : Mnemonic}
    {arguments : Arguments} (hm : Mnemonic.find? s.mnemonic = some m)
    (hread : Arguments.read s.arguments.toList = .ok arguments)
    (hleads : d.Leads ((s.instructionPlacements m arguments).map (line, ·)) d') :
    CarriedOut named emitted reserved s d d' := by
  obtain ⟨-, hreserve, horigin⟩ := directives_of_find? hm
  have hcontents := contents_of_find? hm hread
  have hnext : s.nextAddress d.cursor = d.cursor + 1 := by
    unfold Statement.nextAddress
    rw [if_neg hreserve, if_neg horigin, hcontents]
    rfl
  obtain ⟨hlength, hplacements⟩ := instructionPlacements_of_leads hleads
  rw [hplacements] at hleads
  obtain ⟨hdrafted, hcursor⟩ := drafted_placements h _ hleads
  refine ⟨?_, hcursor.trans hnext.symm, ?_⟩
  · rw [if_neg hreserve, List.append_nil, hcontents]
    exact hdrafted
  · unfold Statement.Meaningful
    rw [hm]
    exact ⟨arguments, hread, hlength⟩

theorem contents_of_directive (hnone : Mnemonic.find? s.mnemonic = none)
    (hconstants : s.mnemonic ≠ "CON") : s.contents = [] := by
  unfold Statement.contents
  split
  · rfl
  · rw [hnone]
    exact if_neg hconstants

theorem carriedOut_still (hnone : Mnemonic.find? s.mnemonic = none)
    (hdirective : (Directive.ofMnemonic? s.mnemonic).isSome) (hconstants : s.mnemonic ≠ "CON")
    (hreserve : s.mnemonic ≠ "RES") (horigin : s.mnemonic ≠ "ORG")
    (h : Drafted named emitted reserved d' ∧ d'.cursor = d.cursor) :
    CarriedOut named emitted reserved s d d' := by
  have hcontents : s.contents = [] := contents_of_directive hnone hconstants
  refine ⟨?_, ?_, ?_⟩
  · rw [if_neg hreserve, hcontents, placed, List.append_nil, List.append_nil]
    exact h.1
  · unfold Statement.nextAddress
    rw [if_neg hreserve, if_neg horigin, hcontents]
    exact h.2
  · unfold Statement.Meaningful
    rw [hnone]
    exact ⟨hdirective, fun heq => absurd heq hconstants,
      fun heq => absurd heq (not_or.mpr ⟨hreserve, horigin⟩)⟩

theorem constants_of_leads (hname : s.mnemonic = "CON")
    (hleads : d.Leads ((s.directivePlacements .constants).map (line, ·)) d') :
    s.directivePlacements .constants = s.contents.flatMap Content.placements ∧
      s.contents ≠ [] := by
  have hnone : Mnemonic.find? s.mnemonic = none := by rw [hname]; rfl
  simp only [Statement.directivePlacements] at hleads ⊢
  split at hleads
  · exact absurd hleads Draft.not_leads_reject
  · exact absurd hleads Draft.not_leads_reject
  · next indirect values hfilled hread =>
    have hcontents : s.contents = values.map .constant := by
      unfold Statement.contents
      rw [hread, hnone]
      exact if_pos hname
    rw [hcontents, List.flatMap_map, constantPlacements_eq]
    exact ⟨rfl, fun hempty => hfilled (List.map_eq_nil_iff.mp hempty)⟩

theorem carriedOut_constants (h : Drafted named emitted reserved d) (hname : s.mnemonic = "CON")
    (hleads : d.Leads ((s.directivePlacements .constants).map (line, ·)) d') :
    CarriedOut named emitted reserved s d d' := by
  have hnone : Mnemonic.find? s.mnemonic = none := by rw [hname]; rfl
  obtain ⟨hplacements, hfilled⟩ := constants_of_leads hname hleads
  rw [hplacements] at hleads
  obtain ⟨hdrafted, hcursor⟩ := drafted_contents s.contents h hleads
  refine ⟨?_, ?_, ?_⟩
  · rw [if_neg (by simp [hname]), List.append_nil]
    exact hdrafted
  · unfold Statement.nextAddress
    rw [if_neg (by simp [hname]), if_neg (by simp [hname])]
    exact hcursor
  · unfold Statement.Meaningful
    rw [hnone]
    refine ⟨by simp [hname, Directive.ofMnemonic?], fun _ => hfilled, fun heq => ?_⟩
    rw [hname] at heq
    exact absurd heq (by decide)

theorem carriedOut_reserve (h : Drafted named emitted reserved d) (hname : s.mnemonic = "RES")
    (hleads : d.Leads [(line, s.literalPlacement .reserve)] d') :
    CarriedOut named emitted reserved s d d' := by
  have hnone : Mnemonic.find? s.mnemonic = none := by rw [hname]; rfl
  obtain ⟨count, hliteral, hplaced⟩ := literal_of_leads hleads
  obtain ⟨hsign, hdrafted, hcursor⟩ := drafted_reserve h hplaced
  have hcontents : s.contents = [] := contents_of_directive hnone (by simp [hname])
  have hnext : s.nextAddress d.cursor = d.cursor + count.toNat := by
    unfold Statement.nextAddress
    rw [if_pos hname, hliteral]
    rfl
  refine ⟨?_, hcursor.trans hnext.symm, ?_⟩
  · rw [if_pos hname, hcontents, hnext, placed, List.append_nil]
    exact hdrafted
  · unfold Statement.Meaningful
    rw [hnone]
    refine ⟨by simp [hname, Directive.ofMnemonic?], fun heq => ?_, fun _ => ⟨count.toNat, ?_⟩⟩
    · rw [hname] at heq
      exact absurd heq (by decide)
    · rw [hliteral, Int.toNat_of_nonneg hsign]

theorem carriedOut_origin (h : Drafted named emitted reserved d) (hname : s.mnemonic = "ORG")
    (hleads : d.Leads [(line, s.literalPlacement .origin)] d') :
    CarriedOut named emitted reserved s d d' := by
  have hnone : Mnemonic.find? s.mnemonic = none := by rw [hname]; rfl
  obtain ⟨address, hliteral, hplaced⟩ := literal_of_leads hleads
  obtain ⟨hsign, hdrafted, hcursor⟩ := drafted_origin h hplaced
  have hcontents : s.contents = [] := contents_of_directive hnone (by simp [hname])
  refine ⟨?_, ?_, ?_⟩
  · rw [if_neg (by simp [hname]), hcontents, placed, List.append_nil, List.append_nil]
    exact hdrafted
  · unfold Statement.nextAddress
    rw [if_neg (by simp [hname]), if_pos hname, hliteral]
    exact hcursor
  · unfold Statement.Meaningful
    rw [hnone]
    refine ⟨by simp [hname, Directive.ofMnemonic?], fun heq => ?_, fun _ => ⟨address.toNat, ?_⟩⟩
    · rw [hname] at heq
      exact absurd heq (by decide)
    · rw [hliteral, Int.toNat_of_nonneg hsign]

theorem carriedOut_directive (h : Drafted named emitted reserved d) {directive : Directive}
    (hnone : Mnemonic.find? s.mnemonic = none)
    (hdirective : Directive.ofMnemonic? s.mnemonic = some directive)
    (hleads : d.Leads ((s.directivePlacements directive).map (line, ·)) d') :
    CarriedOut named emitted reserved s d d' := by
  have hsome : (Directive.ofMnemonic? s.mnemonic).isSome := by rw [hdirective]; rfl
  have hstill (hplain : s.mnemonic ≠ "CON" ∧ s.mnemonic ≠ "RES" ∧ s.mnemonic ≠ "ORG")
      (hsame : Drafted named emitted reserved d' ∧ d'.cursor = d.cursor) :
      CarriedOut named emitted reserved s d d' :=
    carriedOut_still hnone hsome hplain.1 hplain.2.1 hplain.2.2 hsame
  unfold Directive.ofMnemonic? at hdirective
  split at hdirective
  · next hname =>
    cases hdirective
    exact hstill (by simp [hname]) (drafted_program h (.inr (.inl ⟨_, rfl⟩)) hleads)
  · next hname =>
    cases hdirective
    exact hstill (by simp [hname]) (drafted_program h (.inl rfl) hleads)
  · next hname =>
    cases hdirective
    exact carriedOut_constants h hname hleads
  · next hname =>
    cases hdirective
    exact carriedOut_reserve h hname hleads
  · next hname =>
    cases hdirective
    exact carriedOut_origin h hname hleads
  · next hname =>
    cases hdirective
    obtain rfl := Draft.leads_nil.mp hleads
    exact hstill (by simp [hname]) ⟨h, rfl⟩
  · next hname =>
    cases hdirective
    obtain rfl := Draft.leads_nil.mp hleads
    exact hstill (by simp [hname]) ⟨h, rfl⟩
  · cases hdirective

theorem carriedOut_body (h : Drafted named emitted reserved d)
    (hleads : d.Leads (s.bodyPlacements.map (line, ·)) d') :
    CarriedOut named emitted reserved s d d' := by
  unfold Statement.bodyPlacements at hleads
  split at hleads
  · next m hm =>
    split at hleads
    · exact absurd hleads Draft.not_leads_reject
    · next arguments hread => exact carriedOut_instruction h hm hread hleads
  · next hnone =>
    split at hleads
    · exact absurd hleads Draft.not_leads_reject
    · next directive hdirective =>
      dsimp only at hleads
      split at hleads
      · exact absurd hleads Draft.not_leads_reject
      · exact carriedOut_directive h hnone hdirective hleads

theorem carriedOut_statement (h : Drafted named emitted reserved d)
    (hleads : d.Leads (s.placements.map (line, ·)) d') :
    CarriedOut (named ++ s.label.toList.map (·, d.cursor)) emitted reserved s d d' := by
  unfold Statement.placements at hleads
  rw [List.map_append, List.map_append, Draft.leads_append] at hleads
  obtain ⟨labelled, hleads, hbody⟩ := hleads
  obtain ⟨opened, hopened, hlabelled⟩ := Draft.leads_append.mp hleads
  have hwithin : Drafted named emitted reserved opened ∧ opened.cursor = d.cursor := by
    split at hopened
    · obtain rfl := Draft.leads_nil.mp hopened
      exact ⟨h, rfl⟩
    · exact drafted_program h (.inr (.inr ⟨_, rfl⟩)) hopened
  have hlabel : Drafted (named ++ s.label.toList.map (·, d.cursor)) emitted reserved labelled ∧
      labelled.cursor = d.cursor := by
    rw [← hwithin.2]
    cases hname : s.label with
    | none =>
      rw [hname] at hlabelled
      obtain rfl := Draft.leads_nil.mp hlabelled
      rw [Option.toList_none, List.map_nil, List.append_nil]
      exact ⟨hwithin.1, rfl⟩
    | some name =>
      rw [hname] at hlabelled
      exact drafted_label hwithin.1 hlabelled
  have hdone := carriedOut_body hlabel.1 hbody
  refine ⟨?_, ?_, hdone.meaningful⟩
  · rw [← hlabel.2]
    exact hlabel.2 ▸ hdone.drafted
  · rw [← hlabel.2]
    exact hdone.cursor

/-! ## Sources -/

theorem labels_cons (s : Statement) (address : Nat) (walk : List (Statement × Nat)) :
    labels ((s, address) :: walk) = s.label.toList.map (·, address) ++ labels walk := by
  cases hlabel : s.label <;> simp [labels, hlabel]

theorem emissions_cons (s : Statement) (address : Nat) (walk : List (Statement × Nat)) :
    emissions ((s, address) :: walk) = placed address s.contents ++ emissions walk := rfl

theorem reserves_cons (s : Statement) (address : Nat) (walk : List (Statement × Nat)) :
    reserves ((s, address) :: walk) =
      (if s.mnemonic = "RES" then [s.nextAddress address] else []) ++ reserves walk := by
  by_cases hreserve : s.mnemonic = "RES" <;> simp [reserves, hreserve]

theorem drafted_lines (lines : List (List Char × Nat)) (h : Drafted named emitted reserved d)
    (hleads : d.Leads (lines.flatMap fun (text, number) =>
      (placementsOfLine text).map (number, ·)) d') :
    let said := lines.filterMap fun entry => statementOf? entry.1
    let walk := stationsFrom d.cursor said
    Drafted (named ++ labels walk) (emitted ++ emissions walk) (reserved ++ reserves walk) d' ∧
      (∀ s ∈ said, s.Meaningful) ∧ ∀ entry ∈ lines, ∃ s, Statement.read entry.1 = .ok s := by
  induction lines generalizing d named emitted reserved with
  | nil =>
    obtain rfl := Draft.leads_nil.mp hleads
    simpa [stationsFrom, labels, emissions, reserves] using h
  | cons entry rest ih =>
    obtain ⟨text, number⟩ := entry
    rw [List.flatMap_cons, Draft.leads_append] at hleads
    obtain ⟨next, hline, hrest⟩ := hleads
    simp only [placementsOfLine] at hline
    cases hread : Statement.read text with
    | error fault =>
      rw [hread] at hline
      exact absurd hline Draft.not_leads_reject
    | ok found =>
      rw [hread] at hline
      have hhead : ∃ s, Statement.read text = .ok s := ⟨found, hread⟩
      cases found with
      | none =>
        obtain rfl := Draft.leads_nil.mp hline
        obtain ⟨hdrafted, hmeaning, hreadable⟩ := ih h hrest
        rw [List.filterMap_cons_none (by rw [statementOf?, hread])]
        exact ⟨hdrafted, hmeaning, List.forall_mem_cons.mpr ⟨hhead, hreadable⟩⟩
      | some s =>
        have hdone := carriedOut_statement h hline
        obtain ⟨hdrafted, hmeaning, hreadable⟩ := ih hdone.drafted hrest
        rw [List.filterMap_cons_some (by rw [statementOf?, hread])]
        refine ⟨?_, List.forall_mem_cons.mpr ⟨hdone.meaningful, hmeaning⟩,
          List.forall_mem_cons.mpr ⟨hhead, hreadable⟩⟩
        rw [hdone.cursor] at hdrafted
        rw [stationsFrom, labels_cons, emissions_cons, reserves_cons, ← List.append_assoc,
          ← List.append_assoc, ← List.append_assoc]
        exact hdrafted

end

/-- The draft of a source holds what the walk over its statements puts into cells. -/
theorem drafted_source {source : String} {d : Draft}
    (hleads : Draft.initial.Leads (placementsOfSource source) d) :
    Drafted (labels (stations source)) (emissions (stations source)) (reserves (stations source))
        d ∧
      (∀ s ∈ statements source, s.Meaningful) ∧
      ∀ line ∈ Text.lines source.toList, ∃ s, Statement.read line = .ok s := by
  obtain ⟨hdrafted, hmeaning, hreadable⟩ :=
    drafted_lines ((Text.lines source.toList).zipIdx 1) drafted_initial hleads
  have hlines : ((Text.lines source.toList).zipIdx 1).map Prod.fst = Text.lines source.toList :=
    List.zipIdx_map_fst 1 _
  have hsaid : (((Text.lines source.toList).zipIdx 1).filterMap fun entry =>
      statementOf? entry.1) = statements source := by
    rw [statements, ← hlines, List.filterMap_map, hlines]
    rfl
  have hwalk : stationsFrom Draft.initial.cursor (statements source) = stations source := rfl
  rw [hsaid] at hdrafted hmeaning
  rw [hwalk, List.nil_append, List.nil_append, List.nil_append] at hdrafted
  refine ⟨hdrafted, hmeaning, fun line hline => ?_⟩
  rw [← hlines, List.mem_map] at hline
  obtain ⟨entry, hentry, rfl⟩ := hline
  exact hreadable entry hentry

end TrnComputer
