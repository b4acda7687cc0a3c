import TrnComputer.Proofs.Assembly.Rejection

/-! # The open program

Whether a statement may stand where it does depends on the open program alone, and all else that
can be wrong with it does not.

* `programAfter`: the open program after a statement that may stand where it does.
* `unbracketed`: placements without those that have to do with the open program.
* `program_of_leads`: lines that are carried out may stand where they do.
* `leads_of_unbracketed`: lines that may stand where they do are carried out if all else is right.
* `fails_of_unbracketed`: a statement that may not is at fault.
-/

namespace TrnComputer
set_option autoImplicit false

/-- The program that is open after a statement, when the statement may stand where it does. -/
def programAfter : Option String → Statement → Option (Option String)
  | none, s => if s.mnemonic = "NAM" then some (some s.arguments) else none
  | some name, s =>
    if s.mnemonic = "NAM" then none else if s.mnemonic = "END" then some none else some (some name)

/-- A placement that depends on the open program or changes it. An empty name is wrong anywhere. -/
def Placement.isBracket : Placement → Bool
  | within _ => true
  | openProgram name => !name.isEmpty
  | closeProgram => true
  | _ => false

/-- Placements without those that have to do with the open program. -/
def unbracketed (placements : List (Nat × Placement)) : List (Nat × Placement) :=
  placements.filter fun entry => !entry.2.isBracket

theorem unbracketed_append (front back : List (Nat × Placement)) :
    unbracketed (front ++ back) = unbracketed front ++ unbracketed back :=
  List.filter_append _ _

namespace Draft

/-- A draft in another program, or in none. -/
def inProgram (d : Draft) (program : Option String) : Draft := { d with program }

end Draft

/-- A placement that neither depends on the open program nor changes it. -/
def Placement.Neutral : Placement → Prop
  | within _ | openProgram _ | closeProgram => False
  | _ => True

section
variable {d d' : Draft} {line : Nat}

/-! ## Placements -/

theorem perform_neutral {placement : Placement} (hneutral : placement.Neutral)
    {record : Option Record} (h : d.perform line placement = .ok (d', record)) :
    d'.program = d.program ∧ ∀ program,
      (d.inProgram program).perform line placement = .ok (d'.inProgram program, record) := by
  cases placement with
  | within | openProgram | closeProgram => exact hneutral.elim
  | label name =>
    rw [Draft.perform] at h
    split at h
    · cases h
    · next symbols hdefine =>
      cases h
      refine ⟨rfl, fun program => ?_⟩
      simp only [Draft.perform, Draft.inProgram, hdefine]
  | reference sum =>
    cases h
    exact ⟨rfl, fun _ => rfl⟩
  | word | reserve | origin =>
    rw [Draft.perform] at h
    split at h
    · next hfits =>
      cases h
      exact ⟨rfl, fun _ => if_pos hfits⟩
    · cases h
  | reject fault => cases h

theorem leads_neutral {placements : List (Nat × Placement)}
    (hneutral : ∀ entry ∈ placements, entry.2.Neutral) (h : d.Leads placements d') :
    d'.program = d.program ∧
      ∀ program, (d.inProgram program).Leads placements (d'.inProgram program) := by
  induction placements generalizing d with
  | nil =>
    obtain rfl := Draft.leads_nil.mp h
    exact ⟨rfl, fun _ => Draft.leads_nil.mpr rfl⟩
  | cons entry rest ih =>
    obtain ⟨hfirst, hrest⟩ := List.forall_mem_cons.mp hneutral
    obtain ⟨next, record, hperform, hleads⟩ := Draft.leads_cons.mp h
    obtain ⟨hnext, hother⟩ := perform_neutral hfirst hperform
    obtain ⟨hlast, hothers⟩ := ih hrest hleads
    exact ⟨hlast.trans hnext, fun program =>
      Draft.leads_cons.mpr ⟨_, record, hother program, hothers program⟩⟩

/-! ## Statements -/

theorem find?_nam : Mnemonic.find? "NAM" = none := rfl

theorem find?_end : Mnemonic.find? "END" = none := rfl

section
variable {s : Statement}

theorem body_of_nam (h : s.mnemonic = "NAM") :
    s.bodyPlacements = [.openProgram s.arguments] ∨
      ∃ fault, s.bodyPlacements = [.reject fault] := by
  simp only [Statement.bodyPlacements, h, find?_nam, Directive.ofMnemonic?]
  split
  · exact .inr ⟨_, rfl⟩
  · exact .inl rfl

theorem body_of_end (h : s.mnemonic = "END") :
    s.bodyPlacements = [.closeProgram] ∨ ∃ fault, s.bodyPlacements = [.reject fault] := by
  simp only [Statement.bodyPlacements, h, find?_end, Directive.ofMnemonic?]
  split
  · exact .inr ⟨_, rfl⟩
  · exact .inl rfl

theorem neutral_body (hnam : s.mnemonic ≠ "NAM") (hend : s.mnemonic ≠ "END") :
    ∀ p ∈ s.bodyPlacements, p.Neutral := by
  intro p hp
  cases effect_body s p hp with
  | reject | reference | word | reserve | origin => trivial
  | openProgram h => exact absurd h hnam
  | closeProgram h => exact absurd h hend

/-- The label of a statement, and what is behind it. -/
def Statement.labelPlacements (s : Statement) : List Placement := s.label.toList.map .label

theorem neutral_labels (s : Statement) : ∀ p ∈ s.labelPlacements, p.Neutral := by
  intro p hp
  obtain ⟨name, -, rfl⟩ := List.mem_map.mp hp
  trivial

theorem placements_of_nam (h : s.mnemonic = "NAM") :
    s.placements = s.labelPlacements ++ s.bodyPlacements := by
  rw [Statement.placements, if_pos h, List.nil_append, Statement.labelPlacements]

theorem placements_of_ne (h : s.mnemonic ≠ "NAM") :
    s.placements = .within s.mnemonic :: (s.labelPlacements ++ s.bodyPlacements) := by
  rw [Statement.placements, if_neg h, List.append_assoc, List.singleton_append,
    Statement.labelPlacements]

end

theorem neutral_map {placements : List Placement} (h : ∀ p ∈ placements, p.Neutral) :
    ∀ entry ∈ placements.map (line, ·), entry.2.Neutral :=
  List.forall_mem_map.mpr h

theorem unbracketed_neutral {placements : List Placement} (h : ∀ p ∈ placements, p.Neutral) :
    unbracketed (placements.map (line, ·)) = placements.map (line, ·) := by
  refine List.filter_eq_self.mpr (List.forall_mem_map.mpr fun p hp => ?_)
  have hneutral := h p hp
  cases p with
  | within | openProgram | closeProgram => exact hneutral.elim
  | label | reference | word | reserve | origin | reject => rfl

theorem leads_within {mnemonic : String} {rest : List (Nat × Placement)} :
    d.Leads ((line, .within mnemonic) :: rest) d' ↔ d.program ≠ none ∧ d.Leads rest d' := by
  rw [Draft.leads_cons]
  cases hprogram : d.program <;> simp [Draft.perform, hprogram]

theorem leads_openProgram {name : String} :
    d.Leads [(line, .openProgram name)] d' ↔
      d.program = none ∧ name.isEmpty = false ∧ d' = d.inProgram (some name) := by
  simp only [Draft.leads_cons, Draft.leads_nil, Draft.perform]
  cases hprogram : d.program with
  | some outer => simp
  | none => cases hempty : name.isEmpty <;> simp [Draft.inProgram, eq_comm]

theorem leads_closeProgram :
    d.Leads [(line, .closeProgram)] d' ↔ d' = d.inProgram none := by
  simp [Draft.leads_cons, Draft.leads_nil, Draft.perform, Draft.inProgram, eq_comm]

/-- A statement that is carried out may stand where it does. -/
theorem programAfter_of_leads {s : Statement}
    (h : d.Leads (s.placements.map (line, ·)) d') : programAfter d.program s = some d'.program := by
  by_cases hnam : s.mnemonic = "NAM"
  · rw [placements_of_nam hnam, List.map_append, Draft.leads_append] at h
    obtain ⟨labelled, hlabels, hbody⟩ := h
    obtain ⟨hkept, -⟩ := leads_neutral (neutral_map (neutral_labels s)) hlabels
    obtain hopen | ⟨fault, hreject⟩ := body_of_nam hnam
    · rw [hopen] at hbody
      obtain ⟨hnone, -, rfl⟩ := leads_openProgram.mp hbody
      rw [← hkept, hnone]
      exact if_pos hnam
    · rw [hreject] at hbody
      exact absurd hbody Draft.not_leads_reject
  · rw [placements_of_ne hnam, List.map_cons, leads_within, List.map_append,
      Draft.leads_append] at h
    obtain ⟨hne, labelled, hlabels, hbody⟩ := h
    obtain ⟨hkept, -⟩ := leads_neutral (neutral_map (neutral_labels s)) hlabels
    obtain ⟨name, hname⟩ := Option.ne_none_iff_exists'.mp hne
    rw [hname, programAfter, if_neg hnam]
    by_cases hend : s.mnemonic = "END"
    · rw [if_pos hend]
      obtain hclose | ⟨fault, hreject⟩ := body_of_end hend
      · rw [hclose] at hbody
        obtain rfl := leads_closeProgram.mp hbody
        rfl
      · rw [hreject] at hbody
        exact absurd hbody Draft.not_leads_reject
    · rw [if_neg hend]
      obtain ⟨hlast, -⟩ := leads_neutral (neutral_map (neutral_body hnam hend)) hbody
      rw [hlast, hkept, hname]

/-- What is left of a statement is its label, and what is left of what is behind it. -/
theorem leads_unbracketed {s : Statement} :
    d.Leads (unbracketed (s.placements.map (line, ·))) d' ↔
      ∃ labelled, d.Leads (s.labelPlacements.map (line, ·)) labelled ∧
        labelled.Leads (unbracketed (s.bodyPlacements.map (line, ·))) d' := by
  have hsplit : unbracketed (s.placements.map (line, ·)) =
      s.labelPlacements.map (line, ·) ++ unbracketed (s.bodyPlacements.map (line, ·)) := by
    rw [← unbracketed_neutral (neutral_labels s), ← unbracketed_append, ← List.map_append]
    by_cases hnam : s.mnemonic = "NAM"
    · rw [placements_of_nam hnam]
    · rw [placements_of_ne hnam]
      rfl
  rw [hsplit, Draft.leads_append]

/-- A statement that may stand where it does is carried out if all else is right. -/
theorem leads_statement {s : Statement} {program after : Option String}
    (hafter : programAfter program s = some after)
    (h : d.Leads (unbracketed (s.placements.map (line, ·))) d') :
    (d.inProgram program).Leads (s.placements.map (line, ·)) (d'.inProgram after) := by
  obtain ⟨labelled, hlabels, hbody⟩ := leads_unbracketed.mp h
  have hlabelled := (leads_neutral (neutral_map (neutral_labels s)) hlabels).2 program
  by_cases hnam : s.mnemonic = "NAM"
  · rw [placements_of_nam hnam, List.map_append, Draft.leads_append]
    refine ⟨_, hlabelled, ?_⟩
    cases program with
    | some name =>
      rw [programAfter, if_pos hnam] at hafter
      cases hafter
    | none =>
      rw [programAfter, if_pos hnam] at hafter
      cases hafter
      obtain hopen | ⟨fault, hreject⟩ := body_of_nam hnam
      · rw [hopen] at hbody ⊢
        -- A program without a name is wrong outside a program too, so it has not been left out.
        cases hempty : s.arguments.isEmpty with
        | true =>
          have hkept : unbracketed [(line, .openProgram s.arguments)] =
              [(line, .openProgram s.arguments)] := by
            simp [unbracketed, Placement.isBracket, hempty]
          rw [List.map_singleton, hkept, leads_openProgram, hempty] at hbody
          cases hbody.2.1
        | false =>
          have hgone : unbracketed [(line, .openProgram s.arguments)] = [] := by
            simp [unbracketed, Placement.isBracket, hempty]
          rw [List.map_singleton, hgone] at hbody
          obtain rfl := Draft.leads_nil.mp hbody
          exact leads_openProgram.mpr ⟨rfl, hempty, rfl⟩
      · rw [hreject] at hbody
        exact absurd hbody Draft.not_leads_reject
  · rw [placements_of_ne hnam, List.map_cons, leads_within, List.map_append, Draft.leads_append]
    cases program with
    | none =>
      rw [programAfter, if_neg hnam] at hafter
      cases hafter
    | some name =>
      refine ⟨Option.some_ne_none name, _, hlabelled, ?_⟩
      rw [programAfter, if_neg hnam] at hafter
      by_cases hend : s.mnemonic = "END"
      · rw [if_pos hend] at hafter
        cases hafter
        obtain hclose | ⟨fault, hreject⟩ := body_of_end hend
        · rw [hclose] at hbody ⊢
          obtain rfl := Draft.leads_nil.mp hbody
          exact leads_closeProgram.mpr rfl
        · rw [hreject] at hbody
          exact absurd hbody Draft.not_leads_reject
      · rw [if_neg hend] at hafter
        cases hafter
        rw [unbracketed_neutral (neutral_body hnam hend)] at hbody
        exact (leads_neutral (neutral_map (neutral_body hnam hend)) hbody).2 _

/-- Outside a program a statement is at fault, whatever else is wrong with it. -/
theorem fails_outside {s : Statement} (h : s.mnemonic ≠ "NAM") :
    (d.inProgram none).Fails (s.placements.map (line, ·))
      (.line line (.outsideProgram s.mnemonic)) := by
  rw [placements_of_ne h, List.map_cons, Draft.fails_cons]
  exact .inl ⟨_, rfl, rfl⟩

/-- A program inside another one is at fault if all else is right. -/
theorem fails_nested {s : Statement} {name : String} (hnam : s.mnemonic = "NAM")
    (h : d.Leads (unbracketed (s.placements.map (line, ·))) d') :
    (d.inProgram (some name)).Fails (s.placements.map (line, ·))
      (.line line (.nestedProgram name)) := by
  obtain ⟨labelled, hlabels, hbody⟩ := leads_unbracketed.mp h
  have hlabelled := (leads_neutral (neutral_map (neutral_labels s)) hlabels).2 (some name)
  rw [placements_of_nam hnam, List.map_append, Draft.fails_append]
  refine .inr ⟨_, hlabelled, ?_⟩
  obtain hopen | ⟨fault, hreject⟩ := body_of_nam hnam
  -- The open program is looked at before the name.
  · rw [hopen, List.map_singleton, Draft.fails_cons]
    exact .inl ⟨_, rfl, rfl⟩
  · rw [hreject] at hbody
    exact absurd hbody Draft.not_leads_reject

/-! ## Lines -/

/-- The program that is open after several statements, when they may stand where they do. -/
def programsAfter (program : Option String) (said : List Statement) : Option (Option String) :=
  said.foldlM programAfter program

theorem programsAfter_cons (program : Option String) (s : Statement) (said : List Statement) :
    programsAfter program (s :: said) =
      (programAfter program s).bind fun after => programsAfter after said :=
  List.foldlM_cons

theorem programsAfter_append (program : Option String) (front back : List Statement) :
    programsAfter program (front ++ back) =
      (programsAfter program front).bind fun after => programsAfter after back :=
  List.foldlM_append

theorem statementOf?_eq_some_iff {text : List Char} {s : Statement} :
    statementOf? text = some s ↔ Statement.read text = .ok (some s) := by
  unfold statementOf?
  cases Statement.read text <;> simp

theorem placementsAt_of_read {text : List Char} {s : Statement}
    (h : Statement.read text = .ok (some s)) (number : Nat) :
    placementsAt (text, number) = s.placements.map (number, ·) := by
  rw [placementsAt, placementsOfLine, h]

/-- A line is not read, says nothing, or says a statement. -/
theorem line_cases (text : List Char) (number : Nat) :
    (∃ fault, placementsAt (text, number) = [(number, .reject fault)]) ∨
      (statementOf? text = none ∧ placementsAt (text, number) = []) ∨
      ∃ s, statementOf? text = some s ∧
        placementsAt (text, number) = s.placements.map (number, ·) := by
  cases hread : Statement.read text with
  | error fault =>
    refine .inl ⟨.unreadable fault, ?_⟩
    rw [placementsAt, placementsOfLine, hread]
    rfl
  | ok found =>
    cases found with
    | none =>
      refine .inr (.inl ⟨by rw [statementOf?, hread], ?_⟩)
      rw [placementsAt, placementsOfLine, hread]
      rfl
    | some s =>
      exact .inr (.inr ⟨s, statementOf?_eq_some_iff.mpr hread, placementsAt_of_read hread number⟩)

/-- Lines that are carried out may stand where they do. -/
theorem program_of_leads {texts : List (List Char)} {first : Nat}
    (h : d.Leads ((texts.zipIdx first).flatMap placementsAt) d') :
    programsAfter d.program (texts.filterMap statementOf?) = some d'.program := by
  induction texts generalizing d first with
  | nil =>
    obtain rfl := Draft.leads_nil.mp h
    rfl
  | cons text rest ih =>
    rw [List.zipIdx_cons, List.flatMap_cons, Draft.leads_append] at h
    obtain ⟨next, hline, hrest⟩ := h
    obtain ⟨fault, hplaced⟩ | ⟨hsaid, hplaced⟩ | ⟨s, hsaid, hplaced⟩ := line_cases text first
    · rw [hplaced] at hline
      exact absurd hline Draft.not_leads_reject
    · rw [hplaced] at hline
      obtain rfl := Draft.leads_nil.mp hline
      rw [List.filterMap_cons_none hsaid]
      exact ih hrest
    · rw [hplaced] at hline
      rw [List.filterMap_cons_some hsaid, programsAfter_cons, programAfter_of_leads hline,
        Option.bind_some]
      exact ih hrest

/-- Lines that may stand where they do are carried out if all else is right. -/
theorem leads_of_unbracketed {texts : List (List Char)} {first : Nat}
    {program after : Option String}
    (hafter : programsAfter program (texts.filterMap statementOf?) = some after)
    (h : d.Leads (unbracketed ((texts.zipIdx first).flatMap placementsAt)) d') :
    (d.inProgram program).Leads ((texts.zipIdx first).flatMap placementsAt)
      (d'.inProgram after) := by
  induction texts generalizing d first program with
  | nil =>
    obtain rfl := Draft.leads_nil.mp h
    cases hafter
    exact Draft.leads_nil.mpr rfl
  | cons text rest ih =>
    rw [List.zipIdx_cons, List.flatMap_cons] at h ⊢
    rw [unbracketed_append, Draft.leads_append] at h
    obtain ⟨next, hline, hrest⟩ := h
    rw [Draft.leads_append]
    obtain ⟨fault, hplaced⟩ | ⟨hsaid, hplaced⟩ | ⟨s, hsaid, hplaced⟩ := line_cases text first
    · rw [hplaced] at hline
      exact absurd hline Draft.not_leads_reject
    · rw [hplaced] at hline ⊢
      obtain rfl := Draft.leads_nil.mp hline
      rw [List.filterMap_cons_none hsaid] at hafter
      exact ⟨_, Draft.leads_nil.mpr rfl, ih hafter hrest⟩
    · rw [hplaced] at hline ⊢
      rw [List.filterMap_cons_some hsaid, programsAfter_cons, Option.bind_eq_some_iff] at hafter
      obtain ⟨between, hbetween, hlater⟩ := hafter
      exact ⟨_, leads_statement hbetween hline, ih hlater hrest⟩

/-- Of lines that may not stand where they do, one is the first. -/
theorem exists_of_programsAfter_eq_none {texts : List (List Char)} {program : Option String}
    (h : programsAfter program (texts.filterMap statementOf?) = none) :
    ∃ front text back s before, texts = front ++ text :: back ∧
      Statement.read text = .ok (some s) ∧
      programsAfter program (front.filterMap statementOf?) = some before ∧
      programAfter before s = none := by
  induction texts generalizing program with
  | nil => cases h
  | cons text rest ih =>
    cases hsaid : statementOf? text with
    | none =>
      rw [List.filterMap_cons_none hsaid] at h
      obtain ⟨front, other, back, s, before, rfl, hread, hfront, hs⟩ := ih h
      refine ⟨text :: front, other, back, s, before, rfl, hread, ?_, hs⟩
      rw [List.filterMap_cons_none hsaid, hfront]
    | some first =>
      rw [List.filterMap_cons_some hsaid, programsAfter_cons] at h
      cases hafter : programAfter program first with
      | none =>
        exact ⟨[], text, rest, first, program, rfl, statementOf?_eq_some_iff.mp hsaid, rfl, hafter⟩
      | some after =>
        rw [hafter, Option.bind_some] at h
        obtain ⟨front, other, back, s, before, rfl, hother, hfront, hs⟩ := ih h
        refine ⟨text :: front, other, back, s, before, rfl, hother, ?_, hs⟩
        rw [List.filterMap_cons_some hsaid, programsAfter_cons, hafter, Option.bind_some, hfront]

end

end TrnComputer
