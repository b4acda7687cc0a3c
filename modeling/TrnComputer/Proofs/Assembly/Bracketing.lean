import TrnComputer.Proofs.Assembly.Outlines
import TrnComputer.Proofs.Assembly.Overwriting
import TrnComputer.Proofs.Assembly.Programs

/-! # Programs and their ends

* `Bracketed`: programs one after the other, each from its name to its end.
* `Within`: a program is open.
* `Violation`: where a source is not of that form, and what is wrong there.
* `Clean`: nothing else is wrong with the first lines of a source.
* `bracketing`: a source that is assembled is of that form, and one that is not has its violation
  for an error when nothing else is wrong up to there.
-/

namespace TrnComputer
set_option autoImplicit false

/-! ## Bracketed statements -/

/-- Statements inside a program. -/
def Free (said : List Statement) : Prop := ∀ s ∈ said, s.mnemonic ≠ "NAM" ∧ s.mnemonic ≠ "END"

/-- Programs one after the other. Each begins with its name and goes on to its end. -/
inductive Bracketed : List Statement → Prop
  | nil : Bracketed []
  | program {opening closing : Statement} {body rest : List Statement}
    (hopening : opening.mnemonic = "NAM") (hbody : Free body) (hclosing : closing.mnemonic = "END")
    (hrest : Bracketed rest) : Bracketed (opening :: (body ++ closing :: rest))

/-- Behind whole programs one is open. -/
inductive Within (said : List Statement) : String → Prop
  | program {before body : List Statement} {opening : Statement} (hbefore : Bracketed before)
    (hopening : opening.mnemonic = "NAM") (hbody : Free body)
    (hsaid : said = before ++ opening :: body) : Within said opening.arguments

section
variable {said : List Statement}

theorem programsAfter_free (h : Free said) (name : String) :
    programsAfter (some name) said = some (some name) := by
  induction said with
  | nil => rfl
  | cons s rest ih =>
    obtain ⟨⟨hnam, hend⟩, hrest⟩ := List.forall_mem_cons.mp h
    rw [programsAfter_cons, programAfter, if_neg hnam, if_neg hend, Option.bind_some]
    exact ih hrest

theorem programsAfter_opening {opening : Statement} (h : opening.mnemonic = "NAM")
    (rest : List Statement) :
    programsAfter none (opening :: rest) = programsAfter (some opening.arguments) rest := by
  rw [programsAfter_cons, programAfter, if_pos h, Option.bind_some]

theorem programsAfter_closing {closing : Statement} (h : closing.mnemonic = "END") (name : String)
    (rest : List Statement) :
    programsAfter (some name) (closing :: rest) = programsAfter none rest := by
  rw [programsAfter_cons, programAfter, if_neg (by rw [h]; decide), if_pos h, Option.bind_some]

theorem Bracketed.programsAfter (h : Bracketed said) : programsAfter none said = some none := by
  induction h with
  | nil => rfl
  | program hopening hbody hclosing _ ih =>
    rw [programsAfter_opening hopening, programsAfter_append, programsAfter_free hbody,
      Option.bind_some, programsAfter_closing hclosing, ih]

theorem Within.programsAfter {name : String} (h : Within said name) :
    programsAfter none said = some (some name) := by
  obtain ⟨hbefore, hopening, hbody, rfl⟩ := h
  rw [programsAfter_append, hbefore.programsAfter, Option.bind_some,
    programsAfter_opening hopening, programsAfter_free hbody]

/-- Behind a program's name there are statements inside it, and its end perhaps. -/
theorem inside_of_programsAfter {name : String} {after : Option String}
    (h : programsAfter (some name) said = some after) :
    (Free said ∧ after = some name) ∨ ∃ body closing rest, said = body ++ closing :: rest ∧
      Free body ∧ closing.mnemonic = "END" ∧ programsAfter none rest = some after := by
  induction said with
  | nil => exact .inl ⟨List.forall_mem_nil _, (Option.some.inj h).symm⟩
  | cons s rest ih =>
    rw [programsAfter_cons, programAfter] at h
    by_cases hnam : s.mnemonic = "NAM"
    · rw [if_pos hnam] at h
      cases h
    · by_cases hend : s.mnemonic = "END"
      · rw [if_neg hnam, if_pos hend, Option.bind_some] at h
        exact .inr ⟨[], s, rest, rfl, List.forall_mem_nil _, hend, h⟩
      · rw [if_neg hnam, if_neg hend, Option.bind_some] at h
        obtain ⟨hfree, hafter⟩ | ⟨body, closing, others, rfl, hbody, hclosing, hothers⟩ := ih h
        · exact .inl ⟨List.forall_mem_cons.mpr ⟨⟨hnam, hend⟩, hfree⟩, hafter⟩
        · exact .inr ⟨s :: body, closing, others, rfl,
            List.forall_mem_cons.mpr ⟨⟨hnam, hend⟩, hbody⟩, hclosing, hothers⟩

/-- Statements that may stand where they do are bracketed, or a program is open behind them. -/
theorem bracketed_or_within {after : Option String} (h : programsAfter none said = some after) :
    (after = none ∧ Bracketed said) ∨ ∃ name, after = some name ∧ Within said name := by
  induction hlength : said.length using Nat.strongRecOn generalizing said with
  | ind length ih =>
    cases said with
    | nil =>
      cases h
      exact .inl ⟨rfl, .nil⟩
    | cons opening rest =>
      by_cases hopening : opening.mnemonic = "NAM"
      · rw [programsAfter_opening hopening] at h
        -- The rest behind the end of a program is shorter, but no tail of one statement less.
        obtain ⟨hfree, rfl⟩ | ⟨body, closing, others, rfl, hbody, hclosing, hothers⟩ :=
          inside_of_programsAfter h
        · exact .inr ⟨_, rfl, .program .nil hopening hfree rfl⟩
        · have hshorter : others.length < length := by
            rw [← hlength, List.length_cons, List.length_append, List.length_cons]
            omega
          obtain ⟨hafter, hrest⟩ | ⟨name, hafter, hrest⟩ := ih _ hshorter hothers rfl
          · exact .inl ⟨hafter, .program hopening hbody hclosing hrest⟩
          · obtain ⟨hbefore, hlast, hfree, rfl⟩ := hrest
            have hbracketed := Bracketed.program hopening hbody hclosing hbefore
            refine .inr ⟨_, hafter, .program hbracketed hlast hfree ?_⟩
            simp
      · rw [programsAfter_cons, programAfter, if_neg hopening] at h
        cases h

theorem bracketed_iff : Bracketed said ↔ programsAfter none said = some none := by
  refine ⟨Bracketed.programsAfter, fun h => ?_⟩
  obtain ⟨-, hbracketed⟩ | ⟨name, hname, -⟩ := bracketed_or_within h
  · exact hbracketed
  · cases hname

instance : DecidablePred Bracketed := fun _ => decidable_of_iff _ bracketed_iff.symm

end

/-! ## Violations -/

/-- The first line of a source that is not bracketed, and what is wrong with it: a statement outside
a program, a program inside another one, or a program that is open at the end. -/
inductive Violation (source : String) : Nat → LineFault → Prop
  | outside {front back : List (List Char)} {text : List Char} {s : Statement}
    (hlines : Text.lines source.toList = front ++ text :: back)
    (hread : Statement.read text = .ok (some s))
    (hfront : Bracketed (front.filterMap statementOf?)) (hs : s.mnemonic ≠ "NAM") :
    Violation source (front.length + 1) (.outsideProgram s.mnemonic)
  | nested {front back : List (List Char)} {text : List Char} {s : Statement} {name : String}
    (hlines : Text.lines source.toList = front ++ text :: back)
    (hread : Statement.read text = .ok (some s))
    (hfront : Within (front.filterMap statementOf?) name) (hs : s.mnemonic = "NAM") :
    Violation source (front.length + 1) (.nestedProgram name)
  | unclosed {name : String} (h : Within (statements source) name) :
    Violation source (Text.lines source.toList).length (.unclosedProgram name)

/-- The first lines of a source are carried out when the open program does not count: they are all
read, no label is there twice, no argument is wrong and no address is out of range. -/
def Clean (source : String) (count : Nat) : Prop :=
  ∃ d, Draft.initial.Leads
    (unbracketed (((numberedLines source).take count).flatMap placementsAt)) d

section
variable {source : String} {number : Nat} {fault : LineFault}

theorem exists_violation (h : ¬Bracketed (statements source)) :
    ∃ number fault, Violation source number fault := by
  cases hafter : programsAfter none (statements source) with
  | none =>
    obtain ⟨front, text, back, s, before, hlines, hread, hfront, hs⟩ :=
      exists_of_programsAfter_eq_none hafter
    obtain ⟨rfl, hbracketed⟩ | ⟨name, rfl, hwithin⟩ := bracketed_or_within hfront
    · refine ⟨_, _, .outside hlines hread hbracketed fun hnam => ?_⟩
      rw [programAfter, if_pos hnam] at hs
      cases hs
    · refine ⟨_, _, .nested hlines hread hwithin ?_⟩
      by_cases hnam : s.mnemonic = "NAM"
      · exact hnam
      · rw [programAfter, if_neg hnam] at hs
        split at hs <;> cases hs
  | some after =>
    obtain ⟨-, hbracketed⟩ | ⟨name, -, hwithin⟩ := bracketed_or_within hafter
    · exact absurd hbracketed h
    · exact ⟨_, _, .unclosed hwithin⟩

/-- The lines before one that is clean are carried out, and so is it but for the open program. -/
theorem leads_of_clean {front back : List (List Char)} {text : List Char}
    {program : Option String}
    (hlines : Text.lines source.toList = front ++ text :: back)
    (hfront : programsAfter none (front.filterMap statementOf?) = some program)
    (h : Clean source (front.length + 1)) :
    ∃ d d' : Draft,
      Draft.initial.Leads ((front.zipIdx 1).flatMap placementsAt) (d.inProgram program) ∧
      d.Leads (unbracketed (placementsAt (text, 1 + front.length))) d' := by
  have hfirst : (numberedLines source).take (front.length + 1) =
      front.zipIdx 1 ++ [(text, 1 + front.length)] := by
    rw [numberedLines, hlines, List.zipIdx_append, List.zipIdx_cons, ← List.singleton_append,
      ← List.append_assoc]
    apply List.take_left'
    rw [List.length_append, List.length_zipIdx, List.length_singleton]
  obtain ⟨d', hd'⟩ := h
  rw [hfirst, List.flatMap_append, unbracketed_append, Draft.leads_append,
    List.flatMap_singleton] at hd'
  obtain ⟨d, hbefore, hline⟩ := hd'
  exact ⟨d, d', leads_of_unbracketed hfront hbefore, hline⟩

theorem assemble_of_open {d : Draft} {name : String}
    (h : Draft.initial.Leads (placementsOfSource source) d) (hopen : d.program = some name) :
    assemble source =
      .error (.line (Text.lines source.toList).length (.unclosedProgram name)) := by
  unfold assemble Assembly.run
  cases hplaced : Draft.initial.performAll #[] (placementsOfSource source) with
  | mk records result =>
    rw [Draft.Leads, hplaced] at h
    cases h
    simp only [hopen]

theorem assemble_of_violation (h : Violation source number fault) (hclean : Clean source number) :
    assemble source = .error (.line number fault) := by
  cases h with
  | @outside front back text s hlines hread hfront hs =>
    obtain ⟨d, d', hleads, -⟩ := leads_of_clean hlines hfront.programsAfter hclean
    have hfails : (d.inProgram none).Fails (placementsAt (text, 1 + front.length))
        (.line (1 + front.length) (.outsideProgram s.mnemonic)) := by
      rw [placementsAt_of_read hread]
      exact fails_outside hs
    rw [Nat.add_comm]
    exact assemble_of_fails (fails_of_take hleads hfails hlines)
  | @nested front back text s name hlines hread hfront hs =>
    obtain ⟨d, d', hleads, hline⟩ := leads_of_clean hlines hfront.programsAfter hclean
    have hfails : (d.inProgram (some name)).Fails (placementsAt (text, 1 + front.length))
        (.line (1 + front.length) (.nestedProgram name)) := by
      rw [placementsAt_of_read hread] at hline ⊢
      exact fails_nested hs hline
    rw [Nat.add_comm]
    exact assemble_of_fails (fails_of_take hleads hfails hlines)
  | @unclosed name h =>
    obtain ⟨d, hd⟩ := hclean
    have hall : (numberedLines source).take (Text.lines source.toList).length =
        numberedLines source := by
      apply List.take_of_length_le
      exact Nat.le_of_eq List.length_zipIdx
    rw [hall] at hd
    have hleads : (Draft.initial.inProgram none).Leads ((numberedLines source).flatMap placementsAt)
        (d.inProgram (some name)) := leads_of_unbracketed h.programsAfter hd
    exact assemble_of_open hleads rfl

end

/-- The statements of a source that is assembled are programs one after the other. A source whose
statements are not is rejected, and it has a first violation: it is told if nothing else is wrong
with the lines up to there. -/
theorem bracketing (source : String) :
    (∀ memory, assemble source = .ok memory → Bracketed (statements source)) ∧
    (¬Bracketed (statements source) →
      (∃ e, assemble source = .error e) ∧ (∃ number fault, Violation source number fault) ∧
      ∀ number fault, Violation source number fault → Clean source number →
        assemble source = .error (.line number fault)) := by
  have hassembled : ∀ memory, assemble source = .ok memory → Bracketed (statements source) := by
    intro memory h
    obtain ⟨d, hleads, hclosed, -⟩ := assemble_eq_ok_iff.mp h
    have hprogram := program_of_leads hleads
    rw [hclosed] at hprogram
    exact bracketed_iff.mpr hprogram
  refine ⟨hassembled, fun hnot => ⟨?_, exists_violation hnot, fun number fault =>
    assemble_of_violation⟩⟩
  cases h : assemble source with
  | error e => exact ⟨e, rfl⟩
  | ok memory => exact absurd (hassembled memory h) hnot

/-- A program with its end, and a program inside another one. -/
theorem bracketing_nested :
    Bracketed (statements "NAM A\nHLT\nEND") ∧
      Violation "NAM A\nNAM B\nEND" 2 (.nestedProgram "A") ∧ Clean "NAM A\nNAM B\nEND" 2 ∧
      assemble "NAM A\nNAM B\nEND" = .error (.line 2 (.nestedProgram "A")) := by
  have hmemory : assemble "NAM A\nHLT\nEND" = .ok (Memory.ofList [1015808]) :=
    assemble_of_toOption (by decide +kernel)
  have hnot : ¬Bracketed (statements "NAM A\nNAM B\nEND") := by decide +kernel
  have hread : Statement.read "NAM B".toList = .ok (some ⟨none, "NAM", false, "B"⟩) := by
    decide +kernel
  have hwithin : Within (["NAM A".toList].filterMap statementOf?) "A" :=
    .program .nil rfl (List.forall_mem_nil _)
      (by decide +kernel : _ = [] ++ [⟨none, "NAM", false, "A"⟩])
  have hviolation : Violation "NAM A\nNAM B\nEND" 2 (.nestedProgram "A") :=
    .nested (by decide +kernel : _ = ["NAM A".toList] ++ "NAM B".toList :: ["END".toList]) hread
      hwithin rfl
  have hnone : unbracketed (((numberedLines "NAM A\nNAM B\nEND").take 2).flatMap placementsAt) =
      [] := by decide +kernel
  have hclean : Clean "NAM A\nNAM B\nEND" 2 := ⟨_, by rw [hnone]; exact Draft.leads_nil.mpr rfl⟩
  exact ⟨(bracketing _).1 _ hmemory, hviolation, hclean,
    ((bracketing _).2 hnot).2.2 _ _ hviolation hclean⟩

end TrnComputer
