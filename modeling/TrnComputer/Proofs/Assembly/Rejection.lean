import TrnComputer.Proofs.Assembly.Bounds
import TrnComputer.Proofs.Assembly.Effects

/-! # Where a source is rejected

* `Draft.Fails`: placements that end in an error, and `Draft.fails_lines`: the line at fault.
* `Placement.Settling`: no line is found to leave a program open.
* `undefined_of_link`: linking names the first label that is referred to and not defined.
* `definedLabels`, `referredLabels`: the labels of a source, and those in its sums.
* `cutAfter`: a source up to the end of one of its lines.
* `rejection_located`: where the errors of a source lie.
-/

namespace TrnComputer
set_option autoImplicit false

/-! ## Placements that end in an error -/

namespace Draft

/-- Carrying out placements ends in an error. -/
def Fails (d : Draft) (placements : List (Nat × Placement)) (e : AssemblyError) : Prop :=
  (d.performAll #[] placements).2 = .error e

section
variable {d d' : Draft} {e : AssemblyError} {line : Nat} {placement : Placement}
  {front back rest : List (Nat × Placement)}

theorem not_fails_nil : ¬d.Fails [] e := by
  intro h
  cases h

theorem fails_cons :
    d.Fails ((line, placement) :: rest) e ↔
      (∃ fault, d.perform line placement = .error fault ∧ e = .line line fault) ∨
        ∃ next record, d.perform line placement = .ok (next, record) ∧ next.Fails rest e := by
  unfold Fails
  simp only [performAll]
  cases hperform : d.perform line placement with
  | error fault => simp [eq_comm]
  | ok done =>
    obtain ⟨next, record⟩ := done
    cases record with
    | none => simp
    | some record =>
      rw [performAll_records next rest _ #[]]
      simp

theorem fails_append :
    d.Fails (front ++ back) e ↔
      d.Fails front e ∨ ∃ next, d.Leads front next ∧ next.Fails back e := by
  induction front generalizing d with
  | nil => simp [not_fails_nil, leads_nil]
  | cons first rest ih =>
    obtain ⟨line, placement⟩ := first
    rw [List.cons_append, fails_cons, fails_cons]
    simp only [leads_cons, ih]
    constructor
    · rintro (hhere | ⟨next, record, hperform, hrest | ⟨last, hrest, hback⟩⟩)
      · exact .inl (.inl hhere)
      · exact .inl (.inr ⟨next, record, hperform, hrest⟩)
      · exact .inr ⟨last, ⟨next, record, hperform, hrest⟩, hback⟩
    · rintro ((hhere | ⟨next, record, hperform, hrest⟩) |
        ⟨last, ⟨next, record, hperform, hrest⟩, hback⟩)
      · exact .inl hhere
      · exact .inr ⟨next, record, hperform, .inl hrest⟩
      · exact .inr ⟨next, record, hperform, .inr ⟨last, hrest, hback⟩⟩

theorem not_fails_of_leads {placements : List (Nat × Placement)} (h : d.Leads placements d') :
    ¬d.Fails placements e := by
  intro hfails
  rw [Fails, h] at hfails
  cases hfails

/-- An error is that of a placement, on its line. -/
theorem exists_of_fails {placements : List (Nat × Placement)} (h : d.Fails placements e) :
    ∃ entry ∈ placements, ∃ before fault,
      perform entry.1 before entry.2 = .error fault ∧ e = .line entry.1 fault := by
  induction placements generalizing d with
  | nil => exact absurd h not_fails_nil
  | cons first rest ih =>
    obtain ⟨line, placement⟩ := first
    obtain ⟨fault, hperform, he⟩ | ⟨next, record, -, hrest⟩ := fails_cons.mp h
    · exact ⟨_, List.mem_cons_self, d, fault, hperform, he⟩
    · obtain ⟨entry, hentry, hfault⟩ := ih hrest
      exact ⟨entry, List.mem_cons_of_mem _ hentry, hfault⟩

/-- Of the lines that fail, one is at fault, and all before it are carried out. -/
theorem fails_lines {texts : List (List Char)} {first : Nat}
    (h : d.Fails ((texts.zipIdx first).flatMap placementsAt) e) :
    ∃ front text back next, texts = front ++ text :: back ∧
      d.Leads ((front.zipIdx first).flatMap placementsAt) next ∧
      next.Fails (placementsAt (text, first + front.length)) e := by
  induction texts generalizing d first with
  | nil => exact absurd h not_fails_nil
  | cons text texts ih =>
    rw [List.zipIdx_cons, List.flatMap_cons] at h
    obtain hhere | ⟨next, hleads, hrest⟩ := fails_append.mp h
    · exact ⟨[], text, texts, d, rfl, leads_nil.mpr rfl, hhere⟩
    · obtain ⟨front, other, back, last, rfl, hfront, hother⟩ := ih hrest
      refine ⟨text :: front, other, back, last, rfl, ?_, ?_⟩
      · rw [List.zipIdx_cons, List.flatMap_cons]
        exact leads_append.mpr ⟨next, hleads, hfront⟩
      · have hnumber : first + (text :: front).length = first + 1 + front.length := by
          rw [List.length_cons]
          omega
        rw [hnumber]
        exact hother

end

end Draft

/-! ## Programs left open -/

/-- A placement that does not say that a program is left open. -/
def Placement.Settling : Placement → Prop
  | .reject (.unclosedProgram _) => False
  | _ => True

theorem Effect.settling {s : Statement} {placement : Placement} (h : Effect s placement) :
    placement.Settling := by
  cases h with
  | @reject fault h =>
    cases fault with
    | unclosedProgram name => exact h name rfl
    | _ => trivial
  | reference | word | reserve | origin | openProgram | closeProgram => trivial

theorem settling_line (text : List Char) : ∀ p ∈ placementsOfLine text, p.Settling := by
  unfold placementsOfLine
  split
  · simp [Placement.Settling]
  · simp
  · next statement hread =>
    intro p hp
    rcases List.mem_append.mp hp with hfront | hbody
    · rcases List.mem_append.mp hfront with hwithin | hlabel
      · split at hwithin
        · cases hwithin
        · rw [List.mem_singleton.mp hwithin]
          trivial
      · obtain ⟨name, -, rfl⟩ := List.mem_map.mp hlabel
        trivial
    · exact (effect_body statement p hbody).settling

/-- Only at its end a source is found to leave a program open. -/
theorem not_unclosed_of_perform {d : Draft} {line : Nat} {placement : Placement}
    {fault : LineFault} (hsettling : placement.Settling)
    (h : d.perform line placement = .error fault) (name : String) :
    fault ≠ .unclosedProgram name := by
  rintro rfl
  cases placement with
  | reject fault =>
    cases h
    exact hsettling
  | within | label | word | reserve | origin =>
    rw [Draft.perform] at h
    split at h <;> cases h
  | openProgram =>
    rw [Draft.perform] at h
    split at h
    · cases h
    · split at h <;> cases h
  | closeProgram | reference => cases h

/-! ## Labels that are not defined -/

section
variable {symbols : SymbolTable} {memory : Memory} {records : Array Record}
  {references : List Reference}

theorem addAddresses_error_iff {names : List String} {total : Int} {label : String} :
    symbols.addAddresses total names = .error label ↔
      names.find? (fun name => (symbols.get? name).isNone) = some label := by
  induction names generalizing total with
  | nil => simp [SymbolTable.addAddresses]
  | cons name rest ih =>
    rw [SymbolTable.addAddresses]
    cases hget : symbols.get? name with
    | none => simp [hget]
    | some address =>
      rw [List.find?_cons_of_neg (by simp [hget])]
      exact ih

/-- Linking names the first label that is not defined, if all cells are in the memory. -/
theorem undefined_of_link (h : ∀ r ∈ references, r.address < memory.size) {e : AssemblyError}
    (hlink : (Draft.link symbols memory records references).2 = .error e) :
    ∃ label, e = .undefinedLabel label ∧
      (references.flatMap (·.sum.labels)).find? (fun name => (symbols.get? name).isNone) =
        some label := by
  induction references generalizing memory records with
  | nil => cases hlink
  | cons reference rest ih =>
    obtain ⟨hhead, hrest⟩ := List.forall_mem_cons.mp h
    rw [List.flatMap_cons, List.find?_append]
    rw [Draft.link] at hlink
    split at hlink
    · next label hresolve =>
      cases hlink
      exact ⟨label, rfl, by rw [addAddresses_error_iff.mp hresolve, Option.some_or]⟩
    · next value hresolve =>
      have hnone : reference.sum.labels.find? (fun name => (symbols.get? name).isNone) = none := by
        cases hfind : reference.sum.labels.find? fun name => (symbols.get? name).isNone with
        | none => rfl
        | some label =>
          rw [SymbolTable.resolve, addAddresses_error_iff.mpr hfind] at hresolve
          cases hresolve
      rw [hnone, Option.none_or]
      split at hlink
      · next hcell =>
        have hle : memory.size ≤ reference.address := Memory.get?_eq_none_iff.mp hcell
        omega
      · refine ih (fun r hr => ?_) hlink
        rw [Memory.size_store]
        exact Nat.lt_of_lt_of_le (hrest r hr) (Nat.le_max_left _ _)

end

/-- The labels of the statements. -/
def definedLabels (source : String) : List String :=
  (statements source).filterMap Statement.label

/-- The labels in the sums of a source, from left to right. -/
def referredLabels (source : String) : List String :=
  (statements source).flatMap fun s =>
    s.contents.flatMap fun content => content.sum?.elim [] LabelSum.labels

theorem map_fst_labels (said : List Statement) (address : Nat) :
    (labels (stationsFrom address said)).map Prod.fst = said.filterMap Statement.label := by
  induction said generalizing address with
  | nil => rfl
  | cons s rest ih =>
    rw [stationsFrom, labels_cons, List.map_append, ih]
    cases hlabel : s.label <;> simp [hlabel]

theorem sums_placed (contents : List Content) (address : Nat) :
    (sums (placed address contents)).flatMap (·.2.labels) =
      contents.flatMap fun content => content.sum?.elim [] LabelSum.labels := by
  induction contents generalizing address with
  | nil => rfl
  | cons content rest ih =>
    rw [List.flatMap_cons, ← ih (address + 1), placed, sums, List.filterMap_cons]
    cases hsum : content.sum? <;> simp [sums]

theorem sums_emissions (said : List Statement) (address : Nat) :
    (sums (emissions (stationsFrom address said))).flatMap (·.2.labels) =
      said.flatMap fun s =>
        s.contents.flatMap fun content => content.sum?.elim [] LabelSum.labels := by
  induction said generalizing address with
  | nil => rfl
  | cons s rest ih =>
    rw [stationsFrom, emissions_cons, sums_append, List.flatMap_append, sums_placed, ih,
      List.flatMap_cons]

theorem find?_of_drafted {source : String} {d : Draft}
    (h : Drafted (labels (stations source)) (emissions (stations source))
      (reserves (stations source)) d) :
    (d.references.toList.flatMap (·.sum.labels)).find?
        (fun name => (d.symbols.get? name).isNone) =
      (referredLabels source).find? (· ∉ definedLabels source) := by
  have hreferred : d.references.toList.flatMap (·.sum.labels) = referredLabels source := by
    rw [referredLabels, ← sums_emissions _ 0, ← stations, ← h.references, List.flatMap_map]
  have hdefined (name : String) :
      (d.symbols.get? name).isNone = decide (name ∉ definedLabels source) := by
    rw [Bool.eq_iff_iff, decide_eq_true_iff, definedLabels, ← map_fst_labels _ 0, ← stations,
      List.mem_map]
    cases hget : d.symbols.get? name with
    | none =>
      simp only [Option.isNone_none, true_iff]
      rintro ⟨⟨label, address⟩, hmem, rfl⟩
      rw [(h.symbols label address).mpr hmem] at hget
      cases hget
    | some address =>
      simp only [Option.isNone_some, Bool.false_eq_true, false_iff,
        Decidable.not_not]
      exact ⟨(name, address), (h.symbols name address).mp hget, rfl⟩
  rw [hreferred]
  congr 1
  funext name
  exact hdefined name

/-! ## Sources that are cut -/

/-- A source up to the end of a line. -/
def cutAfter (line : Nat) (source : String) : String :=
  String.ofList (Text.firstLines line source.toList)

theorem lines_cutAfter (line : Nat) (source : String) :
    Text.lines (cutAfter line source).toList = (Text.lines source.toList).take line := by
  rw [cutAfter, String.toList_ofList, Text.lines_firstLines]

/-! ## Sources -/

section
variable {source : String} {e : AssemblyError}

theorem assemble_of_fails (h : Draft.initial.Fails (placementsOfSource source) e) :
    assemble source = .error e := by
  unfold assemble Assembly.run
  cases hplaced : Draft.initial.performAll #[] (placementsOfSource source) with
  | mk records result =>
    rw [Draft.Fails, hplaced] at h
    cases h
    rfl

/-- A source is rejected at a placement, at its end, or when it is linked. -/
theorem assemble_eq_error (h : assemble source = .error e) :
    Draft.initial.Fails (placementsOfSource source) e ∨
      ∃ d, Draft.initial.Leads (placementsOfSource source) d ∧
        ((∃ name, d.program = some name ∧
            e = .line (Text.lines source.toList).length (.unclosedProgram name)) ∨
          d.program = none ∧ ∃ label, e = .undefinedLabel label ∧
            (referredLabels source).find? (· ∉ definedLabels source) = some label) := by
  unfold assemble Assembly.run at h
  cases hplaced : Draft.initial.performAll #[] (placementsOfSource source) with
  | mk records result =>
    rw [hplaced] at h
    cases result with
    | error fault =>
      cases h
      exact .inl (congrArg Prod.snd hplaced)
    | ok d =>
      have hleads : Draft.initial.Leads (placementsOfSource source) d := by
        rw [Draft.Leads, hplaced]
      refine .inr ⟨d, hleads, ?_⟩
      dsimp only at h
      split at h
      · next name hopen =>
        cases h
        exact .inl ⟨name, hopen, rfl⟩
      · next hclosed =>
        have hinside : ∀ r ∈ d.references.toList, r.address < d.memory.size := fun r hr =>
          (kept_of_source hleads).2 r (Array.mem_toList_iff.mp hr)
        unfold Assembly.finish at h
        cases hlinked : Draft.link d.symbols d.memory records d.references.toList with
        | mk others linked =>
          rw [hlinked] at h
          cases linked with
          | ok memory => cases h
          | error fault =>
            cases h
            obtain ⟨label, he, hfind⟩ := undefined_of_link hinside (congrArg Prod.snd hlinked)
            rw [find?_of_drafted (drafted_source hleads).1] at hfind
            exact .inr ⟨hclosed, label, he, hfind⟩

/-- Sources that are the same up to the line at fault fail alike. -/
theorem fails_of_take {front back : List (List Char)} {text : List Char} {next : Draft}
    (hleads : Draft.initial.Leads ((front.zipIdx 1).flatMap placementsAt) next)
    (hfails : next.Fails (placementsAt (text, 1 + front.length)) e)
    (hlines : Text.lines source.toList = front ++ text :: back) :
    Draft.initial.Fails (placementsOfSource source) e := by
  change Draft.initial.Fails ((numberedLines source).flatMap placementsAt) e
  rw [numberedLines, hlines, List.zipIdx_append, List.zipIdx_cons, List.flatMap_append,
    List.flatMap_cons]
  exact Draft.fails_append.mpr (.inr ⟨next, hleads, Draft.fails_append.mpr (.inl hfails)⟩)

/-- A source that can be carried out to its end is rejected for an open program or a label that is
not defined. -/
theorem late_of_leads {d : Draft} (hleads : Draft.initial.Leads (placementsOfSource source) d)
    (h : assemble source = .error e) :
    (∃ number name, e = .line number (.unclosedProgram name)) ∨
      ∃ label, e = .undefinedLabel label := by
  obtain hfails | ⟨-, -, ⟨name, -, he⟩ | ⟨-, label, he, -⟩⟩ := assemble_eq_error h
  · exact absurd hfails (Draft.not_fails_of_leads hleads)
  · exact .inl ⟨_, name, he⟩
  · exact .inr ⟨label, he⟩

theorem lines_ne_nil_of_open {d : Draft} {name : String}
    (hleads : Draft.initial.Leads (placementsOfSource source) d) (hopen : d.program = some name) :
    Text.lines source.toList ≠ [] := by
  intro hnil
  rw [placementsOfSource, hnil] at hleads
  obtain rfl := Draft.leads_nil.mp hleads
  cases hopen

theorem not_unclosed_of_fails {n : Nat} {fault : LineFault}
    (h : Draft.initial.Fails (placementsOfSource source) (.line n fault)) (name : String) :
    fault ≠ .unclosedProgram name := by
  obtain ⟨entry, hentry, before, found, hperform, he⟩ := Draft.exists_of_fails h
  cases he
  obtain ⟨numbered, -, hplaced⟩ := List.mem_flatMap.mp hentry
  obtain ⟨placement, hplacement, rfl⟩ := List.mem_map.mp hplaced
  exact not_unclosed_of_perform (settling_line _ placement hplacement) hperform name

/-- The line at fault decides: sources that agree up to it are rejected with the same error, and
what stands before it is not at fault. -/
theorem located_of_fails {n : Nat} {fault : LineFault}
    (h : Draft.initial.Fails (placementsOfSource source) (.line n fault)) :
    1 ≤ n ∧ n ≤ (Text.lines source.toList).length ∧
      (∀ other : String,
        (Text.lines other.toList).take n = (Text.lines source.toList).take n →
        assemble other = .error (.line n fault)) ∧
      ∀ cut : String, Text.lines cut.toList = (Text.lines source.toList).take (n - 1) →
        ∃ d, Draft.initial.Leads (placementsOfSource cut) d := by
  obtain ⟨front, text, back, next, hlines, hleads, hfails⟩ := Draft.fails_lines h
  have hn : n = front.length + 1 := by
    obtain ⟨entry, hentry, before, found, -, he⟩ := Draft.exists_of_fails hfails
    obtain ⟨placement, -, rfl⟩ := List.mem_map.mp hentry
    cases he
    exact Nat.add_comm 1 front.length
  have hlength : (Text.lines source.toList).length = front.length + (back.length + 1) := by
    rw [hlines, List.length_append, List.length_cons]
  refine ⟨by omega, by omega, fun other hother => ?_, fun cut hcut => ⟨next, ?_⟩⟩
  · have hsame : Text.lines other.toList =
        front ++ text :: (Text.lines other.toList).drop n := by
      have htake : (Text.lines source.toList).take n = front ++ [text] := by
        rw [hlines, hn, List.take_append, List.take_of_length_le (Nat.le_succ _),
          Nat.add_sub_cancel_left, List.take_succ_cons, List.take_zero]
      rw [← List.singleton_append, ← List.append_assoc, ← htake, ← hother, List.take_append_drop]
    exact assemble_of_fails (fails_of_take hleads hfails hsame)
  · have hfront : (Text.lines source.toList).take (n - 1) = front := by
      rw [hlines, hn, Nat.add_sub_cancel, List.take_left]
    rw [placementsOfSource, hcut, hfront]
    exact hleads

end

/-- The error of a rejected source lies on one of its lines. If no program has been left open, the
lines up to that one have the error whatever follows, and those before it are rejected for an open
program or a label that is not defined, if at all. An error without a line is a label that is not
defined, the first in the source that is referred to: no line has been at fault by then and no
program is open. -/
theorem rejection_located {source : String} {e : AssemblyError}
    (h : assemble source = .error e) :
    (∀ n fault, e = .line n fault → 1 ≤ n ∧ n ≤ (Text.lines source.toList).length ∧
      ((∃ name, fault = .unclosedProgram name) → n = (Text.lines source.toList).length) ∧
      ((∀ name, fault ≠ .unclosedProgram name) →
        (∀ other : String,
          (Text.lines other.toList).take n = (Text.lines source.toList).take n →
          assemble other = .error e) ∧
        (∃ cut : String, cut.toList <+: source.toList ∧
          Text.lines cut.toList = (Text.lines source.toList).take (n - 1)) ∧
        ∀ cut : String, Text.lines cut.toList = (Text.lines source.toList).take (n - 1) →
          ∀ e', assemble cut = .error e' →
            (∃ number name, e' = .line number (.unclosedProgram name)) ∨
              ∃ label, e' = .undefinedLabel label)) ∧
    (e.lineNumber = -1 → ∃ label, e = .undefinedLabel label ∧
      (∃ d, Draft.initial.Leads (placementsOfSource source) d ∧ d.program = none) ∧
      (referredLabels source).find? (· ∉ definedLabels source) = some label) := by
  refine ⟨fun n fault he => ?_, fun hline => ?_⟩
  · subst he
    obtain hfails | ⟨d, hleads, ⟨name, hopen, he⟩ | ⟨-, label, he, -⟩⟩ := assemble_eq_error h
    · obtain ⟨hfirst, hlast, hother, hcut⟩ := located_of_fails hfails
      refine ⟨hfirst, hlast, ?_, fun _ => ⟨hother, ⟨cutAfter (n - 1) source, ?_,
        lines_cutAfter (n - 1) source⟩, fun cut hlines e' herror => ?_⟩⟩
      · rintro ⟨name, rfl⟩
        exact absurd rfl (not_unclosed_of_fails hfails name)
      · rw [cutAfter, String.toList_ofList]
        exact Text.firstLines_prefix (n - 1) source.toList
      · obtain ⟨d, hleads⟩ := hcut cut hlines
        exact late_of_leads hleads herror
    · cases he
      have hlines := List.length_pos_iff.mpr (lines_ne_nil_of_open hleads hopen)
      exact ⟨hlines, Nat.le_refl _, fun _ => rfl, fun hnot => absurd rfl (hnot name)⟩
    · cases he
  · obtain hfails | ⟨d, hleads, ⟨name, -, rfl⟩ | ⟨hclosed, label, rfl, hfind⟩⟩ :=
      assemble_eq_error h
    · obtain ⟨n, fault, rfl⟩ := line_of_performAll hfails
      change (n : Int) = -1 at hline
      omega
    · change ((Text.lines source.toList).length : Int) = -1 at hline
      omega
    · exact ⟨label, rfl, ⟨d, hleads, hclosed⟩, hfind⟩

/-- A label that is defined twice, and a sum of which two labels are not defined. -/
theorem rejection_located_twice :
    assemble "NAM P\nA: HLT\nA: HLT" = .error (.line 3 (.duplicateLabel "A")) ∧
      assemble "NAM P\nA: HLT\nA: HLT\nEND\n!" = .error (.line 3 (.duplicateLabel "A")) ∧
      assemble "NAM P\nA: HLT" = .error (.line 2 (.unclosedProgram "P")) ∧
      assemble "NAM P\nJMP A\nA: JMP A+B+C\nEND" = .error (.undefinedLabel "B") ∧
      (referredLabels "NAM P\nJMP A\nA: JMP A+B+C\nEND").find?
        (· ∉ definedLabels "NAM P\nJMP A\nA: JMP A+B+C\nEND") = some "B" := by
  have htwice : assemble "NAM P\nA: HLT\nA: HLT" = .error (.line 3 (.duplicateLabel "A")) := by
    decide +kernel
  have hopen : assemble "NAM P\nA: HLT" = .error (.line 2 (.unclosedProgram "P")) := by
    decide +kernel
  have hundefined :
      assemble "NAM P\nJMP A\nA: JMP A+B+C\nEND" = .error (.undefinedLabel "B") := by
    decide +kernel
  obtain ⟨-, -, -, hfault⟩ := (rejection_located htwice).1 3 _ rfl
  obtain ⟨hother, -, hcut⟩ := hfault fun name => by simp
  obtain ⟨number, name, -⟩ | ⟨label, hlate⟩ := hcut "NAM P\nA: HLT" (by decide) _ hopen
  · obtain ⟨label, hlabel, -, hfind⟩ := (rejection_located hundefined).2 rfl
    cases hlabel
    exact ⟨htwice, hother _ (by decide), hopen, hundefined, hfind⟩
  · cases hlate

end TrnComputer
