import TrnComputer.Proofs.Assembly.Assembled

/-! # What a memory depends on

The memory of a source depends neither on the numbers of its lines nor on the texts that only faults
and records show.

* `Placement.essence`, `Draft.outline`: placements and drafts without those.
* `leads_outline`: outlines are led to as drafts are.
* `assemble_eq_ok_iff`: when a source has a memory, and which.
* `assemble_congr`: sources of one essence have the same memory or none.
-/

namespace TrnComputer
set_option autoImplicit false

/-! ## Outlines -/

/-- A placement without the texts that no memory depends on. A program keeps whether it has a
name. -/
def Placement.essence : Placement → Placement
  | within _ => within ""
  | openProgram name => openProgram (if name.isEmpty then "" else "NAM")
  | reject _ => reject (.missingArgument "")
  | placement => placement

def Reference.outline (r : Reference) : Reference := { r with line := 0 }

/-- A draft without line numbers and the name of the open program. -/
def Draft.outline (d : Draft) : Draft :=
  { d with
    references := d.references.map Reference.outline
    program := d.program.map fun _ => "NAM" }

/-- Placements without the numbers of their lines. -/
def essences (placements : List (Nat × Placement)) : List (Nat × Placement) :=
  placements.map fun entry => (0, entry.2.essence)

section
variable {d : Draft}

theorem perform_outline (line : Nat) (placement : Placement) :
    (d.outline.perform 0 placement.essence).toOption.map Prod.fst =
      (d.perform line placement).toOption.map fun done => done.1.outline := by
  cases placement with
  | within mnemonic =>
    have hopen : d.outline.program.isNone = d.program.isNone := Option.isNone_map
    simp only [Placement.essence, Draft.perform, hopen]
    split <;> rfl
  | label name =>
    have hdefine : d.outline.symbols.define name d.outline.cursor =
        d.symbols.define name d.cursor := rfl
    simp only [Placement.essence, Draft.perform, hdefine]
    cases d.symbols.define name d.cursor <;> rfl
  | openProgram name =>
    have hopen : d.outline.program = d.program.map fun _ => "NAM" := rfl
    simp only [Placement.essence, Draft.perform, hopen]
    cases d.program with
    | some outer => rfl
    | none => cases name.isEmpty <;> rfl
  | closeProgram => rfl
  | reference sum =>
    have hpush : (d.references.push ⟨sum, d.cursor, line⟩).map Reference.outline =
        (d.references.map Reference.outline).push ⟨sum, d.cursor, 0⟩ := Array.map_push
    simp only [Placement.essence, Draft.perform, Except.toOption, Option.map_some, Draft.outline,
      hpush]
  | word value =>
    simp only [Placement.essence, Draft.perform]
    by_cases hfits : d.cursor < Word.addressSpace
    · have houtline : d.outline.cursor < Word.addressSpace := hfits
      rw [if_pos hfits, if_pos houtline]
      rfl
    · have houtline : ¬d.outline.cursor < Word.addressSpace := hfits
      rw [if_neg hfits, if_neg houtline]
      rfl
  | reserve count =>
    simp only [Placement.essence, Draft.perform]
    by_cases hfits : 0 ≤ count ∧ count ≤ Word.addressSpace - d.cursor
    · have houtline : 0 ≤ count ∧ count ≤ Word.addressSpace - d.outline.cursor := hfits
      rw [if_pos hfits, if_pos houtline]
      rfl
    · have houtline : ¬(0 ≤ count ∧ count ≤ Word.addressSpace - d.outline.cursor) := hfits
      rw [if_neg hfits, if_neg houtline]
      rfl
  | origin address =>
    simp only [Placement.essence, Draft.perform]
    split <;> rfl
  | reject fault => rfl

/-- What is led to in outline is led to. -/
theorem leads_outline {placements : List (Nat × Placement)} {last : Draft} :
    d.outline.Leads (essences placements) last ↔
      ∃ d', d.Leads placements d' ∧ d'.outline = last := by
  induction placements generalizing d with
  | nil => simp [essences, Draft.leads_nil]
  | cons entry rest ih =>
    obtain ⟨line, placement⟩ := entry
    have hperform := perform_outline (d := d) line placement
    rw [essences, List.map_cons, ← essences]
    simp only [Draft.leads_cons]
    -- A placement fails in outline where it fails, so only the drafts behind it differ.
    cases hdone : d.perform line placement with
    | error fault =>
      rw [hdone, Except.toOption, Option.map_none, Option.map_eq_none_iff] at hperform
      constructor
      · rintro ⟨next, record, hnext, -⟩
        rw [hnext] at hperform
        cases hperform
      · rintro ⟨d', ⟨next, record, hnext, -⟩, -⟩
        cases hnext
    | ok done =>
      rw [hdone, Except.toOption, Option.map_some, Option.map_eq_some_iff] at hperform
      obtain ⟨⟨outlined, note⟩, houtlined, hsame⟩ := hperform
      have hnext : d.outline.perform 0 placement.essence = .ok (outlined, note) := by
        cases hfound : d.outline.perform 0 placement.essence with
        | error fault =>
          rw [hfound] at houtlined
          cases houtlined
        | ok found =>
          rw [hfound] at houtlined
          exact congrArg Except.ok (Option.some.inj houtlined)
      constructor
      · rintro ⟨next, record, hoks, hrest⟩
        rw [hnext] at hoks
        cases hoks
        rw [show outlined = done.1.outline from hsame, ih] at hrest
        obtain ⟨d', hd', hlast⟩ := hrest
        exact ⟨d', ⟨done.1, done.2, rfl, hd'⟩, hlast⟩
      · rintro ⟨d', ⟨next, record, hoks, hrest⟩, hlast⟩
        cases hoks
        refine ⟨outlined, note, hnext, ?_⟩
        rw [show outlined = next.outline from hsame]
        exact ih.mpr ⟨d', hrest, hlast⟩

theorem link_outline (symbols : SymbolTable) (memory : Memory) (records others : Array Record)
    (references : List Reference) :
    (Draft.link symbols memory records (references.map Reference.outline)).2 =
      (Draft.link symbols memory others references).2 := by
  induction references generalizing memory records others with
  | nil => rfl
  | cons reference rest ih =>
    rw [List.map_cons, Draft.link, Draft.link]
    have hsum : reference.outline.sum = reference.sum := rfl
    have haddress : reference.outline.address = reference.address := rfl
    rw [hsum, haddress]
    cases symbols.resolve reference.sum with
    | error label => rfl
    | ok value =>
      cases memory.get? reference.address with
      | none => rfl
      | some cell => exact ih _ _ _

theorem link_records (symbols : SymbolTable) (memory : Memory) (records others : Array Record)
    (references : List Reference) :
    (Draft.link symbols memory records references).2 =
      (Draft.link symbols memory others references).2 :=
  (link_outline symbols memory records records references).symm.trans
    (link_outline symbols memory records others references)

end

/-! ## Sources -/

section
variable {source source' : String} {memory : Memory}

/-- A source has a memory when its placements are carried out, no program is open then and its sums
have values. -/
theorem assemble_eq_ok_iff : assemble source = .ok memory ↔
    ∃ d, Draft.initial.Leads (placementsOfSource source) d ∧ d.program = none ∧
      (Draft.link d.symbols d.memory #[] d.references.toList).2 = .ok memory := by
  have hfinish (d : Draft) (records : Array Record) : (Assembly.finish d records).2 =
      (Draft.link d.symbols d.memory #[] d.references.toList).2 := by
    rw [← link_records _ _ records]
    unfold Assembly.finish
    cases Draft.link d.symbols d.memory records d.references.toList with
    | mk others result => cases result <;> rfl
  unfold assemble Assembly.run Draft.Leads
  cases hplaced : Draft.initial.performAll #[] (placementsOfSource source) with
  | mk records result =>
    cases result with
    | error fault => simp
    | ok d =>
      cases hprogram : d.program with
      | some name => simp [hprogram]
      | none => simp [hprogram, hfinish]

theorem outline_initial : Draft.initial.outline = Draft.initial := by
  simp [Draft.outline, Draft.initial]

theorem program_outline {d : Draft} : d.outline.program = none ↔ d.program = none :=
  Option.map_eq_none_iff

theorem assemble_eq_ok_iff_outline : assemble source = .ok memory ↔
    ∃ d, Draft.initial.Leads (essences (placementsOfSource source)) d ∧ d.program = none ∧
      (Draft.link d.symbols d.memory #[] d.references.toList).2 = .ok memory := by
  have hlink (d : Draft) :
      (Draft.link d.outline.symbols d.outline.memory #[] d.outline.references.toList).2 =
        (Draft.link d.symbols d.memory #[] d.references.toList).2 := by
    have hlist : d.outline.references.toList = d.references.toList.map Reference.outline :=
      Array.toList_map
    rw [hlist]
    exact link_outline _ _ _ _ _
  rw [assemble_eq_ok_iff, ← outline_initial]
  constructor
  · rintro ⟨d, hleads, hprogram, hmemory⟩
    rw [outline_initial] at hleads
    exact ⟨d.outline, leads_outline.mpr ⟨d, hleads, rfl⟩, program_outline.mpr hprogram,
      (hlink d).trans hmemory⟩
  · rintro ⟨_, hleads, hprogram, hmemory⟩
    obtain ⟨d, hd, rfl⟩ := leads_outline.mp hleads
    rw [outline_initial]
    exact ⟨d, hd, program_outline.mp hprogram, (hlink d).symm.trans hmemory⟩

/-- The placements of a line, without the texts that no memory depends on. -/
def essenceOfLine (text : List Char) : List Placement :=
  (placementsOfLine text).map Placement.essence

theorem essences_lines (texts : List (List Char)) (first : Nat) :
    essences ((texts.zipIdx first).flatMap fun (text, number) =>
      (placementsOfLine text).map (number, ·)) = (texts.flatMap essenceOfLine).map (0, ·) := by
  induction texts generalizing first with
  | nil => rfl
  | cons text rest ih =>
    rw [List.zipIdx_cons, List.flatMap_cons, List.flatMap_cons, List.map_append, ← ih (first + 1),
      essences, List.map_append, List.map_map, essenceOfLine, List.map_map]
    rfl

/-- Sources of one essence have the same memory, or none. -/
theorem assemble_congr (h : (Text.lines source.toList).flatMap essenceOfLine =
      (Text.lines source'.toList).flatMap essenceOfLine) :
    assemble source = .ok memory ↔ assemble source' = .ok memory := by
  rw [assemble_eq_ok_iff_outline, assemble_eq_ok_iff_outline, placementsOfSource,
    placementsOfSource, essences_lines, essences_lines, h]

end

end TrnComputer
