import TrnComputer.Assembly.Assemble
import TrnComputer.Disassembly
import TrnComputer.Proofs.Assembly.Drafts
import TrnComputer.Proofs.Assembly.Written
import TrnComputer.Proofs.Instruction.Fields

/-! # Disassembled programs are assembled again

* `Instruction.statement`, `Disassembly.statement`: what the text of a word says.
* `placementsOfLine_word`: the text of a word puts one word into the next cell,
  `Disassembly.canonical`.
* `Disassembly.source`: a memory as a program, a cell a line.
* `assemble_disassembled`: such a program is assembled to the canonical words of the memory.
-/

namespace TrnComputer
set_option autoImplicit false

/-! ## The text of an instruction -/

namespace Operation

theorem subcode_lt (operation : Operation) : operation.subcode < 8 := by
  have hwidth : 2 ^ operation.opcode.subcodeWidth ≤ 8 := by cases operation.opcode <;> decide
  exact Nat.lt_of_lt_of_le operation.subcode_lt_width hwidth

theorem find?_mnemonic (operation : Operation) :
    Mnemonic.find? operation.mnemonic =
      some ⟨operation.mnemonic, operation.opcode, operation.subcode⟩ := by
  cases operation with
  | load register | store register => cases register <;> rfl
  | step target increment => cases target <;> cases increment <;> rfl
  | combine connective => cases connective <;> rfl
  | jump condition => cases condition <;> rfl
  | shift target direction => cases target <;> cases direction <;> rfl
  | shiftPair direction => cases direction <;> rfl
  | _ => rfl

theorem mnemonic_capital (operation : Operation) :
    operation.mnemonic.toList ≠ [] ∧ ∀ c ∈ operation.mnemonic.toList, c.isUpper = true := by
  have hall : ∀ m ∈ Mnemonic.table,
      m.spelling.toList ≠ [] ∧ m.spelling.toList.all Char.isUpper = true := by
    decide
  obtain ⟨hne, hupper⟩ := hall _ (List.mem_of_find?_eq_some operation.find?_mnemonic)
  exact ⟨hne, List.all_eq_true.mp hupper⟩

end Operation

namespace Instruction

/-- The operand as it is written. -/
def writtenOperand (i : Instruction) : Int :=
  if i.operation = .enterAccumulator then Word.toInt (Word.signExtend i.operand) else i.operand

/-- The arguments as they are written. -/
def arguments (i : Instruction) : List Char :=
  Arguments.enclose i.indirect
    (if i.operation.opcode.takesOperand then (Text.signedDecimal i.writtenOperand).toList else [])

def statement (i : Instruction) : Statement :=
  ⟨none, i.operation.mnemonic, i.indexed, String.ofList i.arguments⟩

theorem render_statement (i : Instruction) : i.statement.render = i.render := by
  have hoperand : (if i.operation = .enterAccumulator then
      Text.signedDecimal (Word.toInt (Word.signExtend i.operand)) else Text.decimal i.operand) =
        Text.signedDecimal i.writtenOperand := by
    unfold writtenOperand
    split
    · rfl
    · exact (Text.signedDecimal_natCast _).symm
  have hne := Text.signedDecimal_ne_nil i.writtenOperand
  have hshown (text : String) : toString text = text := rfl
  apply String.toList_inj.mp
  rw [Statement.toList_render rfl, render, hoperand]
  simp only [statement, Statement.tail, arguments, String.toList_ofList]
  by_cases htakes : i.operation.opcode.takesOperand = true <;>
    by_cases hindirect : i.indirect = true <;> by_cases hindexed : i.indexed = true <;>
      simp [Arguments.enclose, hne, hshown, htakes, hindirect, hindexed]

theorem toInt_signExtend {field : Nat} (h : field < 2 ^ 13) :
    Word.toInt (Word.signExtend field) =
      if field < 2 ^ 12 then (field : Int) else field - 2 ^ 13 := by
  have hoperand : Word.operand field = field := Nat.mod_eq_of_lt h
  by_cases hlow : field < 2 ^ 12
  · have hbit : Word.hasBit field 12 = false := by
      simp only [Word.hasBit, beq_eq_false_iff_ne]
      omega
    have hsign : Word.isNegative field = false := by
      simp only [Word.isNegative, Word.hasBit, beq_eq_false_iff_ne]
      omega
    have hword : Word.significant field = field := Nat.mod_eq_of_lt (by omega)
    rw [Word.signExtend, hbit, if_neg Bool.false_ne_true, hoperand, Word.toInt, hsign,
      if_neg Bool.false_ne_true, if_pos hlow, hword]
  · have hbit : Word.hasBit field 12 = true := by
      simp only [Word.hasBit, beq_iff_eq]
      omega
    have hsign : Word.isNegative (field + (2 ^ 20 - 2 ^ 13)) = true := by
      simp only [Word.isNegative, Word.hasBit, beq_iff_eq]
      omega
    have hword : Word.significant (field + (2 ^ 20 - 2 ^ 13)) = field + (2 ^ 20 - 2 ^ 13) :=
      Nat.mod_eq_of_lt (by omega)
    rw [Word.signExtend, if_pos hbit, hoperand, Word.toInt, if_pos hsign, if_neg hlow, hword]
    omega

/-- The operand as it is written can be read and has the bits of the field. -/
theorem writtenOperand_spec {i : Instruction} (h : i.operand < 2 ^ 13) :
    leastOperand ≤ i.writtenOperand ∧ i.writtenOperand ≤ greatestOperand ∧
      lowBits 13 i.writtenOperand = i.operand := by
  unfold writtenOperand leastOperand greatestOperand lowBits
  split
  · rw [toInt_signExtend h]
    split <;> omega
  · omega

theorem mem_arguments {i : Instruction} {c : Char} (h : c ∈ i.arguments) :
    c.isAlphanum = true ∨ c = '-' ∨ c = '(' ∨ c = ')' := by
  rcases Arguments.mem_enclose h with h | h
  · split at h
    · rcases Text.mem_signedDecimal h with h | h
      · exact .inl h
      · exact .inr (.inl h)
    · cases h
  · exact .inr (.inr h)

theorem plain_statement (i : Instruction) : i.statement.Plain where
  label := rfl
  named := i.operation.mnemonic_capital.1
  capital := i.operation.mnemonic_capital.2
  arguments := by
    intro c hc
    rw [statement, String.toList_ofList] at hc
    rcases mem_arguments hc with h | rfl | rfl | rfl
    · refine ⟨Text.isBlank_of_isAlphanum h, ?_, ?_⟩ <;>
      · rintro rfl
        cases h
    · decide
    · decide
    · decide

/-- The word for the text of an instruction. -/
def written (i : Instruction) : Nat :=
  Word.pack i.operation.opcode.code i.indirect i.indexed
    (if i.operation.opcode.takesOperand then i.operand else i.operation.subcode)

theorem bodyPlacements_statement {i : Instruction} (h : i.operand < 2 ^ 13) :
    i.statement.bodyPlacements = [.word i.written] := by
  obtain ⟨hleast, hgreatest, hbits⟩ := writtenOperand_spec h
  have hfind : Mnemonic.find? i.statement.mnemonic = _ := i.operation.find?_mnemonic
  cases hoperand : i.operation.opcode.takesOperand with
  | true =>
    have hread : Arguments.read i.statement.arguments.toList =
        .ok ⟨i.indirect, [.literal i.writtenOperand]⟩ := by
      rw [statement, String.toList_ofList, arguments, hoperand, if_pos rfl]
      apply Arguments.read_enclose i.indirect (Text.signedDecimal_ne_nil _)
      · intro c hc
        rcases Text.mem_signedDecimal hc with h | rfl
        · refine ⟨Text.isBlank_of_isAlphanum h, ?_, ?_⟩ <;>
          · rintro rfl
            cases h
        · decide
      · apply Text.readLiteral?_signedDecimal
        · exact Int.le_trans (by decide) hleast
        · exact Int.lt_of_le_of_lt hgreatest (by decide)
    simp only [Statement.bodyPlacements, hfind, hread, Statement.instructionPlacements, hoperand,
      if_pos (And.intro hleast hgreatest), hbits]
    rw [written, hoperand, if_pos rfl]
    rfl
  | false =>
    have hread : Arguments.read i.statement.arguments.toList = .ok ⟨i.indirect, []⟩ := by
      rw [statement, String.toList_ofList, arguments, hoperand, if_neg Bool.false_ne_true]
      exact Arguments.read_enclose_nil i.indirect
    simp only [Statement.bodyPlacements, hfind, hread, Statement.instructionPlacements, hoperand]
    rw [written, hoperand, if_neg Bool.false_ne_true]
    rfl

end Instruction

/-! ## The text of a word -/

namespace Disassembly

/-- The word for the text of a word. It differs only in an operand field that is not written, which
becomes the sub-code of the operation. -/
def canonical (w : Nat) : Nat :=
  match Instruction.decode w with
  | .ok i =>
    if i.operation.opcode.takesOperand then Word.significant w
    else Word.significant w / 2 ^ 13 * 2 ^ 13 + i.operation.subcode
  | .error _ => Word.significant w

/-- A memory as a program: a line that opens it, then the text of each cell on a line. -/
def source (header : String) (m : Memory) : String :=
  String.join ((header :: m.cells.toList.map word ++ ["END"]).map (· ++ "\n"))

theorem canonical_of_ok {w : Nat} {i : Instruction} (h : Instruction.decode w = .ok i) :
    i.written = canonical w := by
  obtain ⟨hcode, -, hfields⟩ := Instruction.decode_eq_ok h
  have hpack := Word.pack_fields w
  have hindirect : i.indirect = Word.isIndirect w := congrArg Instruction.indirect hfields
  have hindexed : i.indexed = Word.isIndexed w := congrArg Instruction.indexed hfields
  have hoperand : i.operand = Word.operand w := congrArg Instruction.operand hfields
  have hsubcode : i.operation.subcode < 2 ^ 13 :=
    Nat.lt_of_lt_of_le i.operation.subcode_lt (by decide)
  rw [Instruction.written, hcode, hindirect, hindexed, hoperand]
  simp only [canonical, h]
  split
  · exact hpack
  · have hlow : Word.operand w < 2 ^ 13 := Nat.mod_lt _ (by decide)
    unfold Word.pack at hpack ⊢
    omega

/-- The canonical word holds the same instruction, apart from an operand that does not count. -/
theorem decode_canonical (w : Nat) :
    (Instruction.decode (canonical w)).map (fun i => (i.operation, i.indirect, i.indexed)) =
      (Instruction.decode w).map fun i => (i.operation, i.indirect, i.indexed) := by
  cases h : Instruction.decode w with
  | error e => rw [canonical, h, Instruction.decode_significant, h]
  | ok i =>
    by_cases htakes : i.operation.opcode.takesOperand = true
    · rw [canonical, h]
      simp only [if_pos htakes, Instruction.decode_significant, h]
    · obtain ⟨-, hsubcode, -⟩ := Instruction.decode_eq_ok h
      rw [← canonical_of_ok h, Instruction.written, if_neg htakes,
        Instruction.decode_pack _ _ hsubcode]
      rfl

/-- A word as a hexadecimal constant. -/
def constant (w : Nat) : List Char :=
  '$' :: Text.alignRight '0' 5 (Text.numeral 16 (Word.significant w))

theorem mem_constant {w : Nat} {c : Char} (h : c ∈ constant w) : c.isAlphanum = true ∨ c = '$' := by
  rcases List.mem_cons.mp h with h | h
  · exact .inr h
  · exact .inl (Text.isAlphanum_of_mem_alignRight (by decide) (by decide) h)

/-- What the text of a word says. -/
def statement (w : Nat) : Statement :=
  match Instruction.decode w with
  | .ok i => i.statement
  | .error _ => ⟨none, "CON", false, String.ofList (constant w)⟩

theorem render_statement (w : Nat) : (statement w).render = word w := by
  unfold statement word
  cases Instruction.decode w with
  | ok i => exact i.render_statement
  | error e =>
    apply String.toList_inj.mp
    have hshown (text : String) : toString text = text := rfl
    rw [Statement.toList_render rfl]
    simp [Statement.tail, constant, hshown]

theorem mem_arguments {w : Nat} {c : Char} (h : c ∈ (statement w).arguments.toList) :
    c.isAlphanum = true ∨ c ∈ ['-', '(', ')', '$'] := by
  unfold statement at h
  split at h
  · next i hi =>
    rw [Instruction.statement, String.toList_ofList] at h
    rcases Instruction.mem_arguments h with h | rfl | rfl | rfl
    · exact .inl h
    all_goals exact .inr (by decide)
  · rw [String.toList_ofList] at h
    rcases mem_constant h with h | rfl
    · exact .inl h
    · exact .inr (by decide)

theorem plain_statement (w : Nat) : (statement w).Plain := by
  unfold statement
  split
  · exact Instruction.plain_statement _
  · refine ⟨rfl, ?_, ?_, fun c hc => ?_⟩
    · exact (by decide : "CON".toList ≠ [])
    · exact List.all_eq_true.mp (by decide : "CON".toList.all Char.isUpper = true)
    · rw [String.toList_ofList] at hc
      rcases mem_constant hc with h | rfl
      · refine ⟨Text.isBlank_of_isAlphanum h, ?_, ?_⟩ <;>
        · rintro rfl
          cases h
      · decide

theorem bodyPlacements_constant (w : Nat) :
    Statement.bodyPlacements ⟨none, "CON", false, String.ofList (constant w)⟩ =
      [.word (Word.significant w)] := by
  have hlt : Word.significant w < 2 ^ 20 := Nat.mod_lt _ (by decide)
  have hread : Arguments.read (String.ofList (constant w)).toList =
      .ok ⟨false, [.literal (Word.significant w)]⟩ := by
    rw [String.toList_ofList]
    apply Arguments.read_enclose false (List.cons_ne_nil _ _)
    · intro c hc
      rcases mem_constant hc with h | rfl
      · refine ⟨Text.isBlank_of_isAlphanum h, ?_, ?_⟩ <;>
        · rintro rfl
          cases h
      · decide
    · exact Text.readLiteral?_hexadecimal 5 (Nat.lt_of_lt_of_le hlt (by decide))
  have hdirect : Arguments.unwrap? (String.ofList (constant w)).toList = none := by
    rw [String.toList_ofList]
    rfl
  have hfind : Mnemonic.find? "CON" = none := by decide
  have hdirective : Directive.ofMnemonic? "CON" = some .constants := rfl
  have hbits : lowBits 20 (Word.significant w : Int) = Word.significant w := by
    unfold lowBits
    omega
  simp only [Statement.bodyPlacements, hfind, hdirective, hdirect, Statement.directivePlacements,
    hread]
  simp [Statement.constantPlacements, hbits]

theorem mem_word {w : Nat} {c : Char} (h : c ∈ (word w).toList) :
    c.isAlphanum = true ∨ c ∈ ['-', '(', ')', '$', ',', ' '] := by
  have hplain := plain_statement w
  rw [← render_statement, Statement.toList_render hplain.label] at h
  rcases hplain.mem_text h with h | rfl | rfl | h
  · exact .inl (Statement.isAlphanum_of_isUpper h)
  · exact .inr (by decide)
  · exact .inr (by decide)
  · rcases mem_arguments h with h | h
    · exact .inl h
    · exact .inr (List.mem_append_left [',', ' '] h)

theorem placementsOfLine_word (w : Nat) :
    placementsOfLine (word w).toList =
      [.within (statement w).mnemonic, .word (canonical w)] := by
  have hplain := plain_statement w
  have hbody : (statement w).bodyPlacements = [.word (canonical w)] := by
    unfold statement
    cases h : Instruction.decode w with
    | ok i =>
      obtain ⟨-, -, hfields⟩ := Instruction.decode_eq_ok h
      have hlow : i.operand < 2 ^ 13 := by
        rw [hfields]
        exact Nat.mod_lt _ (by decide)
      rw [← canonical_of_ok h]
      exact Instruction.bodyPlacements_statement hlow
    | error e =>
      rw [canonical, h]
      exact bodyPlacements_constant w
  have hname : (statement w).mnemonic ≠ "NAM" := by
    unfold statement
    split
    · next i hi =>
      intro hname
      have hfind := i.operation.find?_mnemonic
      rw [show i.operation.mnemonic = "NAM" from hname] at hfind
      cases hfind
    · exact (by decide : "CON" ≠ "NAM")
  rw [placementsOfLine, ← render_statement, hplain.read_render]
  simp only [Statement.placements, if_neg hname, hplain.label, hbody]
  rfl

end Disassembly

/-! ## Programs -/

/-- A line that opens a program. -/
def OpensProgram (line : List Char) : Prop :=
  '\n' ∉ line ∧
    ∃ name, name ≠ "" ∧ placementsOfLine (Text.dropFinalReturn line) = [.openProgram name]

theorem opensProgram_name {name : String} (hne : name ≠ "")
    (hname : ∀ c ∈ name.toList, c.isAlphanum = true ∨ c = '_') :
    OpensProgram ("NAM " ++ name).toList := by
  have hplain : Statement.Plain ⟨none, "NAM", false, name⟩ := by
    refine ⟨rfl, (by decide : "NAM".toList ≠ []), ?_, fun c hc => ?_⟩
    · exact List.all_eq_true.mp (by decide : "NAM".toList.all Char.isUpper = true)
    · rcases hname c hc with h | rfl
      · refine ⟨Text.isBlank_of_isAlphanum h, ?_, ?_⟩ <;>
        · rintro rfl
          cases h
      · decide
  have hfilled : name.toList ≠ [] := fun h => hne (String.toList_eq_nil_iff.mp h)
  have htext : ("NAM " ++ name).toList = (Statement.render ⟨none, "NAM", false, name⟩).toList := by
    rw [Statement.toList_render rfl, Statement.tail, if_neg hfilled]
    simp
  have hbreak (c : Char) (hc : c ∈ ("NAM " ++ name).toList) : c ≠ '\n' ∧ c ≠ '\r' := by
    rw [String.toList_append] at hc
    rcases List.mem_append.mp hc with hc | hc
    · have hall : "NAM ".toList.all (fun c => c ≠ '\n' ∧ c ≠ '\r') = true := by decide
      exact of_decide_eq_true (List.all_eq_true.mp hall c hc)
    · rcases hname c hc with h | rfl
      · constructor <;>
        · rintro rfl
          cases h
      · decide
  have hdirect : Arguments.unwrap? name.toList = none := by
    have hopening : '(' ∉ name.toList := fun hmem => by
      rcases hname '(' hmem with h | h <;> cases h
    have hbare : Arguments.unwrap? (Arguments.enclose false name.toList) = none :=
      Arguments.unwrap?_enclose hopening
    exact hbare
  refine ⟨fun hmem => (hbreak _ hmem).1 rfl, name, hne, ?_⟩
  rw [Text.dropFinalReturn_of_notMem fun hmem => (hbreak _ hmem).2 rfl, htext, placementsOfLine,
    hplain.read_render]
  have hfind : Mnemonic.find? "NAM" = none := by decide
  have hdirective : Directive.ofMnemonic? "NAM" = some .programName := rfl
  simp [Statement.placements, Statement.bodyPlacements, hfind, hdirective, hdirect,
    Statement.directivePlacements]

theorem assemble_of_leads {source : String} {d : Draft}
    (hleads : Draft.initial.Leads (placementsOfSource source) d) (hclosed : d.program = none)
    (hsettled : d.references = #[]) : assemble source = .ok d.memory := by
  unfold Draft.Leads at hleads
  unfold assemble Assembly.run
  cases hplaced : Draft.initial.performAll #[] (placementsOfSource source) with
  | mk records result =>
    rw [hplaced] at hleads
    obtain rfl : result = .ok d := hleads
    simp only [hclosed, Assembly.finish, hsettled]
    rfl

namespace Disassembly

theorem leads_cells {cells : List Nat} {d : Draft} {name : String} (line : Nat)
    (hopen : d.program = some name) (hcursor : d.cursor = d.memory.size)
    (hfits : d.memory.size + cells.length ≤ Word.addressSpace) :
    d.Leads (((cells.map fun w => (word w).toList).zipIdx line).flatMap fun (text, number) =>
        (placementsOfLine text).map (number, ·))
      { d with
        memory := ⟨d.memory.cells ++ (cells.map canonical).toArray⟩
        cursor := d.memory.size + cells.length } := by
  induction cells generalizing d line with
  | nil =>
    obtain ⟨cursor, memory, symbols, references, program⟩ := d
    obtain rfl : cursor = memory.size := hcursor
    rw [List.map_nil, List.zipIdx_nil, List.flatMap_nil, Draft.leads_nil]
    simp
  | cons w cells ih =>
    rw [List.length_cons] at hfits
    have hnext := ih (d := { d with
        memory := ⟨d.memory.cells.push (canonical w)⟩, cursor := d.memory.size + 1 })
      (line + 1) hopen (by simp [Memory.size]) (by simp [Memory.size] at hfits ⊢; omega)
    have hwithin : d.perform line (.within (statement w).mnemonic) = .ok (d, none) := by
      rw [Draft.perform, hopen]
      rfl
    rw [List.map_cons, List.zipIdx_cons, List.flatMap_cons, Draft.leads_append]
    simp only [placementsOfLine_word]
    refine ⟨_, Draft.leads_cons.mpr ⟨d, none, hwithin, Draft.leads_word.mpr ⟨by omega, rfl⟩⟩, ?_⟩
    rw [hcursor, Memory.store_size]
    have hlength : d.memory.cells.size + 1 + cells.length =
        d.memory.cells.size + (cells.length + 1) := by
      omega
    simpa [Memory.size, hlength] using hnext

theorem lines_source {header : String} (m : Memory) (h : '\n' ∉ header.toList) :
    Text.lines (source header m).toList = Text.dropFinalReturn header.toList ::
      (m.cells.toList.map (fun w => (word w).toList) ++ ["END".toList]) := by
  have htext : (source header m).toList = header.toList ++ '\n' ::
      ((m.cells.toList.map (fun w => (word w).toList) ++ ["END".toList]).flatMap (· ++ ['\n']) ++
        []) := by
    simp [source, String.toList_join, List.flatMap_map]
  rw [htext, Text.lines_append_cons h, Text.lines_flatMap, Text.lines_nil, List.append_nil]
  intro text htext
  rcases List.mem_append.mp htext with hcell | hend
  · obtain ⟨w, -, rfl⟩ := List.mem_map.mp hcell
    constructor <;>
    · intro hbreak
      rcases mem_word hbreak with hc | hc
      · cases hc
      · exact absurd hc (by decide)
  · rw [List.mem_singleton.mp hend]
    decide

theorem leads_source {header : String} {m : Memory} (hheader : OpensProgram header.toList)
    (hsize : m.size ≤ 2 ^ 13) :
    Draft.initial.Leads (placementsOfSource (source header m))
      { memory := ⟨m.cells.map canonical⟩, cursor := m.size } := by
  obtain ⟨hline, name, hname, hopens⟩ := hheader
  have hfilled : name.isEmpty = false := by
    rw [← Bool.not_eq_true, String.isEmpty_iff]
    exact hname
  have hopen : Draft.initial.perform 1 (.openProgram name) =
      .ok ({ program := some name },
        assemblyRecord .debug "program opened" [("name", name), ("line", Text.decimal 1)]) := by
    simp only [Draft.perform, Draft.initial, hfilled, Bool.false_eq_true, if_false]
  have hend : placementsOfLine "END".toList = [.within "END", .closeProgram] := by decide
  have hfits : Memory.empty.size + m.cells.toList.length ≤ Word.addressSpace := by
    simpa [Memory.empty, Memory.size, Word.addressSpace] using hsize
  have hcells := leads_cells (d := { program := some name }) 2 rfl rfl hfits
  have hmade : (m.cells.toList.map canonical).toArray = m.cells.map canonical := by
    apply Array.ext'
    rw [Array.toList_map]
  rw [placementsOfSource, lines_source m hline, List.zipIdx_cons, List.flatMap_cons,
    List.zipIdx_append, List.flatMap_append]
  simp only [hopens, List.zipIdx_cons, List.zipIdx_nil, List.flatMap_cons, List.flatMap_nil, hend,
    List.map_cons, List.map_nil, List.append_nil, List.singleton_append]
  refine Draft.leads_cons.mpr ⟨_, _, hopen, Draft.leads_append.mpr ⟨_, hcells, ?_⟩⟩
  refine Draft.leads_cons.mpr ⟨_, none, rfl, Draft.leads_cons.mpr ⟨_, none, rfl, ?_⟩⟩
  rw [Draft.leads_nil]
  simp [Memory.empty, Memory.size, hmade]

/-- A memory that fits the address space is written as a program that is assembled to the canonical
words. These hold the same instructions, and no text of a word has an unknown mnemonic. -/
theorem assemble_disassembled (header : String) (m : Memory)
    (hheader : OpensProgram header.toList) (hsize : m.size ≤ 2 ^ 13) :
    assemble (source header m) = .ok ⟨m.cells.map canonical⟩ ∧
      ∀ w,
        (Instruction.decode (canonical w)).map (fun i => (i.operation, i.indirect, i.indexed)) =
          (Instruction.decode w).map (fun i => (i.operation, i.indirect, i.indexed)) ∧
        '?' ∉ (word w).toList := by
  refine ⟨assemble_of_leads (leads_source hheader hsize) rfl rfl, fun w => ?_⟩
  refine ⟨decode_canonical w, fun hmark => ?_⟩
  rcases mem_word hmark with hc | hc
  · cases hc
  · exact absurd hc (by decide)

/-- The program of three cells: an instruction with an operand that does not count, a word that is
no instruction, and an instruction with bits above bit 19. -/
theorem assemble_disassembled_mixed :
    OpensProgram "NAM T".toList ∧ (Memory.ofList [335880, 327686, 2 ^ 20 + 32775]).size ≤ 2 ^ 13 ∧
      assemble (source "NAM T" (.ofList [335880, 327686, 2 ^ 20 + 32775])) =
        .ok (.ofList [335872, 327686, 32775]) := by
  have hname : ∀ c ∈ "T".toList, c.isAlphanum = true ∨ c = '_' := fun c hc => by
    rw [List.mem_singleton.mp hc]
    decide
  have hheader : OpensProgram ("NAM " ++ "T").toList := opensProgram_name (by decide) hname
  have hsize : (Memory.ofList [335880, 327686, 2 ^ 20 + 32775]).size ≤ 2 ^ 13 := by decide
  have hcells : (Memory.ofList [335880, 327686, 2 ^ 20 + 32775]).cells.map canonical =
      #[335872, 327686, 32775] := by
    decide +kernel
  refine ⟨hheader, hsize, ?_⟩
  rw [(assemble_disassembled "NAM T" _ hheader hsize).1, hcells]
  rfl

end Disassembly

end TrnComputer
