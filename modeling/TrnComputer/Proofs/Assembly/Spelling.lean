import TrnComputer.Proofs.Assembly.Grammar
import TrnComputer.Proofs.Assembly.Outlines

/-! # Sources in capitals

Capitals change nothing but the texts that faults show and the names of programs.

* `Arguments.read_capitals`: the same arguments are read.
* `Statement.read_capitals`: the same statement is read, with its arguments in capitals.
* `essenceOfLine_capitals`: a line has the same placements, but for those texts.
-/

namespace TrnComputer
set_option autoImplicit false

/-! ## Arguments -/

theorem capitals_map (s : List Char) : capitals (s.map Char.toUpper) = capitals s := by
  rw [← capitals_toList, capitals_capitals]

theorem LabelSum.readTerm_capitals (whole whole' term : List Char) :
    (readTerm whole' (term.map Char.toUpper)).toOption = (readTerm whole term).toOption := by
  have hdigit : (term.map Char.toUpper).head?.any Char.isDigit = term.head?.any Char.isDigit := by
    cases term with
    | nil => rfl
    | cons c rest => exact Text.isDigit_toUpper c
  rw [readTerm, readTerm, Text.readSigned?_capitals, hdigit, isIdentifier_capitals, capitals_map]
  repeat' split
  all_goals rfl

theorem LabelSum.read_capitals (text : List Char) :
    (read (text.map Char.toUpper)).toOption = (read text).toOption := by
  have hread (text : List Char) : (read text).toOption =
      ((Text.split '+' text).mapM fun term =>
        (readTerm text (Text.trim term)).toOption).map ofTerms := by
    rw [read, ← toOption_mapM]
    cases (Text.split '+' text).mapM fun term => readTerm text (Text.trim term) <;> rfl
  rw [hread, hread, Text.split_capitals text (by decide), List.mapM_map]
  congr 2
  funext term
  rw [Function.comp_apply, Text.trim_capitals, readTerm_capitals]

namespace Arguments

theorem readOne_capitals (sole : Bool) (text : List Char) :
    (readOne sole (text.map Char.toUpper)).toOption = (readOne sole text).toOption := by
  have hstart : ((text.map Char.toUpper).head?.any fun c => !c.isDigit && c != '$') =
      text.head?.any fun c => !c.isDigit && c != '$' := by
    cases text with
    | nil => rfl
    | cons c rest =>
      have hdollar : (c.toUpper != '$') = (c != '$') := by
        rw [Bool.eq_iff_iff, bne_iff_ne, bne_iff_ne, ne_eq, Text.toUpper_eq_iff c (by decide)]
      simp only [List.map_cons, List.head?_cons, Option.any_some, Text.isDigit_toUpper, hdollar]
  rw [readOne, readOne, Text.readLiteral?_capitals, hstart]
  split
  · rfl
  · split
    · have hsum := LabelSum.read_capitals text
      cases hcapitals : LabelSum.read (text.map Char.toUpper) <;>
        cases hread : LabelSum.read text <;>
        rw [hcapitals, hread] at hsum <;> cases hsum <;> rfl
    · rfl

theorem unwrap?_capitals (text : List Char) :
    unwrap? (text.map Char.toUpper) = (unwrap? text).map (·.map Char.toUpper) := by
  have hsign (c? : Option Char) {sign : Char} (hsign : sign.isAlpha = false) :
      c?.map Char.toUpper = some sign ↔ c? = some sign := by
    cases c? with
    | none => simp
    | some c => simp [Text.toUpper_eq_iff c hsign]
  rw [unwrap?, unwrap?, List.head?_map, List.getLast?_map, ← List.map_tail, ← List.map_dropLast]
  simp only [hsign _ (by decide : '('.isAlpha = false), hsign _ (by decide : ')'.isAlpha = false)]
  split <;> rfl

theorem pieces_capitals {separator : Char} (h : separator.isAlpha = false) (text : List Char) :
    pieces separator (text.map Char.toUpper) =
      (pieces separator text).map (·.map Char.toUpper) := by
  rw [pieces, pieces, Text.split_capitals text h, List.map_map, List.map_map]
  congr 1
  funext piece
  exact Text.trim_capitals piece

theorem inside_capitals {text rest : List Char} {indirect : Bool} (h : Inside text indirect rest) :
    Inside (text.map Char.toUpper) indirect (rest.map Char.toUpper) := by
  have hunwrap := unwrap?_capitals (Text.trim text)
  rw [← Text.trim_capitals] at hunwrap
  cases h with
  | bare h =>
    rw [← Text.trim_capitals]
    refine .bare fun inner hinner => ?_
    rw [unwrap?_eq_some_iff.mpr hinner] at hunwrap
    obtain ⟨found, hfound, -⟩ := Option.map_eq_some_iff.mp hunwrap.symm
    exact h found (unwrap?_eq_some_iff.mp hfound)
  | @enclosed inner h =>
    rw [unwrap?_eq_some_iff.mpr h] at hunwrap
    rw [← Text.trim_capitals]
    exact .enclosed (unwrap?_eq_some_iff.mp hunwrap)

theorem toOption_read {text rest : List Char} {indirect : Bool} (h : Inside text indirect rest) :
    (read text).toOption = if rest = [] then some ⟨indirect, []⟩
      else ((pieces ',' rest).mapM fun piece =>
        (readOne ((pieces ',' rest).length == 1) piece).toOption).map (⟨indirect, ·⟩) := by
  rw [read_of_inside h, ← toOption_mapM]
  split
  · rfl
  · cases (pieces ',' rest).mapM (readOne ((pieces ',' rest).length == 1)) <;> rfl

theorem read_capitals (text : List Char) :
    (read (text.map Char.toUpper)).toOption = (read text).toOption := by
  obtain ⟨indirect, rest, hinside⟩ := exists_inside text
  have hpiece (sole : Bool) :
      (fun piece => (readOne sole piece).toOption) ∘ (·.map Char.toUpper) =
        fun piece => (readOne sole piece).toOption :=
    funext fun piece => readOne_capitals sole piece
  rw [toOption_read (inside_capitals hinside), toOption_read hinside,
    pieces_capitals (by decide), List.length_map, List.mapM_map, hpiece]
  simp only [List.map_eq_nil_iff]

end Arguments

/-! ## Statements -/

theorem stripComment_capitals (s : List Char) :
    stripComment (s.map Char.toUpper) = (stripComment s).map Char.toUpper := by
  fun_induction stripComment s with
  | case1 => rfl
  | case2 rest => rfl
  | case3 c rest hfree ih =>
    rw [List.map_cons, List.map_cons, stripComment, ih]
    intro after hc hrest
    have hslash : c = '/' := (Text.toUpper_eq_iff c (by decide)).mp hc
    cases rest with
    | nil => cases hrest
    | cons d more =>
      have hnext : d = '/' := (Text.toUpper_eq_iff d (by decide)).mp (List.cons.inj hrest).1
      exact hfree more hslash (hnext ▸ rfl)

namespace Statement

/-- The statement with its arguments in capitals. -/
def raised (s : Statement) : Statement := { s with arguments := capitals s.arguments.toList }

theorem splitLabel_capitals (line : List Char) :
    (splitLabel (line.map Char.toUpper)).toOption =
      (splitLabel line).toOption.map fun found => (found.1, found.2.map Char.toUpper) := by
  have hcolon : (fun c : Char => c != ':') ∘ Char.toUpper = fun c => c != ':' := by
    funext c
    rw [Function.comp_apply, Bool.eq_iff_iff, bne_iff_ne, bne_iff_ne, ne_eq,
      Text.toUpper_eq_iff c (by decide)]
  have hblank : Text.isBlank ∘ Char.toUpper = Text.isBlank := funext Text.isBlank_toUpper
  rw [splitLabel, splitLabel, List.dropWhile_map, List.takeWhile_map, hcolon]
  cases line.dropWhile (· != ':') with
  | nil => rfl
  | cons c rest =>
    simp only [List.map_cons, Text.trim_capitals, isIdentifier_capitals, capitals_map,
      Text.trimStart_capitals, List.isEmpty_map, List.any_map, hblank]
    repeat' split
    all_goals rfl

theorem toUpper_eq_modifier_iff (c : Char) : c.toUpper = 'I' ↔ c = 'I' ∨ c = 'i' := by
  constructor
  · exact Text.toUpper_cases (p := fun c d => d = 'I' → c = 'I' ∨ c = 'i') (fun _ h => .inl h)
      (by decide) c
  · rintro (rfl | rfl) <;> decide

theorem splitModifier_cons (c d : Char) (rest : List Char) :
    splitModifier (c :: d :: rest) =
      if c = ',' ∧ d.toUpper = 'I' then (true, rest) else (false, c :: d :: rest) := by
  simp only [toUpper_eq_modifier_iff]
  unfold splitModifier
  split
  · next heq =>
    cases heq
    rfl
  · next heq =>
    cases heq
    rfl
  · next hcapital hsmall =>
    rw [if_neg]
    rintro ⟨rfl, rfl | rfl⟩
    · exact hcapital rest rfl
    · exact hsmall rest rfl

theorem splitModifier_singleton (c : Char) : splitModifier [c] = (false, [c]) := by
  unfold splitModifier
  split
  · next heq => cases heq
  · next heq => cases heq
  · rfl

theorem splitModifier_capitals (text : List Char) :
    splitModifier (text.map Char.toUpper) =
      ((splitModifier text).1, (splitModifier text).2.map Char.toUpper) := by
  match text with
  | [] => rfl
  | [c] =>
    rw [List.map_cons, List.map_nil, splitModifier_singleton, splitModifier_singleton]
    rfl
  | c :: d :: rest =>
    simp only [List.map_cons, splitModifier_cons, Text.toUpper_toUpper,
      Text.toUpper_eq_iff c (by decide : ','.isAlpha = false)]
    split <;> rfl

theorem readInstruction_capitals (label : Option String) (text : List Char) :
    (readInstruction label (text.map Char.toUpper)).toOption =
      (readInstruction label text).toOption.map raised := by
  have halpha : Char.isAlpha ∘ Char.toUpper = Char.isAlpha := funext Text.isAlpha_toUpper
  have hblank (rest : List Char) :
      (rest.map Char.toUpper).head?.all Text.isBlank = rest.head?.all Text.isBlank := by
    cases rest with
    | nil => rfl
    | cons c rest => exact Text.isBlank_toUpper c
  simp only [readInstruction, List.takeWhile_map, List.dropWhile_map, halpha, List.isEmpty_map,
    capitals_map, splitModifier_capitals, hblank, Text.trim_capitals]
  split
  · cases label <;> rfl
  · split
    · simp [Except.toOption, raised, capitals]
    · rfl

theorem read_capitals (line : List Char) :
    (read (line.map Char.toUpper)).toOption = (read line).toOption.map (Option.map raised) := by
  have hread (text : List Char) : (read text).toOption =
      if (Text.trim (stripComment text)).isEmpty then some none
      else ((splitLabel (Text.trim (stripComment text))).toOption.bind fun found =>
        (readInstruction found.1 found.2).toOption).map some := by
    rw [read]
    split
    · rfl
    · cases splitLabel (Text.trim (stripComment text)) with
      | error fault => rfl
      | ok found =>
        obtain ⟨label, rest⟩ := found
        dsimp only [Except.toOption, Option.bind_some]
        cases readInstruction label rest <;> rfl
  rw [hread, hread, stripComment_capitals, Text.trim_capitals, List.isEmpty_map,
    splitLabel_capitals]
  split
  · rfl
  · cases (splitLabel (Text.trim (stripComment line))).toOption with
    | none => rfl
    | some found =>
      rw [Option.map_some, Option.bind_some, Option.bind_some, readInstruction_capitals]
      cases (readInstruction found.1 found.2).toOption <;> rfl

end Statement

/-! ## Placements -/

namespace Statement

variable (s : Statement)

theorem toList_raised : s.raised.arguments.toList = s.arguments.toList.map Char.toUpper :=
  capitals_toList _

/-- The arguments of a statement are read in capitals as they are. -/
theorem read_raised :
    (∃ arguments, Arguments.read s.raised.arguments.toList = .ok arguments ∧
      Arguments.read s.arguments.toList = .ok arguments) ∨
    ∃ fault fault', Arguments.read s.raised.arguments.toList = .error fault ∧
      Arguments.read s.arguments.toList = .error fault' := by
  have hsame := Arguments.read_capitals s.arguments.toList
  rw [← toList_raised] at hsame
  cases hraised : Arguments.read s.raised.arguments.toList with
  | error fault =>
    cases hread : Arguments.read s.arguments.toList with
    | error fault' => exact .inr ⟨fault, fault', rfl, rfl⟩
    | ok arguments =>
      rw [hraised, hread] at hsame
      cases hsame
  | ok arguments =>
    cases hread : Arguments.read s.arguments.toList with
    | error fault' =>
      rw [hraised, hread] at hsame
      cases hsame
    | ok found =>
      rw [hraised, hread] at hsame
      cases hsame
      exact .inl ⟨arguments, rfl, rfl⟩

theorem essence_instruction (m : Mnemonic) (arguments : Arguments) :
    (s.raised.instructionPlacements m arguments).map Placement.essence =
      (s.instructionPlacements m arguments).map Placement.essence := by
  simp only [instructionPlacements]
  split
  · split
    · split <;> rfl
    · rfl
    · rfl
    · rfl
  · split <;> rfl

theorem essence_literal (place : Int → Placement) :
    (s.raised.literalPlacement place).essence = (s.literalPlacement place).essence := by
  obtain ⟨arguments, hraised, hread⟩ | ⟨fault, fault', hraised, hread⟩ := s.read_raised
  · rw [literalPlacement, literalPlacement, hraised, hread]
    split <;> rfl
  · rw [literalPlacement, literalPlacement, hraised, hread]
    rfl

theorem essence_directive (directive : Directive) :
    (s.raised.directivePlacements directive).map Placement.essence =
      (s.directivePlacements directive).map Placement.essence := by
  cases directive with
  | programEnd | ignored => rfl
  | programName =>
    have hempty : s.raised.arguments.isEmpty = s.arguments.isEmpty := by
      rw [Bool.eq_iff_iff, String.isEmpty_iff, String.isEmpty_iff, ← String.toList_eq_nil_iff,
        ← String.toList_eq_nil_iff, toList_raised, List.map_eq_nil_iff]
    simp only [directivePlacements, List.map_cons, List.map_nil, Placement.essence, hempty]
  | constants =>
    obtain ⟨arguments, hraised, hread⟩ | ⟨fault, fault', hraised, hread⟩ := s.read_raised
    · simp only [directivePlacements, hraised, hread]
      split <;> rfl
    · simp only [directivePlacements, hraised, hread]
      rfl
  | reserve => exact congrArg ([·]) (s.essence_literal .reserve)
  | origin => exact congrArg ([·]) (s.essence_literal .origin)

theorem essence_body :
    s.raised.bodyPlacements.map Placement.essence = s.bodyPlacements.map Placement.essence := by
  have hunwrap : (Arguments.unwrap? s.raised.arguments.toList).isSome =
      (Arguments.unwrap? s.arguments.toList).isSome := by
    rw [toList_raised, Arguments.unwrap?_capitals, Option.isSome_map]
  have hmnemonic : s.raised.mnemonic = s.mnemonic := rfl
  have hindexed : s.raised.indexed = s.indexed := rfl
  simp only [bodyPlacements, hunwrap, hmnemonic, hindexed]
  split
  · obtain ⟨arguments, hraised, hread⟩ | ⟨fault, fault', hraised, hread⟩ := s.read_raised
    · simp only [hraised, hread, essence_instruction]
    · simp only [hraised, hread]
      rfl
  · split
    · rfl
    · split
      · rfl
      · exact s.essence_directive _

theorem essence_placements :
    s.raised.placements.map Placement.essence = s.placements.map Placement.essence := by
  simp only [placements, List.map_append, essence_body]
  rfl

end Statement

theorem essenceOfLine_capitals (text : List Char) :
    essenceOfLine (text.map Char.toUpper) = essenceOfLine text := by
  have hessence (text : List Char) : essenceOfLine text =
      (Statement.read text).toOption.elim [.reject (.missingArgument "")] fun found =>
        found.elim [] fun s => s.placements.map Placement.essence := by
    rw [essenceOfLine, placementsOfLine]
    cases Statement.read text with
    | error fault => rfl
    | ok found => cases found <;> rfl
  rw [hessence, hessence, Statement.read_capitals]
  cases (Statement.read text).toOption with
  | none => rfl
  | some found =>
    cases found with
    | none => rfl
    | some s => exact s.essence_placements

end TrnComputer
