import TrnComputer.Proofs.Assembly.Margins
import TrnComputer.Proofs.Text.Capitals

/-! # Statements as they are written and read

* `Statement.Printable`: a statement that can be written on a line.
* `Statement.readInstruction_text`, `Statement.Printable.read_text`: a printable statement is read
  as it was written, with its label and its mnemonic in capitals.
* `Statement.splitLabel_eq_ok`, `Statement.readInstruction_eq_ok`: the parts of a line that is read.
* `Statement.printable_of_read`: what is read is printable.
* `Statement.reading_undoes_rendering`: reading is the inverse of writing.
-/

namespace TrnComputer
set_option autoImplicit false

/-! ## Letters -/

section
variable {c : Char} {s : List Char}

theorem isAlphanum_of_isAlpha (h : c.isAlpha = true) : c.isAlphanum = true := by
  have hkind : c.isAlphanum = (c.isAlpha || c.isDigit) := rfl
  rw [hkind, h, Bool.true_or]

/-- Letters, digits and underscores are neither blank nor signs. -/
theorem isBlank_of_wordy (h : (c.isAlphanum || c == '_') = true) : Text.isBlank c = false := by
  rcases Bool.or_eq_true _ _ ▸ h with hkind | hline
  · exact Text.isBlank_of_isAlphanum hkind
  · rw [eq_of_beq hline]
    decide

theorem ne_of_wordy {sign : Char} (h : (c.isAlphanum || c == '_') = true)
    (hsign : (sign.isAlphanum || sign == '_') = false) : c ≠ sign := by
  rintro rfl
  rw [h] at hsign
  cases hsign

theorem wordy_of_isAlpha (h : c.isAlpha = true) : (c.isAlphanum || c == '_') = true := by
  rw [isAlphanum_of_isAlpha h, Bool.true_or]

theorem isIdentifier_cons : isIdentifier (c :: s) = true ↔
    (c.isAlpha || c == '_') = true ∧ ∀ d ∈ s, (d.isAlphanum || d == '_') = true := by
  rw [isIdentifier, Bool.and_eq_true, List.all_eq_true]

theorem wordy_of_isIdentifier (h : isIdentifier s = true) :
    ∀ c ∈ s, (c.isAlphanum || c == '_') = true := by
  intro c hc
  cases s with
  | nil => cases hc
  | cons first rest =>
    obtain ⟨hfirst, hrest⟩ := isIdentifier_cons.mp h
    obtain rfl | hc := List.mem_cons.mp hc
    · rcases Bool.or_eq_true _ _ ▸ hfirst with halpha | hline
      · exact wordy_of_isAlpha halpha
      · rw [hline, Bool.or_true]
    · exact hrest c hc

theorem isIdentifier_capitals (s : List Char) :
    isIdentifier (s.map Char.toUpper) = isIdentifier s := by
  have hline (c : Char) : (c.toUpper == '_') = (c == '_') := by
    rw [Bool.eq_iff_iff, beq_iff_eq, beq_iff_eq]
    exact Text.toUpper_eq_iff c (by decide)
  have hwordy : (fun c : Char => c.isAlphanum || c == '_') ∘ Char.toUpper =
      fun c => c.isAlphanum || c == '_' := by
    funext c
    rw [Function.comp_apply, Text.isAlphanum_toUpper, hline]
  cases s with
  | nil => rfl
  | cons c s =>
    rw [List.map_cons, isIdentifier, isIdentifier, Text.isAlpha_toUpper, hline, List.all_map,
      hwordy]

theorem capitals_toList (s : List Char) : (capitals s).toList = s.map Char.toUpper :=
  String.toList_ofList

theorem capitals_capitals (s : List Char) : capitals (capitals s).toList = capitals s := by
  rw [capitals_toList, capitals, List.map_map, capitals]
  congr 2
  funext c
  exact Text.toUpper_toUpper c

end

namespace Statement

/-! ## Statements on a line -/

/-- A statement that can be written on a line: its label is an identifier, its mnemonic is a word
of letters, and its arguments have neither blanks at their ends nor a line end or a comment inside.
Without a label they do not begin with a colon. -/
structure Printable (s : Statement) : Prop where
  label : ∀ name, s.label = some name → isIdentifier name.toList = true
  named : s.mnemonic.toList ≠ []
  letters : ∀ c ∈ s.mnemonic.toList, c.isAlpha = true
  trimmed : Text.trim s.arguments.toList = s.arguments.toList
  oneLine : '\n' ∉ s.arguments.toList
  uncommented : ¬Commented s.arguments.toList
  colon : s.label = none → s.arguments.toList.head? ≠ some ':'

/-- The statement with its label and its mnemonic in capitals. -/
def capitalized (s : Statement) : Statement :=
  { s with
    label := s.label.map fun name => capitals name.toList
    mnemonic := capitals s.mnemonic.toList }

/-- What is written in front of the mnemonic. -/
def heading (s : Statement) : List Char :=
  s.label.elim [] fun name => name.toList ++ [':', ' ']

def modifier (s : Statement) : List Char := if s.indexed then [',', 'I'] else []

/-- What is written between the mnemonic and the arguments. -/
def gap (s : Statement) : List Char := if s.arguments.toList = [] then [] else [' ']

theorem text_render (s : Statement) :
    s.render.toList =
      s.heading ++ (s.mnemonic.toList ++ (s.modifier ++ (s.gap ++ s.arguments.toList))) := by
  have hempty : s.arguments.isEmpty = decide (s.arguments.toList = []) := by
    rw [Bool.eq_iff_iff, String.isEmpty_iff, decide_eq_true_eq, String.toList_eq_nil_iff]
  rw [render, heading, modifier, gap, hempty]
  cases s.label <;> cases s.indexed <;> by_cases hnone : s.arguments.toList = [] <;> simp [hnone]

section
variable {s : Statement}

theorem mem_heading {c : Char} (hlabel : ∀ name, s.label = some name → isIdentifier name.toList)
    (h : c ∈ s.heading) : (c.isAlphanum || c == '_') = true ∨ c = ':' ∨ c = ' ' := by
  unfold heading at h
  cases hname : s.label with
  | none =>
    rw [hname] at h
    cases h
  | some name =>
    rw [hname] at h
    rcases List.mem_append.mp h with hword | hend
    · exact .inl (wordy_of_isIdentifier (hlabel name hname) c hword)
    · exact .inr (by simpa using hend)

theorem mem_modifier {c : Char} (h : c ∈ s.modifier) : c = ',' ∨ c = 'I' := by
  unfold modifier at h
  split at h
  · simpa using h
  · cases h

theorem mem_gap {c : Char} (h : c ∈ s.gap) : c = ' ' := by
  unfold gap at h
  split at h
  · cases h
  · exact List.mem_singleton.mp h

/-- In front of the arguments no line ends and no comment begins. -/
theorem Printable.mem_front (h : s.Printable) {c : Char}
    (hc : c ∈ s.heading ++ (s.mnemonic.toList ++ (s.modifier ++ s.gap))) :
    c ≠ '/' ∧ c ≠ '\n' := by
  have hword : (c.isAlphanum || c == '_') = true → c ≠ '/' ∧ c ≠ '\n' := fun hkind =>
    ⟨ne_of_wordy hkind (by decide), ne_of_wordy hkind (by decide)⟩
  rw [List.mem_append, List.mem_append, List.mem_append] at hc
  rcases hc with hheading | hmnemonic | hmodifier | hgap
  · rcases mem_heading h.label hheading with hkind | rfl | rfl
    · exact hword hkind
    · decide
    · decide
  · exact hword (wordy_of_isAlpha (h.letters c hmnemonic))
  · rcases mem_modifier hmodifier with rfl | rfl <;> decide
  · rw [mem_gap hgap]
    decide

theorem Printable.notMem_render (h : s.Printable) : '\n' ∉ s.render.toList := by
  intro hmem
  rw [text_render, ← List.append_assoc s.modifier, ← List.append_assoc s.mnemonic.toList,
    ← List.append_assoc s.heading] at hmem
  rcases List.mem_append.mp hmem with hfront | harguments
  · exact (h.mem_front hfront).2 rfl
  · exact h.oneLine harguments

theorem Printable.stripComment_render (h : s.Printable) :
    stripComment s.render.toList = s.render.toList := by
  have hfront : '/' ∉ s.heading ++ (s.mnemonic.toList ++ (s.modifier ++ s.gap)) := fun hmem =>
    (h.mem_front hmem).1 rfl
  rw [text_render, ← List.append_assoc s.modifier, ← List.append_assoc s.mnemonic.toList,
    ← List.append_assoc s.heading, stripComment_append hfront, stripComment_eq_self h.uncommented]

/-! ## Reading what is written -/

theorem letters_behind {rest : List Char} (h : rest.head?.all fun c => !c.isAlpha) :
    rest.takeWhile Char.isAlpha = [] ∧ rest.dropWhile Char.isAlpha = rest := by
  cases rest with
  | nil => exact ⟨rfl, rfl⟩
  | cons c rest =>
    have hc : c.isAlpha = false := by simpa using h
    simp [hc]

theorem splitModifier_modifier (s : Statement) :
    splitModifier (s.modifier ++ (s.gap ++ s.arguments.toList)) =
      (s.indexed, s.gap ++ s.arguments.toList) := by
  unfold modifier gap
  cases s.indexed <;> by_cases hnone : s.arguments.toList = [] <;> simp [hnone, splitModifier]

theorem trim_gap (h : Text.trim s.arguments.toList = s.arguments.toList) :
    Text.trim (s.gap ++ s.arguments.toList) = s.arguments.toList := by
  have hblank : Text.isAllBlank s.gap = true := by
    apply List.all_eq_true.mpr
    intro c hc
    rw [mem_gap hc]
    decide
  rw [Text.append_trim hblank, h]

theorem Printable.readInstruction_text (h : s.Printable) (label : Option String) :
    readInstruction label
        (s.mnemonic.toList ++ (s.modifier ++ (s.gap ++ s.arguments.toList))) =
      .ok ⟨label, capitals s.mnemonic.toList, s.indexed, s.arguments⟩ := by
  have hbehind : ((s.modifier ++ (s.gap ++ s.arguments.toList)).head?.all fun c => !c.isAlpha)
      = true := by
    unfold modifier gap
    cases s.indexed <;> by_cases hnone : s.arguments.toList = [] <;> simp [hnone]
  have hblank : (s.gap ++ s.arguments.toList).head?.all Text.isBlank = true := by
    unfold gap
    by_cases hnone : s.arguments.toList = [] <;> simp [hnone]
    decide
  obtain ⟨htake, hdrop⟩ := letters_behind hbehind
  have hnamed : s.mnemonic.toList.isEmpty = false := List.isEmpty_eq_false_iff.mpr h.named
  simp only [readInstruction, List.takeWhile_append_of_pos h.letters,
    List.dropWhile_append_of_pos h.letters, htake, hdrop, List.append_nil, hnamed,
    splitModifier_modifier, hblank, trim_gap h.trimmed, String.ofList_toList, if_true]
  rfl

/-- Up to its first colon a line may be a label. -/
theorem splitLabel_append {front : List Char} (h : ':' ∉ front) (rest : List Char) :
    splitLabel (front ++ ':' :: rest) =
      if isIdentifier (Text.trim front) then
        .ok (some (capitals (Text.trim front)), Text.trimStart rest)
      else if (Text.trim front).isEmpty || !(Text.trim front).any Text.isBlank then
        .error (.invalidLabel (String.ofList (Text.trim front)))
      else .ok (none, front ++ ':' :: rest) := by
  have hfront : ∀ c ∈ front, (c != ':') = true := by
    intro c hc
    rw [bne_iff_ne]
    rintro rfl
    exact h hc
  rw [splitLabel, List.dropWhile_append_of_pos hfront, List.takeWhile_append_of_pos hfront]
  simp

theorem splitLabel_of_notMem {line : List Char} (h : ':' ∉ line) :
    splitLabel line = .ok (none, line) := by
  have hdrop : line.dropWhile (· != ':') = [] := by
    apply List.dropWhile_eq_nil_iff.mpr
    intro c hc
    rw [bne_iff_ne]
    rintro rfl
    exact h hc
  rw [splitLabel, hdrop]

/-- Several words before a colon are no label. -/
theorem splitLabel_of_words (first last rest : List Char) {blank : Char}
    (hfirst : ∀ c, first.head? = some c → Text.isBlank c = false) (hne : first ≠ [])
    (hblank : Text.isBlank blank = true) (hlast : Text.isAllBlank last = false)
    (hcolon : ':' ∉ first ++ blank :: last) :
    splitLabel (first ++ blank :: last ++ ':' :: rest) =
      .ok (none, first ++ blank :: last ++ ':' :: rest) := by
  have hstart : Text.trimStart (first ++ blank :: last) = first ++ blank :: last := by
    apply Text.dropWhile_eq_self
    intro c hc
    obtain ⟨c', rest', rfl⟩ := List.exists_cons_of_ne_nil hne
    exact hfirst c hc
  have htrim : Text.trim (first ++ blank :: last) = first ++ blank :: Text.trimEnd last := by
    rw [Text.trim, hstart, ← List.singleton_append, ← List.append_assoc,
      Text.trimEnd_append_of_not_blank _ hlast, List.append_assoc, List.singleton_append]
  have hmem : blank ∈ Text.trim (first ++ blank :: last) := by
    rw [htrim]
    exact List.mem_append_right _ List.mem_cons_self
  have hidentifier : isIdentifier (Text.trim (first ++ blank :: last)) = false := by
    rw [Bool.eq_false_iff]
    intro h
    rw [isBlank_of_wordy (wordy_of_isIdentifier h blank hmem)] at hblank
    cases hblank
  have hfilled : (Text.trim (first ++ blank :: last)).isEmpty = false :=
    List.isEmpty_eq_false_iff.mpr (List.ne_nil_of_mem hmem)
  have hany : (Text.trim (first ++ blank :: last)).any Text.isBlank = true :=
    List.any_eq_true.mpr ⟨blank, hmem, hblank⟩
  rw [splitLabel_append hcolon, hidentifier, hfilled, hany]
  rfl

theorem head?_mnemonic (h : s.mnemonic.toList ≠ []) (rest : List Char) {c : Char}
    (hc : (s.mnemonic.toList ++ rest).head? = some c) : c ∈ s.mnemonic.toList := by
  obtain ⟨first, letters, hname⟩ := List.exists_cons_of_ne_nil h
  rw [hname] at hc ⊢
  cases hc
  exact List.mem_cons_self

theorem Printable.splitLabel_render (h : s.Printable) :
    splitLabel s.render.toList = .ok (s.label.map fun name => capitals name.toList,
      s.mnemonic.toList ++ (s.modifier ++ (s.gap ++ s.arguments.toList))) := by
  rw [text_render, heading]
  cases hlabel : s.label with
  | some name =>
    have hname : isIdentifier name.toList = true := h.label name hlabel
    have hcolon : ':' ∉ name.toList := fun hmem =>
      ne_of_wordy (wordy_of_isIdentifier hname _ hmem) (by decide) rfl
    have htrim : Text.trim name.toList = name.toList := Text.trim_of_forall fun c hc =>
      isBlank_of_wordy (wordy_of_isIdentifier hname c hc)
    have hstart (rest : List Char) :
        Text.trimStart (' ' :: (s.mnemonic.toList ++ rest)) = s.mnemonic.toList ++ rest := by
      rw [Text.trimStart, List.dropWhile_cons, if_pos (by decide)]
      apply Text.dropWhile_eq_self
      intro c hc
      exact isBlank_of_wordy (wordy_of_isAlpha (h.letters c (head?_mnemonic h.named rest hc)))
    rw [Option.elim_some, List.append_assoc, List.cons_append, List.singleton_append,
      splitLabel_append hcolon, htrim, hname, hstart]
    rfl
  | none =>
    rw [Option.elim_none, List.nil_append]
    by_cases hmem : ':' ∈ s.arguments.toList
    · -- the colon is in the arguments, behind a blank and a word of them
      obtain ⟨last, rest, harguments, hlast⟩ := List.eq_append_cons_of_mem hmem
      have hgap : s.gap = [' '] := if_neg (List.ne_nil_of_mem hmem)
      have hhead : ∃ c more, last = c :: more ∧ Text.isBlank c = false := by
        cases hcase : last with
        | nil => exact absurd (by rw [harguments, hcase]; rfl) (h.colon hlabel)
        | cons c more =>
          refine ⟨c, more, rfl, Text.head?_trim (s := s.arguments.toList) ?_⟩
          rw [h.trimmed, harguments, hcase]
          rfl
      have hfilled : Text.isAllBlank last = false := by
        obtain ⟨c, more, rfl, hc⟩ := hhead
        simp [Text.isAllBlank, hc]
      have hfree : ':' ∉ s.mnemonic.toList ++ s.modifier ++ ' ' :: last := by
        rw [List.mem_append, List.mem_append, List.mem_cons]
        rintro ((hname | hmodifier) | hspace | hlater)
        · exact ne_of_wordy (wordy_of_isAlpha (h.letters _ hname)) (by decide) rfl
        · rcases mem_modifier hmodifier with heq | heq <;> cases heq
        · cases hspace
        · exact hlast hlater
      have hwords := splitLabel_of_words (s.mnemonic.toList ++ s.modifier) last rest
        (fun c hc => isBlank_of_wordy (wordy_of_isAlpha
          (h.letters c (head?_mnemonic h.named _ hc))))
        (fun hnil => h.named (List.append_eq_nil_iff.mp hnil).1) (by decide) hfilled hfree
      rw [hgap, harguments]
      simpa using hwords
    · apply splitLabel_of_notMem
      rw [List.mem_append, List.mem_append, List.mem_append]
      rintro (hname | hmodifier | hgap | harguments)
      · exact ne_of_wordy (wordy_of_isAlpha (h.letters _ hname)) (by decide) rfl
      · rcases mem_modifier hmodifier with heq | heq <;> cases heq
      · cases mem_gap hgap
      · exact hmem harguments

/-- No blank is written at the ends of a line. -/
theorem Printable.trim_render (h : s.Printable) :
    Text.trim s.render.toList = s.render.toList := by
  have hnamed {c : Char} (hc : c ∈ s.mnemonic.toList) : Text.isBlank c = false :=
    isBlank_of_wordy (wordy_of_isAlpha (h.letters c hc))
  rw [text_render]
  apply Text.trim_eq_self
  · intro c hc
    rw [heading] at hc
    cases hlabel : s.label with
    | none =>
      rw [hlabel] at hc
      exact hnamed (head?_mnemonic h.named _ hc)
    | some name =>
      have hname : isIdentifier name.toList = true := h.label name hlabel
      cases hletters : name.toList with
      | nil =>
        rw [hletters] at hname
        cases hname
      | cons first rest =>
        rw [hlabel, Option.elim_some, hletters] at hc
        cases hc
        exact isBlank_of_wordy (wordy_of_isIdentifier hname _ (hletters ▸ List.mem_cons_self))
  · intro c hc
    by_cases hnone : s.arguments.toList = []
    · rw [gap, if_pos hnone, hnone, List.append_nil, List.append_nil, List.getLast?_append] at hc
      cases hlast : (s.mnemonic.toList ++ s.modifier).getLast? with
      | none =>
        exact absurd (List.append_eq_nil_iff.mp (List.getLast?_eq_none_iff.mp hlast)).1 h.named
      | some last =>
        rw [hlast, Option.some_or] at hc
        cases hc
        rcases List.mem_append.mp (List.mem_of_getLast? hlast) with hletter | hmodifier
        · exact hnamed hletter
        · rcases mem_modifier hmodifier with rfl | rfl <;> decide
    · rw [← List.append_assoc, ← List.append_assoc, ← List.append_assoc,
        List.getLast?_append] at hc
      cases hlast : s.arguments.toList.getLast? with
      | none => exact absurd (List.getLast?_eq_none_iff.mp hlast) hnone
      | some last =>
        rw [hlast, Option.some_or] at hc
        cases hc
        apply Text.getLast?_trim (s := s.arguments.toList)
        rw [h.trimmed, hlast]

/-- A printable statement is read as it is written, but for the letters of its label and of its
mnemonic, which are read as capitals. -/
theorem Printable.read_text (h : s.Printable) :
    read s.render.toList = .ok (some s.capitalized) := by
  have hfilled : s.render.toList.isEmpty = false := by
    rw [List.isEmpty_eq_false_iff, text_render]
    intro hnil
    exact h.named (List.append_eq_nil_iff.mp (List.append_eq_nil_iff.mp hnil).2).1
  simp only [read, h.stripComment_render, h.trim_render, hfilled, h.splitLabel_render,
    h.readInstruction_text]
  rfl

end

/-! ## Writing what is read -/

section
variable {s : Statement} {text : List Char} {label : Option String}

theorem splitModifier_spec (text : List Char) :
    ∃ sign, text = sign ++ (splitModifier text).2 ∧ ∀ c ∈ sign, c ∈ [',', 'I', 'i'] := by
  unfold splitModifier
  split
  · exact ⟨[',', 'I'], rfl, by simp⟩
  · exact ⟨[',', 'i'], rfl, by simp⟩
  · exact ⟨[], rfl, by simp⟩

/-- What is read as an instruction is a word of letters, perhaps a modifier, and the arguments
behind a blank. -/
theorem readInstruction_eq_ok (h : readInstruction label text = .ok s) :
    ∃ letters sign rest, text = letters ++ (sign ++ rest) ∧ letters ≠ [] ∧
      (∀ c ∈ letters, c.isAlpha = true) ∧ (∀ c ∈ sign, c ∈ [',', 'I', 'i']) ∧
      rest.head?.all Text.isBlank = true ∧ s.label = label ∧
      s.mnemonic = capitals letters ∧ s.arguments = String.ofList (Text.trim rest) := by
  obtain ⟨sign, hsign, hkind⟩ := splitModifier_spec (text.dropWhile Char.isAlpha)
  simp only [readInstruction] at h
  split at h
  · cases label <;> cases h
  · next hne =>
    split at h
    · next hblank =>
      cases h
      refine ⟨text.takeWhile Char.isAlpha, sign, _, ?_, ?_, ?_, hkind, hblank, rfl, rfl, rfl⟩
      · rw [← hsign, List.takeWhile_append_dropWhile]
      · rwa [List.isEmpty_iff] at hne
      · intro c hc
        exact List.mem_takeWhile_imp hc
    · cases h

/-- A label that is read is the identifier before the first colon. -/
theorem splitLabel_eq_ok {rest : List Char} (h : splitLabel text = .ok (label, rest)) :
    (∃ front back, text = front ++ ':' :: back ∧ isIdentifier (Text.trim front) = true ∧
      label = some (capitals (Text.trim front)) ∧ rest = Text.trimStart back) ∨
    label = none ∧ rest = text := by
  by_cases hmem : ':' ∈ text
  · obtain ⟨front, back, rfl, hfront⟩ := List.eq_append_cons_of_mem hmem
    rw [splitLabel_append hfront] at h
    split at h
    · next hidentifier =>
      cases h
      exact .inl ⟨front, back, rfl, hidentifier, rfl, rfl⟩
    · split at h
      · cases h
      · cases h
        exact .inr ⟨rfl, rfl⟩
  · rw [splitLabel_of_notMem hmem] at h
    cases h
    exact .inr ⟨rfl, rfl⟩

/-- Several words stand before the first colon if it ends no label. -/
theorem blank_of_splitLabel {front back rest : List Char} (hfront : ':' ∉ front)
    (h : splitLabel (front ++ ':' :: back) = .ok (none, rest)) :
    ∃ c ∈ Text.trim front, Text.isBlank c = true := by
  rw [splitLabel_append hfront] at h
  split at h
  · cases h
  · split at h
    · cases h
    · next hwords =>
      rw [Bool.or_eq_true, not_or] at hwords
      apply List.any_eq_true.mp
      simpa using hwords.2

theorem isInfix_rest {rest : List Char} (h : splitLabel text = .ok (label, rest)) :
    rest <:+: text := by
  obtain ⟨front, back, rfl, -, -, rfl⟩ | ⟨-, rfl⟩ := splitLabel_eq_ok h
  · have hback : Text.trimStart back <:+ back := List.dropWhile_suffix _
    exact (hback.trans ((List.suffix_cons _ _).trans (List.suffix_append _ _))).isInfix
  · exact List.infix_rfl

/-- Arguments that begin with a colon stand behind a label. -/
theorem head?_arguments {letters sign rest : List Char}
    (hletters : ∀ c ∈ letters, c.isAlpha = true)
    (hsign : ∀ c ∈ sign, c ∈ [',', 'I', 'i'])
    (h : splitLabel (letters ++ (sign ++ rest)) = .ok (none, letters ++ (sign ++ rest))) :
    (Text.trim rest).head? ≠ some ':' := by
  intro hhead
  have hstart : (Text.trimStart rest).head? = some ':' := by
    obtain ⟨back, hback⟩ := Text.isPrefix_trimEnd (Text.trimStart rest)
    rw [← hback, List.head?_append, ← Text.trim, hhead, Option.some_or]
  obtain ⟨more, hmore⟩ := List.head?_eq_some_iff.mp hstart
  obtain ⟨blanks, hblanks, rfl⟩ : ∃ blanks, Text.isAllBlank blanks = true ∧
      rest = blanks ++ ':' :: more := by
    refine ⟨rest.takeWhile Text.isBlank, ?_, ?_⟩
    · apply List.all_eq_true.mpr
      intro c hc
      exact List.mem_takeWhile_imp hc
    · rw [← hmore, Text.trimStart, List.takeWhile_append_dropWhile]
  have hkinds : ∀ c ∈ letters ++ sign, Text.isBlank c = false ∧ c ≠ ':' := by
    intro c hc
    rcases List.mem_append.mp hc with hletter | hmodifier
    · have hwordy := wordy_of_isAlpha (hletters c hletter)
      exact ⟨isBlank_of_wordy hwordy, ne_of_wordy hwordy (by decide)⟩
    · have hall : [',', 'I', 'i'].Forall fun c => Text.isBlank c = false ∧ c ≠ ':' := by decide
      exact List.forall_iff_forall_mem.mp hall c (hsign c hmodifier)
  have hfree : ':' ∉ letters ++ sign ++ blanks := by
    intro hmem
    rcases List.mem_append.mp hmem with hword | hblank
    · exact (hkinds _ hword).2 rfl
    · have hcolon : Text.isBlank ':' = true := List.all_eq_true.mp hblanks _ hblank
      revert hcolon
      decide
  have hsplit : letters ++ (sign ++ (blanks ++ ':' :: more)) =
      letters ++ sign ++ blanks ++ ':' :: more := by simp
  rw [hsplit] at h
  obtain ⟨c, hc, hblank⟩ := blank_of_splitLabel hfree h
  rw [Text.trim_append _ hblanks, Text.trim_of_forall fun c hc => (hkinds c hc).1] at hc
  rw [(hkinds c hc).1] at hblank
  cases hblank

/-- What is read from a line is printable, with its label and its mnemonic in capitals. -/
theorem printable_of_read {line : List Char} (hline : '\n' ∉ line)
    (h : read line = .ok (some s)) : s.Printable ∧ s.capitalized = s := by
  have hinside : Text.trim (stripComment line) <:+: stripComment line := Text.isInfix_trim _
  unfold read at h
  dsimp only at h
  split at h
  · cases h
  · split at h
    · cases h
    · next label rest hsplit =>
      split at h
      · cases h
      · next found hread =>
        cases h
        obtain ⟨letters, sign, behind, rfl, hne, hletters, hsign, -, hlabel, hmnemonic,
          harguments⟩ := readInstruction_eq_ok hread
        have hpart : Text.trim behind <:+: stripComment line :=
          (((Text.isInfix_trim behind).trans (List.suffix_append _ _).isInfix).trans
            (List.suffix_append _ _).isInfix).trans ((isInfix_rest hsplit).trans hinside)
        have hname : s.mnemonic.toList = letters.map Char.toUpper := by
          rw [hmnemonic, capitals_toList]
        have hlist : s.arguments.toList = Text.trim behind := by
          rw [harguments, String.toList_ofList]
        have hidentifier : ∀ name, s.label = some name → isIdentifier name.toList = true ∧
            capitals name.toList = name := by
          intro name hsome
          rw [hlabel] at hsome
          obtain ⟨front, back, -, hfront, hfound, -⟩ | ⟨hnone, -⟩ := splitLabel_eq_ok hsplit
          · rw [hfound] at hsome
            cases hsome
            rw [capitals_capitals, capitals_toList, isIdentifier_capitals]
            exact ⟨hfront, rfl⟩
          · rw [hnone] at hsome
            cases hsome
        refine ⟨⟨fun name hsome => (hidentifier name hsome).1, ?_, ?_, ?_, ?_, ?_, ?_⟩, ?_⟩
        · rw [hname]
          exact mt List.map_eq_nil_iff.mp hne
        · intro c hc
          rw [hname] at hc
          obtain ⟨small, hsmall, rfl⟩ := List.mem_map.mp hc
          rw [Text.isAlpha_toUpper, hletters small hsmall]
        · rw [hlist, Text.trim_trim]
        · rw [hlist]
          intro hmem
          exact hline ((isPrefix_stripComment line).subset (hpart.subset hmem))
        · rw [hlist]
          intro hcomment
          exact not_commented_stripComment line (List.IsInfix.trans hcomment hpart)
        · intro hnone
          rw [hlist]
          rw [hlabel] at hnone
          subst hnone
          obtain ⟨front, back, -, -, hfound, -⟩ | ⟨-, htext⟩ := splitLabel_eq_ok hsplit
          · cases hfound
          · rw [← htext] at hsplit
            exact head?_arguments hletters hsign hsplit
        · have hsame : s.label.map (fun name => capitals name.toList) = s.label := by
            cases hsome : s.label with
            | none => rfl
            | some name => rw [Option.map_some, (hidentifier name hsome).2]
          rw [capitalized, hsame, hmnemonic, capitals_capitals, ← hmnemonic]

end

/-- Reading is the inverse of writing. A printable statement is read as it is written, with its
label and its mnemonic in capitals. The lines stand for the printable statements whose label and
mnemonic are in capitals, for these and no others, and each is read again from the line on which it
is written. -/
theorem reading_undoes_rendering :
    (∀ s : Statement, s.Printable → read s.render.toList = .ok (some s.capitalized)) ∧
    (∀ s : Statement, (∃ line, '\n' ∉ line ∧ read line = .ok (some s)) ↔
      s.Printable ∧ s.capitalized = s) ∧
    ∀ (line : List Char) (s : Statement), '\n' ∉ line → read line = .ok (some s) →
      read s.render.toList = .ok (some s) := by
  have hread (s : Statement) (h : s.Printable) (hsame : s.capitalized = s) :
      read s.render.toList = .ok (some s) := by
    rw [h.read_text, hsame]
  refine ⟨fun s h => h.read_text, fun s => ⟨?_, ?_⟩, ?_⟩
  · rintro ⟨line, hline, h⟩
    exact printable_of_read hline h
  · rintro ⟨h, hsame⟩
    exact ⟨s.render.toList, h.notMem_render, hread s h hsame⟩
  · intro line s hline h
    obtain ⟨hprintable, hsame⟩ := printable_of_read hline h
    exact hread s hprintable hsame

/-- Colons and a slash in the arguments of a statement without a label, and a line with a label,
blanks and a comment. -/
theorem reading_undoes_rendering_colons :
    Printable ⟨none, "jmp", true, "A :B/C:"⟩ ∧
      read "jmp,I A :B/C:".toList = .ok (some ⟨none, "JMP", true, "A :B/C:"⟩) ∧
      read "\tx_1 :lda,i\t(5)  // :".toList = .ok (some ⟨some "X_1", "LDA", true, "(5)"⟩) ∧
      read "X_1: LDA,I (5)".toList = .ok (some ⟨some "X_1", "LDA", true, "(5)"⟩) ∧
      Printable ⟨some "X_1", "LDA", true, "(5)"⟩ := by
  have hprintable : Printable ⟨none, "jmp", true, "A :B/C:"⟩ := by
    have hletters : ['j', 'm', 'p'].Forall fun c => c.isAlpha = true := by decide
    refine ⟨?_, by decide, List.forall_iff_forall_mem.mp hletters, by decide, by decide, by decide,
      by decide⟩
    intro name hname
    cases hname
  have hread : read "\tx_1 :lda,i\t(5)  // :".toList =
      .ok (some ⟨some "X_1", "LDA", true, "(5)"⟩) := by decide
  have hfirst : render ⟨none, "jmp", true, "A :B/C:"⟩ = "jmp,I A :B/C:" := by decide
  have hsecond : render ⟨some "X_1", "LDA", true, "(5)"⟩ = "X_1: LDA,I (5)" := by decide
  have hcapital : capitalized ⟨none, "jmp", true, "A :B/C:"⟩ =
      ⟨none, "JMP", true, "A :B/C:"⟩ := by decide
  obtain ⟨hwritten, hlines, hagain⟩ := reading_undoes_rendering
  have hback := hwritten _ hprintable
  have hlater := hagain _ _ (by decide) hread
  rw [hfirst, hcapital] at hback
  rw [hsecond] at hlater
  exact ⟨hprintable, hback, hread, hlater, ((hlines _).mp ⟨_, by decide, hread⟩).1⟩

end Statement

end TrnComputer
