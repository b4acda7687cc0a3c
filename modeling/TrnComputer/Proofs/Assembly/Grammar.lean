import TrnComputer.Proofs.Assembly.Linking
import TrnComputer.Proofs.Assembly.Rendering
import TrnComputer.Proofs.Text.Literals

/-! # The grammar of arguments

What the arguments of a statement are, said without the reader: what stands in the parentheses,
whether its pieces are literals, whether its one piece is a sum, and what each fault is about.

* `Inside`: one pair of parentheses is taken off.
* `Term`, `Expression`: sums of decimal numbers and labels.
* `Misnamed`: the first term that is neither starts with a digit.
* `read_follows_grammar`: every text is read by exactly one of its rules.
-/

namespace TrnComputer
set_option autoImplicit false

open Text (Literal SignedNumeral Fits readSigned?_eq_some_iff readLiteral?_eq_some_iff)

namespace Arguments

/-! ## The rules -/

/-- The texts between separators, without the blanks around them. -/
def pieces (separator : Char) (text : List Char) : List (List Char) :=
  (Text.split separator text).map Text.trim

/-- What stands in a text, and whether a pair of parentheses encloses it. -/
inductive Inside (text : List Char) : Bool → List Char → Prop
  | bare (h : ∀ inner, Text.trim text ≠ '(' :: (inner ++ [')'])) :
    Inside text false (Text.trim text)
  | enclosed {inner : List Char} (h : Text.trim text = '(' :: (inner ++ [')'])) :
    Inside text true (Text.trim inner)

/-- A text begins with a character of a kind. -/
def Begins (text : List Char) (kind : Char → Bool) : Prop := text.head?.any kind = true

/-- A term of a sum: a decimal number that fits 64 bits, or an identifier. -/
inductive Term : List Char → LabelTerm → Prop
  | number {text : List Char} {value : Int} (h : SignedNumeral text value) (hfits : Fits value) :
    Term text (.number value)
  | label {text : List Char} (h : isIdentifier text = true) : Term text (.label (capitals text))

/-- A piece that is no literal and begins with neither a digit nor a dollar sign, and whose terms
give a sum: the labels in order, and the total of the numbers in 64 bits. -/
structure Expression (piece : List Char) (sum : LabelSum) : Prop where
  unnumbered : ¬Begins piece fun c => c.isDigit || c == '$'
  no_literal : ∀ value, ¬Literal piece value
  terms : ∃ terms, List.Forall₂ Term (pieces '+' piece) terms ∧
    sum.labels = terms.filterMap LabelTerm.label? ∧
    sum.constant = (terms.map LabelTerm.value).sum.bmod (2 ^ 64)

/-- A piece that begins with neither a digit nor a dollar sign, and whose first term that is
neither number nor identifier begins with a digit. -/
structure Misnamed (piece : List Char) (label : String) : Prop where
  unnumbered : ¬Begins piece fun c => c.isDigit || c == '$'
  first : ∃ front term back, pieces '+' piece = front ++ term :: back ∧
    (∀ other ∈ front, ∃ good, Term other good) ∧ (∀ good, ¬Term term good) ∧
    Begins term Char.isDigit ∧ String.ofList term = label

/-! ## Terms -/

section
variable {whole text : List Char}

theorem not_begins_nil (kind : Char → Bool) : ¬Begins [] kind := by
  intro h
  cases h

theorem Term.ne_nil {good : LabelTerm} (h : Term text good) : text ≠ [] := by
  rintro rfl
  cases h with
  | number hsigned hfits =>
    cases hsigned with
    | unsigned hnumeral => exact hnumeral.1 rfl
  | label hidentifier => cases hidentifier

theorem isDigit_of_isAlpha {c : Char} (h : c.isAlpha = true) : c.isDigit = false := by
  rw [← Bool.not_eq_true]
  intro hdigit
  have hbounds : (decide ('0'.val ≤ c.val) && decide (c.val ≤ '9'.val)) = true := hdigit
  rw [Bool.and_eq_true, decide_eq_true_eq, decide_eq_true_eq] at hbounds
  change 48 ≤ c.toNat ∧ c.toNat ≤ 57 at hbounds
  have hdigits : ∀ k < 10, (Char.ofNat (48 + k)).isAlpha = false := by decide
  obtain ⟨k, hk⟩ := Nat.le.dest hbounds.1
  rw [Text.eq_ofNat_of_toNat hk.symm, hdigits k (by omega)] at h
  cases h

/-- An identifier begins with neither a digit nor a sign. -/
theorem head_of_isIdentifier (h : isIdentifier text = true) :
    ∃ c rest, text = c :: rest ∧ c.isDigit = false ∧ c ≠ '-' ∧ c ≠ '+' := by
  cases text with
  | nil => cases h
  | cons c rest =>
    have hwordy := wordy_of_isIdentifier h c List.mem_cons_self
    refine ⟨c, rest, rfl, ?_, ne_of_wordy hwordy (by decide), ne_of_wordy hwordy (by decide)⟩
    obtain ⟨hfirst, -⟩ := isIdentifier_cons.mp h
    rcases Bool.or_eq_true _ _ ▸ hfirst with halpha | hline
    · exact isDigit_of_isAlpha halpha
    · rw [eq_of_beq hline]
      decide

theorem not_begins_of_isIdentifier (h : isIdentifier text = true) :
    ¬Begins text Char.isDigit := by
  obtain ⟨c, rest, rfl, hdigit, -, -⟩ := head_of_isIdentifier h
  intro hbegins
  have hc : c.isDigit = true := hbegins
  rw [hdigit] at hc
  cases hc

theorem readSigned?_of_isIdentifier (h : isIdentifier text = true) :
    Text.readSigned? text = none := by
  obtain ⟨c, rest, rfl, -, hminus, hplus⟩ := head_of_isIdentifier h
  rw [Text.readSigned?_of_ne hminus hplus, Option.bind_eq_none_iff]
  intro n hn
  have hnumeral := (Text.readDigits?_eq_some_iff (by decide)).mp hn
  exact absurd hnumeral.head?_isDigit (not_begins_of_isIdentifier h)

theorem readTerm_eq_ok_iff {good : LabelTerm} :
    LabelSum.readTerm whole text = .ok good ↔ Term text good := by
  unfold LabelSum.readTerm
  constructor
  · intro h
    split at h
    · next value hvalue =>
      cases h
      obtain ⟨hsigned, hfits⟩ := readSigned?_eq_some_iff.mp hvalue
      exact .number hsigned hfits
    · split at h
      · cases h
      · split at h
        · next hidentifier =>
          cases h
          exact .label hidentifier
        · cases h
  · intro h
    cases h with
    | number hsigned hfits => rw [readSigned?_eq_some_iff.mpr ⟨hsigned, hfits⟩]
    | label hidentifier =>
      rw [readSigned?_of_isIdentifier hidentifier]
      simp only
      exact (if_neg (not_begins_of_isIdentifier hidentifier)).trans (if_pos hidentifier)

theorem readTerm_eq_misnamed_iff {label : String} :
    LabelSum.readTerm whole text = .error (.labelStartsWithDigit label) ↔
      (∀ good, ¬Term text good) ∧ Begins text Char.isDigit ∧ String.ofList text = label := by
  have hterm (good : LabelTerm) : LabelSum.readTerm whole text = .ok good ↔ Term text good :=
    readTerm_eq_ok_iff
  simp only [← hterm]
  unfold LabelSum.readTerm Begins
  split
  · simp
  · split
    · next hdigit => simp [hdigit]
    · next hdigit =>
      split
      · simp
      · simp [hdigit]

end

/-! ## Sums -/

section
variable {piece : List Char}

theorem ofTerms_eq_iff {terms : List LabelTerm} {sum : LabelSum} :
    LabelSum.ofTerms terms = sum ↔ sum.labels = terms.filterMap LabelTerm.label? ∧
      sum.constant = (terms.map LabelTerm.value).sum.bmod (2 ^ 64) := by
  rw [LabelSum.ofTerms, foldl_wrappingAdd _ 0 (by decide), Int.zero_add]
  constructor
  · rintro rfl
    exact ⟨rfl, rfl⟩
  · rintro ⟨hlabels, hconstant⟩
    rw [← hlabels, ← hconstant]

theorem mapM_pieces {Value Fault : Type} (separator : Char) (text : List Char)
    (read : List Char → Except Fault Value) :
    ((Text.split separator text).mapM fun piece => read (Text.trim piece)) =
      (pieces separator text).mapM read := by
  rw [pieces, List.mapM_map]
  rfl

theorem readSum_eq_ok_iff {sum : LabelSum} :
    LabelSum.read piece = .ok sum ↔ ∃ terms, List.Forall₂ Term (pieces '+' piece) terms ∧
      sum.labels = terms.filterMap LabelTerm.label? ∧
      sum.constant = (terms.map LabelTerm.value).sum.bmod (2 ^ 64) := by
  have hterms (terms : List LabelTerm) :
      (pieces '+' piece).mapM (LabelSum.readTerm piece) = .ok terms ↔
        List.Forall₂ Term (pieces '+' piece) terms := by
    rw [mapM_eq_ok_iff]
    constructor
    · exact fun h => h.imp fun _ _ => readTerm_eq_ok_iff.mp
    · exact fun h => h.imp fun _ _ => readTerm_eq_ok_iff.mpr
  simp only [LabelSum.read, mapM_pieces, ← hterms, ← ofTerms_eq_iff]
  cases (pieces '+' piece).mapM (LabelSum.readTerm piece) <;> simp

theorem readSum_eq_misnamed_iff {label : String} :
    LabelSum.read piece = .error (.labelStartsWithDigit label) ↔
      ∃ front term back, pieces '+' piece = front ++ term :: back ∧
        (∀ other ∈ front, ∃ good, Term other good) ∧ (∀ good, ¬Term term good) ∧
        Begins term Char.isDigit ∧ String.ofList term = label := by
  have hterms : (pieces '+' piece).mapM (LabelSum.readTerm piece) =
      .error (.labelStartsWithDigit label) ↔
        LabelSum.read piece = .error (.labelStartsWithDigit label) := by
    rw [LabelSum.read, mapM_pieces]
    cases (pieces '+' piece).mapM (LabelSum.readTerm piece) <;> simp
  rw [← hterms, mapM_eq_error_iff]
  simp only [readTerm_eq_ok_iff, readTerm_eq_misnamed_iff]

end

/-! ## One argument -/

/-- A text without separators, and without blanks around it, is one piece. -/
theorem pieces_of_notMem {separator : Char} {text : List Char} (hseparator : separator ∉ text)
    (htrim : Text.trim text = text) : pieces separator text = [text] := by
  rw [pieces, Text.split_of_notMem hseparator, List.map_singleton, htrim]

section
variable {sole : Bool} {piece : List Char}

theorem begins_iff : (piece.head?.any fun c => !c.isDigit && c != '$') = true ↔
    piece ≠ [] ∧ ¬Begins piece fun c => c.isDigit || c == '$' := by
  unfold Begins
  cases piece <;> simp

theorem readOne_eq_literal_iff {value : Int} :
    readOne sole piece = .ok (.literal value) ↔ Literal piece value := by
  rw [← readLiteral?_eq_some_iff]
  unfold readOne
  split
  · next found hfound => simp [hfound]
  · next hnone =>
    rw [hnone]
    repeat' split
    all_goals simp

/-- What is no literal and begins like a sum is read as a sum. -/
theorem readOne_of_no_literal (hliteral : ∀ value, ¬Literal piece value) (hne : piece ≠ [])
    (hunnumbered : ¬Begins piece fun c => c.isDigit || c == '$') :
    readOne true piece = match LabelSum.read piece with
      | .error fault => .error fault
      | .ok sum => .ok (.sum sum) := by
  have hnone : Text.readLiteral? piece = none :=
    Option.eq_none_iff_forall_ne_some.mpr fun value hvalue =>
      hliteral value (readLiteral?_eq_some_iff.mp hvalue)
  rw [readOne, hnone]
  exact if_pos (begins_iff.mpr ⟨hne, hunnumbered⟩)

theorem Expression.ne_nil {sum : LabelSum} (h : Expression piece sum) : piece ≠ [] := by
  rintro rfl
  obtain ⟨terms, hterms, -⟩ := h.terms
  cases hterms with
  | cons hterm _ => exact hterm.ne_nil rfl

theorem readOne_eq_sum_iff {sum : LabelSum} :
    readOne sole piece = .ok (.sum sum) ↔ sole = true ∧ Expression piece sum := by
  constructor
  · intro h
    unfold readOne at h
    split at h
    · cases h
    · next hnone =>
      split at h
      · next hstart =>
        obtain ⟨hsole, hbegins⟩ := Bool.and_eq_true_iff.mp hstart
        split at h
        · cases h
        · next hsum =>
          cases h
          refine ⟨hsole, (begins_iff.mp hbegins).2, ?_, readSum_eq_ok_iff.mp hsum⟩
          intro value hliteral
          rw [readLiteral?_eq_some_iff.mpr hliteral] at hnone
          cases hnone
      · cases h
  · rintro ⟨rfl, h⟩
    rw [readOne_of_no_literal h.no_literal h.ne_nil h.unnumbered, readSum_eq_ok_iff.mpr h.terms]

theorem begins_or (h : Begins piece Char.isDigit) :
    Begins piece fun c => c.isDigit || c == '$' := by
  unfold Begins at h ⊢
  cases piece with
  | nil => cases h
  | cons c rest =>
    rw [List.head?_cons, Option.any_some] at h ⊢
    rw [h, Bool.true_or]

theorem Misnamed.ne_nil {label : String} (h : Misnamed piece label) : piece ≠ [] := by
  rintro rfl
  obtain ⟨front, term, back, hpieces, -, -, hbegins, -⟩ := h.first
  have hterm : term ∈ pieces '+' [] := by
    rw [hpieces]
    exact List.mem_append_right _ List.mem_cons_self
  rw [List.mem_singleton.mp hterm] at hbegins
  exact not_begins_nil _ hbegins

/-- A literal without digit or dollar sign in front has a sign there: its first term is all of it or
nothing. -/
theorem Misnamed.no_literal {label : String} (h : Misnamed piece label) (value : Int) :
    ¬Literal piece value := by
  obtain ⟨front, term, back, hpieces, hfront, hterm, hbegins, -⟩ := h.first
  intro hliteral
  cases hliteral with
  | hexadecimal _ _ => exact h.unnumbered rfl
  | decimal hsigned hfits =>
    cases hsigned with
    | unsigned hnumeral => exact h.unnumbered (begins_or hnumeral.head?_isDigit)
    | positive _ =>
      -- The first term of a literal like `+5` is empty, and begins with no digit.
      rw [pieces, Text.split_cons_self, List.map_cons] at hpieces
      cases front with
      | nil =>
        cases hpieces
        exact not_begins_nil _ hbegins
      | cons first front =>
        obtain ⟨rfl, -⟩ := List.cons.inj hpieces
        obtain ⟨good, hgood⟩ := hfront _ List.mem_cons_self
        exact hgood.ne_nil rfl
    | @negative digits _ hnumeral =>
      -- A literal like `-5` is a single term, and the term is a number.
      have hdigits := hnumeral.isAlphanum (by decide)
      have hplain : ∀ c ∈ '-' :: digits, Text.isBlank c = false ∧ '+' ≠ c := by
        refine List.forall_mem_cons.mpr ⟨by decide, fun c hc => ?_⟩
        refine ⟨Text.isBlank_of_isAlphanum (hdigits c hc), ?_⟩
        rintro rfl
        cases hdigits _ hc
      have hwhole : pieces '+' ('-' :: digits) = ['-' :: digits] :=
        pieces_of_notMem (fun hmem => (hplain _ hmem).2 rfl)
          (Text.trim_of_forall fun c hc => (hplain c hc).1)
      rw [hwhole, List.singleton_eq_append_iff] at hpieces
      rcases hpieces with ⟨rfl, hall⟩ | ⟨-, hnone⟩
      · cases hall
        exact hterm _ (.number (.negative hnumeral) hfits)
      · cases hnone

theorem readOne_eq_misnamed_iff {label : String} :
    readOne sole piece = .error (.labelStartsWithDigit label) ↔
      sole = true ∧ Misnamed piece label := by
  constructor
  · intro h
    unfold readOne at h
    split at h
    · cases h
    · split at h
      · next hstart =>
        obtain ⟨hsole, hbegins⟩ := Bool.and_eq_true_iff.mp hstart
        split at h
        · next fault hfault =>
          cases h
          exact ⟨hsole, (begins_iff.mp hbegins).2, readSum_eq_misnamed_iff.mp hfault⟩
        · cases h
      · cases h
  · rintro ⟨rfl, h⟩
    rw [readOne_of_no_literal h.no_literal h.ne_nil h.unnumbered,
      readSum_eq_misnamed_iff.mpr h.first]

/-- Several arguments are literals. -/
theorem numbers_of_not_sole {texts : List (List Char)} {values : List Argument}
    (h : List.Forall₂ (fun piece value => readOne false piece = .ok value) texts values) :
    ∃ numbers : List Int, values = numbers.map .literal := by
  induction h with
  | nil => exact ⟨[], rfl⟩
  | @cons piece value _ _ hfirst _ ih =>
    obtain ⟨numbers, rfl⟩ := ih
    cases value with
    | literal number => exact ⟨number :: numbers, rfl⟩
    | sum sum =>
      obtain ⟨hsole, -⟩ := readOne_eq_sum_iff.mp hfirst
      cases hsole

end

/-! ## Whole arguments -/

section
variable {text rest : List Char} {indirect : Bool}

theorem unwrap?_eq_some_iff {inner : List Char} :
    unwrap? text = some inner ↔ text = '(' :: (inner ++ [')']) := by
  unfold unwrap?
  constructor
  · intro h
    split at h
    · next hends =>
      cases h
      obtain ⟨hfirst, hlast⟩ := hends
      cases text with
      | nil => cases hfirst
      | cons c inner =>
        cases hfirst
        rcases inner.eq_nil_or_concat with rfl | ⟨front, last, rfl⟩
        · cases hlast
        · rw [List.concat_eq_append, ← List.cons_append, List.getLast?_concat] at hlast
          cases hlast
          simp
    · cases h
  · rintro rfl
    rw [if_pos ⟨rfl, by simp [List.getLast?_cons]⟩]
    simp

theorem exists_inside (text : List Char) : ∃ indirect rest, Inside text indirect rest := by
  by_cases h : ∃ inner, Text.trim text = '(' :: (inner ++ [')'])
  · obtain ⟨inner, hinner⟩ := h
    exact ⟨true, _, .enclosed hinner⟩
  · exact ⟨false, _, .bare fun inner hinner => h ⟨inner, hinner⟩⟩

theorem read_of_inside (h : Inside text indirect rest) :
    read text = if rest = [] then .ok ⟨indirect, []⟩
      else match (pieces ',' rest).mapM (readOne ((pieces ',' rest).length == 1)) with
        | .error fault => .error fault
        | .ok values => .ok ⟨indirect, values⟩ := by
  have hlength (inner : List Char) : (pieces ',' inner).length = (Text.split ',' inner).length :=
    List.length_map _
  cases h with
  | bare h =>
    have hnone : unwrap? (Text.trim text) = none :=
      Option.eq_none_iff_forall_ne_some.mpr fun inner hinner =>
        h inner (unwrap?_eq_some_iff.mp hinner)
    simp only [read, hnone, mapM_pieces, hlength]
    exact if_congr List.isEmpty_iff rfl rfl
  | enclosed h =>
    simp only [read, unwrap?_eq_some_iff.mpr h, mapM_pieces, hlength]
    exact if_congr List.isEmpty_iff rfl rfl

theorem read_eq_nil_iff (h : Inside text indirect rest) :
    read text = .ok ⟨indirect, []⟩ ↔ rest = [] := by
  rw [read_of_inside h]
  split
  · next hnil => exact iff_of_true rfl hnil
  · next hne =>
    refine iff_of_false ?_ hne
    split
    · simp
    · next values hvalues =>
      intro hread
      cases hread
      cases mapM_eq_ok_iff.mp hvalues

/-- What is read where something is written. -/
theorem read_eq_ok_iff (h : Inside text indirect rest) {values : List Argument}
    (hvalues : values ≠ []) : read text = .ok ⟨indirect, values⟩ ↔ rest ≠ [] ∧
      List.Forall₂ (fun piece value => readOne ((pieces ',' rest).length == 1) piece = .ok value)
        (pieces ',' rest) values := by
  rw [read_of_inside h, ← mapM_eq_ok_iff]
  split
  · next hnil => simp [hnil, hvalues.symm]
  · next hne =>
    rw [and_iff_right hne]
    split
    · next hfault => simp [hfault]
    · next found hfound => simp [hfound]

theorem read_eq_error_iff (h : Inside text indirect rest) {fault : ArgumentFault} :
    read text = .error fault ↔ rest ≠ [] ∧
      (pieces ',' rest).mapM (readOne ((pieces ',' rest).length == 1)) = .error fault := by
  rw [read_of_inside h]
  split
  · next hnil => simp [hnil]
  · next hne =>
    rw [and_iff_right hne]
    split
    · next hfault => simp [hfault]
    · next found hfound => simp [hfound]

theorem ne_nil_of_pieces {separator : Char} {piece : List Char}
    (h : pieces separator rest = [piece]) (hne : piece ≠ []) : rest ≠ [] := by
  rintro rfl
  cases h
  exact hne rfl

theorem length_eq_one_iff : ((pieces ',' rest).length == 1) = true ↔
    ∃ piece, pieces ',' rest = [piece] := by
  rw [beq_iff_eq, List.length_eq_one_iff]

/-- Literals alone. -/
theorem read_eq_literals_iff (h : Inside text indirect rest) (first : Int) (others : List Int) :
    read text = .ok ⟨indirect, (first :: others).map .literal⟩ ↔
      List.Forall₂ Literal (pieces ',' rest) (first :: others) := by
  rw [read_eq_ok_iff h (by simp), List.forall₂_map_right_iff]
  simp only [readOne_eq_literal_iff, and_iff_right_iff_imp]
  rintro hliterals rfl
  cases hliterals with
  | cons hfirst _ =>
    cases hfirst with
    | decimal hsigned _ =>
      cases hsigned with
      | unsigned hnumeral => exact hnumeral.1 rfl

/-- A sum. -/
theorem read_eq_sum_iff (h : Inside text indirect rest) (sum : LabelSum) :
    read text = .ok ⟨indirect, [.sum sum]⟩ ↔
      ∃ piece, pieces ',' rest = [piece] ∧ Expression piece sum := by
  rw [read_eq_ok_iff h (by simp)]
  constructor
  · rintro ⟨-, hforall⟩
    obtain ⟨piece, others, hpiece, hothers, hpieces⟩ := List.forall₂_cons_right_iff.mp hforall
    cases hothers
    exact ⟨piece, hpieces, (readOne_eq_sum_iff.mp hpiece).2⟩
  · rintro ⟨piece, hpieces, hsum⟩
    rw [hpieces]
    exact ⟨ne_nil_of_pieces hpieces hsum.ne_nil,
      .cons (readOne_eq_sum_iff.mpr ⟨rfl, hsum⟩) .nil⟩

theorem read_eq_misnamed_iff (h : Inside text indirect rest) (label : String) :
    read text = .error (.labelStartsWithDigit label) ↔
      ∃ piece, pieces ',' rest = [piece] ∧ Misnamed piece label := by
  rw [read_eq_error_iff h, mapM_eq_error_iff]
  constructor
  · rintro ⟨-, front, piece, back, hpieces, -, hpiece⟩
    obtain ⟨hsole, hmisnamed⟩ := readOne_eq_misnamed_iff.mp hpiece
    obtain ⟨only, honly⟩ := length_eq_one_iff.mp hsole
    have hmem : piece ∈ pieces ',' rest := by
      rw [hpieces]
      exact List.mem_append_right _ List.mem_cons_self
    rw [honly, List.mem_singleton] at hmem
    exact ⟨piece, hmem ▸ honly, hmisnamed⟩
  · rintro ⟨piece, hpieces, hmisnamed⟩
    rw [hpieces]
    exact ⟨ne_nil_of_pieces hpieces hmisnamed.ne_nil, [], piece, [], rfl, List.forall_mem_nil _,
      readOne_eq_misnamed_iff.mpr ⟨rfl, hmisnamed⟩⟩

theorem indirect_of_read (h : Inside text indirect rest) {arguments : Arguments}
    (hread : read text = .ok arguments) : arguments.indirect = indirect := by
  rw [read_of_inside h] at hread
  repeat' split at hread
  all_goals cases hread
  all_goals rfl

/-- Nothing is read but literals or one sum. -/
theorem values_of_read (h : Inside text indirect rest) {values : List Argument}
    (hread : read text = .ok ⟨indirect, values⟩) :
    (∃ numbers : List Int, values = numbers.map .literal) ∨ ∃ sum, values = [.sum sum] := by
  by_cases hvalues : values = []
  · exact .inl ⟨[], hvalues⟩
  obtain ⟨-, hforall⟩ := (read_eq_ok_iff h hvalues).mp hread
  cases hsole : (pieces ',' rest).length == 1 with
  | false =>
    rw [hsole] at hforall
    exact .inl (numbers_of_not_sole hforall)
  | true =>
    obtain ⟨piece, hpiece⟩ := length_eq_one_iff.mp hsole
    rw [hpiece] at hforall
    obtain ⟨value, others, -, hothers, rfl⟩ := List.forall₂_cons_left_iff.mp hforall
    cases hothers
    cases value with
    | literal number => exact .inl ⟨[number], rfl⟩
    | sum sum => exact .inr ⟨sum, rfl⟩

/-- The texts that no rule covers. -/
theorem read_eq_invalid_iff (h : Inside text indirect rest) :
    (∃ shown, read text = .error (.invalid shown)) ↔ rest ≠ [] ∧
      (¬∃ numbers, List.Forall₂ Literal (pieces ',' rest) numbers) ∧
      (¬∃ piece sum, pieces ',' rest = [piece] ∧ Expression piece sum) ∧
      ¬∃ piece label, pieces ',' rest = [piece] ∧ Misnamed piece label := by
  constructor
  · rintro ⟨shown, hread⟩
    refine ⟨?_, ?_, ?_, ?_⟩
    · intro hnil
      rw [(read_eq_nil_iff h).mpr hnil] at hread
      cases hread
    · rintro ⟨numbers, hnumbers⟩
      cases numbers with
      | nil => cases hnumbers
      | cons first others =>
        rw [(read_eq_literals_iff h first others).mpr hnumbers] at hread
        cases hread
    · rintro ⟨piece, sum, hsum⟩
      rw [(read_eq_sum_iff h sum).mpr ⟨piece, hsum⟩] at hread
      cases hread
    · rintro ⟨piece, label, hlabel⟩
      rw [(read_eq_misnamed_iff h label).mpr ⟨piece, hlabel⟩] at hread
      cases hread
  · rintro ⟨hne, hnumbers, hsum, hlabel⟩
    -- Every other answer is given by a rule of its own.
    cases hread : read text with
    | ok arguments =>
      obtain ⟨found, values⟩ := arguments
      obtain rfl : found = indirect := indirect_of_read h hread
      rcases values_of_read h hread with ⟨numbers, rfl⟩ | ⟨sum, rfl⟩
      · cases numbers with
        | nil => exact absurd ((read_eq_nil_iff h).mp hread) hne
        | cons first others =>
          exact absurd ⟨_, (read_eq_literals_iff h first others).mp hread⟩ hnumbers
      · obtain ⟨piece, hpiece⟩ := (read_eq_sum_iff h sum).mp hread
        exact absurd ⟨piece, sum, hpiece⟩ hsum
    | error fault =>
      cases fault with
      | invalid shown => exact ⟨shown, rfl⟩
      | labelStartsWithDigit label =>
        obtain ⟨piece, hpiece⟩ := (read_eq_misnamed_iff h label).mp hread
        exact absurd ⟨piece, label, hpiece⟩ hlabel

end

/-! ## Written numbers -/

theorem inside_of_forall {text : List Char}
    (hblank : ∀ c ∈ text, Text.isBlank c = false) (hopening : '(' ∉ text) :
    Inside text false text := by
  have htrim := Text.trim_of_forall hblank
  have hinside : Inside text false (Text.trim text) := by
    refine .bare fun inner hinner => hopening ?_
    rw [← htrim, hinner]
    exact List.mem_cons_self
  rwa [htrim] at hinside

theorem read_literal {text : List Char} {value : Int} (h : Literal text value)
    (hplain : ∀ c ∈ text, c.isAlphanum = true ∨ c = '$') :
    read text = .ok ⟨false, [.literal value]⟩ := by
  have hblank : ∀ c ∈ text, Text.isBlank c = false := by
    intro c hc
    rcases hplain c hc with halphanum | rfl
    · exact Text.isBlank_of_isAlphanum halphanum
    · decide
  have hinside : Inside text false text := by
    refine inside_of_forall hblank fun hmem => ?_
    rcases hplain _ hmem with halphanum | heq
    · cases halphanum
    · cases heq
  have hcomma : ',' ∉ text := by
    intro hmem
    rcases hplain _ hmem with halphanum | heq
    · cases halphanum
    · cases heq
  refine (read_eq_literals_iff hinside value []).mpr ?_
  rw [pieces_of_notMem hcomma (Text.trim_of_forall hblank)]
  exact .cons h .nil

/-- A number reads the same in decimal and in hexadecimal. -/
theorem read_written {n : Nat} (h : n < 2 ^ 63) :
    read (Text.numeral 10 n) = .ok ⟨false, [.literal n]⟩ ∧
      read ('$' :: Text.numeral 16 n) = .ok ⟨false, [.literal n]⟩ := by
  have hfits : Fits n := ⟨by omega, by omega⟩
  have hnumeral (base : Nat) (hbase : 2 ≤ base) (hsmall : base ≤ 16) :
      Text.Numeral base (Text.numeral base n) n :=
    (Text.readDigits?_eq_some_iff hsmall).mp (Text.readDigits?_numeral hbase hsmall n)
  constructor
  · refine read_literal (.decimal (.unsigned (hnumeral 10 (by decide) (by decide))) hfits) ?_
    exact fun c hc => .inl (Text.isAlphanum_of_mem_numeral (by decide) (by decide) hc)
  · refine read_literal (.hexadecimal (hnumeral 16 (by decide) (by decide)) hfits) ?_
    refine List.forall_mem_cons.mpr ⟨.inr rfl, fun c hc => .inl ?_⟩
    exact Text.isAlphanum_of_mem_numeral (by decide) (by decide) hc

/-! ## The grammar -/

/-- Every text has one inside, and is read as the rule says that covers it: nothing where nothing is
left, literals where all pieces are, a sum where the one piece is; a misnamed label is told, and
whatever else is no argument. A number is read the same from its decimal and its hexadecimal
numeral. -/
theorem read_follows_grammar :
    (∀ text, ∃ indirect rest, Inside text indirect rest) ∧
    (∀ text indirect rest, Inside text indirect rest →
      (read text = .ok ⟨indirect, []⟩ ↔ rest = []) ∧
      (∀ first others, read text = .ok ⟨indirect, (first :: others).map .literal⟩ ↔
        List.Forall₂ Literal (pieces ',' rest) (first :: others)) ∧
      (∀ sum, read text = .ok ⟨indirect, [.sum sum]⟩ ↔
        ∃ piece, pieces ',' rest = [piece] ∧ Expression piece sum) ∧
      (∀ label, read text = .error (.labelStartsWithDigit label) ↔
        ∃ piece, pieces ',' rest = [piece] ∧ Misnamed piece label) ∧
      ((∃ shown, read text = .error (.invalid shown)) ↔ rest ≠ [] ∧
        (¬∃ numbers, List.Forall₂ Literal (pieces ',' rest) numbers) ∧
        (¬∃ piece sum, pieces ',' rest = [piece] ∧ Expression piece sum) ∧
        ¬∃ piece label, pieces ',' rest = [piece] ∧ Misnamed piece label)) ∧
    ∀ n < 2 ^ 63, read (Text.numeral 10 n) = .ok ⟨false, [.literal n]⟩ ∧
      read ('$' :: Text.numeral 16 n) = .ok ⟨false, [.literal n]⟩ := by
  refine ⟨exists_inside, ?_, fun n hn => read_written hn⟩
  intro text indirect rest h
  exact ⟨read_eq_nil_iff h, read_eq_literals_iff h, read_eq_sum_iff h, read_eq_misnamed_iff h,
    read_eq_invalid_iff h⟩

/-- Two literals in parentheses, and a number in both notations. -/
theorem read_follows_grammar_parentheses :
    Inside "( $2a,-1 )".toList true "$2a,-1".toList ∧ 42 < 2 ^ 63 ∧
      read "( $2a,-1 )".toList = .ok ⟨true, [.literal 42, .literal (-1)]⟩ ∧
      read ('$' :: Text.numeral 16 42) = .ok ⟨false, [.literal 42]⟩ := by
  have hinside : Inside "( $2a,-1 )".toList true "$2a,-1".toList :=
    .enclosed (show Text.trim "( $2a,-1 )".toList = '(' :: (" $2a,-1 ".toList ++ [')']) by decide)
  have hfirst : Literal "$2a".toList 42 := readLiteral?_eq_some_iff.mp (by decide)
  have hsecond : Literal "-1".toList (-1) := readLiteral?_eq_some_iff.mp (by decide)
  have hliterals : List.Forall₂ Literal (pieces ',' "$2a,-1".toList) [42, -1] :=
    .cons hfirst (.cons hsecond .nil)
  have hrules := read_follows_grammar.2.1 _ _ _ hinside
  exact ⟨hinside, by decide, (hrules.2.1 42 [-1]).mpr hliterals,
    (read_follows_grammar.2.2 42 (by decide)).2⟩

end Arguments

end TrnComputer
