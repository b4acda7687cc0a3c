import Mathlib.Logic.Relation
import TrnComputer.Proofs.Assembly.Overwriting
import TrnComputer.Proofs.Assembly.Spelling

/-! # Spelling and layout do not matter

* `Retouched`: a line with a comment behind it, or with blanks at its ends.
* `Restyled`: a source in other letters, with a line retouched, with a carriage return at a line end
  or with an idle line more.
* `essence_restyled`: each of these keeps what the memory depends on.
* `memory_of_restyled`: however often a source is restyled, its memory is the same.
-/

namespace TrnComputer
set_option autoImplicit false

/-! ## Restyling -/

/-- A line that says nothing: blanks, and a comment perhaps. -/
def Idle (line : List Char) : Prop :=
  ∃ blanks note, line = blanks ++ note ∧ Text.isAllBlank blanks = true ∧
    (note = [] ∨ ['/', '/'] <+: note)

/-- A line with a comment behind a space, or with blanks at one of its ends. -/
inductive Retouched (line : List Char) : List Char → Prop
  | comment (note : List Char) : Retouched line (line ++ ' ' :: '/' :: '/' :: note)
  | trailing {blanks : List Char} (h : Text.isAllBlank blanks = true) :
    Retouched line (line ++ blanks)
  | leading {blanks : List Char} (h : Text.isAllBlank blanks = true) :
    Retouched line (blanks ++ line)

/-- A line may begin behind a text. -/
def LineStart (text : List Char) : Prop := text = [] ∨ ∃ front, text = front ++ ['\n']

/-- A line may end before a text. -/
def LineEnd (text : List Char) : Prop :=
  text = [] ∨ ∃ back, text = '\n' :: back ∨ text = '\r' :: '\n' :: back

/-- A source that is written in another way. -/
inductive Restyled : List Char → List Char → Prop
  /-- Letters are capitals or not. -/
  | letters {source source' : List Char}
    (h : source.map Char.toUpper = source'.map Char.toUpper) : Restyled source source'
  /-- A line is retouched. -/
  | line {before line line' after : List Char} (hbefore : LineStart before) (hafter : LineEnd after)
    (hline : '\n' ∉ line) (hline' : '\n' ∉ line') (h : Retouched line line') :
    Restyled (before ++ line ++ after) (before ++ line' ++ after)
  /-- A carriage return belongs to a line end. -/
  | carriageReturn {before after : List Char} :
    Restyled (before ++ '\n' :: after) (before ++ '\r' :: '\n' :: after)
  /-- An idle line stands before another one. -/
  | inserted {before idle after : List Char} (hbefore : LineStart before) (hidle : Idle idle)
    (hline : '\n' ∉ idle) : Restyled (before ++ after) (before ++ idle ++ '\n' :: after)
  /-- An idle line stands at the end. -/
  | appended {before idle : List Char} (hidle : Idle idle) (hline : '\n' ∉ idle) :
    Restyled before (before ++ '\n' :: idle)

/-! ## Lines -/

/-- What counts of a line. -/
def counted (line : List Char) : List Char := Text.trim (stripComment line)

section
variable {line line' : List Char}

theorem essenceOfLine_congr (h : counted line = counted line') :
    essenceOfLine line = essenceOfLine line' := by
  unfold counted at h
  simp only [essenceOfLine, placementsOfLine, Statement.read, h]

theorem slash_notMem_of_blank {blanks : List Char} (h : Text.isAllBlank blanks = true) :
    '/' ∉ blanks := by
  intro hmem
  cases List.all_eq_true.mp h _ hmem

theorem counted_trailing (line : List Char) {blanks : List Char}
    (h : Text.isAllBlank blanks = true) : counted (line ++ blanks) = counted line := by
  by_cases hcommented : Commented line
  · rw [counted, stripComment_append_of_commented hcommented, counted]
  · cases blanks with
    | nil => rw [List.append_nil]
    | cons c rest =>
      -- No blank is a slash, so none makes a comment with a slash at the end of the line.
      have hfree := slash_notMem_of_blank h
      have hc : c ≠ '/' := by
        rintro rfl
        exact hfree List.mem_cons_self
      have hrest : stripComment rest = rest := by
        have happend := stripComment_append (fun hmem => hfree (List.mem_cons_of_mem c hmem)) []
        rwa [List.append_nil, stripComment, List.append_nil] at happend
      rw [counted, stripComment_append_cons hcommented hc, hrest, Text.trim_append _ h, counted,
        stripComment_eq_self hcommented]

theorem counted_comment (line note : List Char) :
    counted (line ++ ' ' :: '/' :: '/' :: note) = counted line := by
  by_cases hcommented : Commented line
  · rw [counted, stripComment_append_of_commented hcommented, counted]
  · have hnote : stripComment ('/' :: '/' :: note) = [] := rfl
    rw [counted, stripComment_append_cons hcommented (by decide), hnote,
      Text.trim_append line (by decide), counted, stripComment_eq_self hcommented]

theorem counted_leading (line : List Char) {blanks : List Char}
    (h : Text.isAllBlank blanks = true) : counted (blanks ++ line) = counted line := by
  rw [counted, stripComment_append (slash_notMem_of_blank h), Text.append_trim h, counted]

theorem counted_retouched (h : Retouched line line') : counted line' = counted line := by
  cases h with
  | comment note => exact counted_comment line note
  | trailing h => exact counted_trailing line h
  | leading h => exact counted_leading line h

theorem counted_idle (h : Idle line) : counted line = [] := by
  obtain ⟨blanks, note, rfl, hblanks, hnote⟩ := h
  rw [counted_leading note hblanks]
  obtain rfl | ⟨rest, rfl⟩ := hnote
  · rfl
  · rfl

theorem essenceOfLine_idle (h : Idle line) : essenceOfLine line = [] := by
  have hnone : counted line = counted [] := counted_idle h
  rw [essenceOfLine_congr hnone]
  rfl

end

/-! ## Texts -/

/-- What the memory of a text depends on. -/
def essenceOf (text : List Char) : List Placement :=
  (Text.split '\n' text).flatMap essenceOfLine

theorem essenceOf_nil : essenceOf [] = [] := rfl

theorem essenceOf_append (front back : List Char) :
    essenceOf (front ++ '\n' :: back) = essenceOf front ++ essenceOf back := by
  rw [essenceOf, Text.split_append, List.flatMap_append, essenceOf, essenceOf]

theorem essenceOf_line {line : List Char} (h : '\n' ∉ line) :
    essenceOf line = essenceOfLine line := by
  rw [essenceOf, Text.split_of_notMem h, List.flatMap_singleton]

theorem essenceOfLine_dropFinalReturn (line : List Char) :
    essenceOfLine (Text.dropFinalReturn line) = essenceOfLine line := by
  unfold Text.dropFinalReturn
  split
  · next hreturn =>
    have hline := List.dropLast_append_getLast? _ hreturn
    apply essenceOfLine_congr
    have hblank : counted (line.dropLast ++ ['\r']) = counted line.dropLast :=
      counted_trailing _ (by decide)
    rw [← hblank, hline]
  · rfl

/-- Neither a carriage return before a line feed counts, nor whether there is a last line feed. -/
theorem essence_lines (text : List Char) :
    (Text.lines text).flatMap essenceOfLine = essenceOf text := by
  obtain hnil | ⟨front, last, hpieces⟩ := (Text.split '\n' text).eq_nil_or_concat
  · cases hnil
  · have hreturn : (front.map Text.dropFinalReturn).flatMap essenceOfLine =
        front.flatMap essenceOfLine := by
      rw [List.flatMap_map]
      congr 1
      funext line
      exact essenceOfLine_dropFinalReturn line
    have hlast : (if last.isEmpty then [] else [last]).flatMap essenceOfLine =
        essenceOfLine last := by
      cases last with
      | nil => rfl
      | cons c rest => exact List.flatMap_singleton _ _
    rw [List.concat_eq_append] at hpieces
    simp only [Text.lines, essenceOf, hpieces, List.dropLast_concat, List.getLast?_concat,
      Option.getD_some, List.flatMap_append, hreturn, hlast, List.flatMap_singleton]

theorem essenceOf_start {before : List Char} (h : LineStart before) (text : List Char) :
    essenceOf (before ++ text) = essenceOf before ++ essenceOf text := by
  obtain rfl | ⟨front, rfl⟩ := h
  · rfl
  · have hfeed (back : List Char) : front ++ ['\n'] ++ back = front ++ '\n' :: back := by
      rw [List.append_assoc, List.singleton_append]
    have hbefore := essenceOf_append front []
    rw [essenceOf_nil, List.append_nil] at hbefore
    rw [hfeed, essenceOf_append, hbefore]

theorem essenceOf_feed (back : List Char) : essenceOf ('\n' :: back) = essenceOf back :=
  essenceOf_append [] back

theorem essenceOf_return (back : List Char) :
    essenceOf ('\r' :: '\n' :: back) = essenceOf ('\n' :: back) := by
  have hblank : essenceOfLine ['\r'] = [] :=
    essenceOfLine_congr (by decide : counted ['\r'] = counted [])
  have hreturn : essenceOf ['\r'] = [] := by rw [essenceOf_line (by decide), hblank]
  have hfeed := essenceOf_append ['\r'] back
  rw [hreturn, List.nil_append] at hfeed
  rw [essenceOf_feed]
  exact hfeed

theorem essenceOf_end {line after : List Char} (hline : '\n' ∉ line) (h : LineEnd after) :
    essenceOf (line ++ after) = essenceOfLine line ++ essenceOf after := by
  have hreturn : essenceOfLine (line ++ ['\r']) = essenceOfLine line :=
    essenceOfLine_congr (counted_trailing line (by decide))
  obtain rfl | ⟨back, rfl | rfl⟩ := h
  · rw [List.append_nil, essenceOf_line hline, essenceOf_nil, List.append_nil]
  · rw [essenceOf_append, essenceOf_line hline, essenceOf_feed]
  · have hplain : '\n' ∉ line ++ ['\r'] := by simpa using hline
    rw [essenceOf_return, essenceOf_feed, ← List.singleton_append, ← List.append_assoc,
      essenceOf_append, essenceOf_line hplain, hreturn]

/-- A text ends in a line. -/
theorem exists_lastLine (text : List Char) :
    ∃ before line, text = before ++ line ∧ LineStart before ∧ '\n' ∉ line := by
  induction text with
  | nil => exact ⟨[], [], rfl, .inl rfl, List.not_mem_nil⟩
  | cons c text ih =>
    -- The character in front ends a line of its own only if no line feed follows.
    obtain ⟨before, line, rfl, rfl | ⟨front, rfl⟩, hline⟩ := ih
    · by_cases hc : c = '\n'
      · exact ⟨[c], line, rfl, .inr ⟨[], by rw [hc, List.nil_append]⟩, hline⟩
      · refine ⟨[], c :: line, rfl, .inl rfl, fun hmem => ?_⟩
        rcases List.mem_cons.mp hmem with heq | hmem
        · exact hc heq.symm
        · exact hline hmem
    · exact ⟨c :: (front ++ ['\n']), line, rfl, .inr ⟨c :: front, rfl⟩, hline⟩

theorem essenceOf_capitals (text : List Char) :
    essenceOf (text.map Char.toUpper) = essenceOf text := by
  rw [essenceOf, Text.split_capitals text (by decide), List.flatMap_map, essenceOf]
  congr 1
  funext line
  exact essenceOfLine_capitals line

theorem essence_restyled {text text' : List Char} (h : Restyled text text') :
    essenceOf text = essenceOf text' := by
  cases h with
  | letters h => rw [← essenceOf_capitals, h, essenceOf_capitals]
  | line hbefore hafter hline hline' h =>
    rw [List.append_assoc, List.append_assoc, essenceOf_start hbefore, essenceOf_start hbefore,
      essenceOf_end hline hafter, essenceOf_end hline' hafter,
      essenceOfLine_congr (counted_retouched h)]
  | @carriageReturn before after =>
    obtain ⟨front, line, rfl, hfront, hline⟩ := exists_lastLine before
    rw [List.append_assoc, List.append_assoc, essenceOf_start hfront, essenceOf_start hfront,
      essenceOf_end hline (.inr ⟨after, .inl rfl⟩), essenceOf_end hline (.inr ⟨after, .inr rfl⟩),
      essenceOf_return]
  | inserted hbefore hidle hline =>
    rw [essenceOf_append, essenceOf_start hbefore, essenceOf_start hbefore, essenceOf_line hline,
      essenceOfLine_idle hidle, List.append_nil]
  | appended hidle hline =>
    rw [essenceOf_append, essenceOf_line hline, essenceOfLine_idle hidle, List.append_nil]

theorem essenceOf_congr {text text' : List Char} (h : Relation.EqvGen Restyled text text') :
    essenceOf text = essenceOf text' := by
  induction h with
  | rel text text' h => exact essence_restyled h
  | refl text => rfl
  | symm text text' _ ih => exact ih.symm
  | trans text next last _ _ ih ih' => exact ih.trans ih'

/-- A source may be restyled, and the restyling undone, in as many places as one likes: the memory
is the same, if there is one. -/
theorem memory_of_restyled {source source' : String}
    (h : Relation.EqvGen Restyled source.toList source'.toList) (memory : Memory) :
    assemble source' = .ok memory ↔ assemble source = .ok memory := by
  apply assemble_congr
  rw [essence_lines, essence_lines, essenceOf_congr h]

/-- Letters, a comment and a line end. -/
theorem memory_of_restyled_comment :
    Relation.EqvGen Restyled "NAM P\nA: JMP A\nEND".toList
      "nam p\na: jmp A // again\nend\n".toList ∧
    assemble "nam p\na: jmp A // again\nend\n" = .ok (Memory.ofList [622592]) := by
  have hletters : Restyled "NAM P\nA: JMP A\nEND".toList "nam p\na: jmp A\nend".toList :=
    .letters (by decide)
  have hcomment : Restyled "nam p\na: jmp A\nend".toList
      "nam p\na: jmp A // again\nend".toList :=
    @Restyled.line "nam p\n".toList "a: jmp A".toList _ "\nend".toList
      (.inr ⟨"nam p".toList, by decide⟩) (.inr ⟨"end".toList, .inl (by decide)⟩) (by decide)
      (by decide) (.comment " again".toList)
  have hend : Restyled "nam p\na: jmp A // again\nend".toList
      "nam p\na: jmp A // again\nend\n".toList :=
    @Restyled.appended _ [] ⟨[], [], rfl, rfl, .inl rfl⟩ List.not_mem_nil
  have hrestyled := (Relation.EqvGen.rel _ _ hletters).trans _ _ _
    ((Relation.EqvGen.rel _ _ hcomment).trans _ _ _ (.rel _ _ hend))
  have hmemory : assemble "NAM P\nA: JMP A\nEND" = .ok (Memory.ofList [622592]) :=
    assemble_of_toOption (by decide +kernel)
  exact ⟨hrestyled, (memory_of_restyled hrestyled _).mpr hmemory⟩

end TrnComputer
