import TrnComputer.Assembly.Placement
import TrnComputer.Proofs.Assembly.Rendering

/-! # Statements as they are written

* `Statement.Plain`: a statement without a label, with a mnemonic in capitals and with arguments
  of one word.
* `Statement.read_render`: a plain statement is read as it was written.
* `Arguments.read_enclose`: a numeral is read as a literal, between parentheses or not.
-/

namespace TrnComputer
set_option autoImplicit false

/-! ## Statements -/

namespace Statement

/-- A statement without a label whose mnemonic is in capitals and whose arguments are one word
without a slash or a colon. -/
structure Plain (s : Statement) : Prop where
  label : s.label = none
  named : s.mnemonic.toList ≠ []
  capital : ∀ c ∈ s.mnemonic.toList, c.isUpper = true
  arguments : ∀ c ∈ s.arguments.toList, Text.isBlank c = false ∧ c ≠ '/' ∧ c ≠ ':'

/-- What is written behind the mnemonic. -/
def tail (s : Statement) : List Char :=
  (if s.indexed then [',', 'I'] else []) ++
    (if s.arguments.toList = [] then [] else ' ' :: s.arguments.toList)

theorem toList_render {s : Statement} (h : s.label = none) :
    s.render.toList = s.mnemonic.toList ++ s.tail := by
  rw [text_render, heading, modifier, gap, h, tail]
  by_cases hnone : s.arguments.toList = [] <;> simp [hnone]

theorem isAlpha_of_isUpper {c : Char} (h : c.isUpper = true) : c.isAlpha = true := by
  have hletter : c.isAlpha = (c.isUpper || c.isLower) := rfl
  rw [hletter, h, Bool.true_or]

theorem isAlphanum_of_isUpper {c : Char} (h : c.isUpper = true) : c.isAlphanum = true :=
  isAlphanum_of_isAlpha (isAlpha_of_isUpper h)

theorem toUpper_of_isUpper {c : Char} (h : c.isUpper = true) : c.toUpper = c := by
  have hbounds : 'A'.val ≤ c.val ∧ c.val ≤ 'Z'.val := of_decide_eq_true h
  unfold Char.toUpper
  rw [dif_neg]
  intro hlower
  exact absurd (UInt32.le_trans hlower.1 hbounds.2) (by decide)

section
variable {s : Statement} (h : s.Plain)
include h

theorem Plain.printable : s.Printable where
  label := by
    intro name hname
    rw [h.label] at hname
    cases hname
  named := h.named
  letters := fun c hc => isAlpha_of_isUpper (h.capital c hc)
  trimmed := Text.trim_of_forall fun c hc => (h.arguments c hc).1
  oneLine := fun hmem => absurd (h.arguments _ hmem).1 (by decide)
  uncommented := fun hcomment =>
    (h.arguments _ (hcomment.subset List.mem_cons_self)).2.1 rfl
  colon := fun _ hhead => (h.arguments _ (List.mem_of_mem_head? hhead)).2.2 rfl

theorem Plain.capitalized_eq : s.capitalized = s := by
  have hsame : s.mnemonic.toList.map Char.toUpper = s.mnemonic.toList.map id :=
    List.map_congr_left fun c hc => toUpper_of_isUpper (h.capital c hc)
  have hmnemonic : capitals s.mnemonic.toList = s.mnemonic := by
    rw [capitals, hsame, List.map_id, String.ofList_toList]
  have hlabel : s.label.map (fun name => capitals name.toList) = s.label := by
    rw [h.label]
    rfl
  rw [capitalized, hlabel, hmnemonic]

theorem Plain.mem_text {c : Char} (hc : c ∈ s.mnemonic.toList ++ s.tail) :
    c.isUpper = true ∨ c = ',' ∨ c = ' ' ∨ c ∈ s.arguments.toList := by
  rcases List.mem_append.mp hc with hname | htail
  · exact .inl (h.capital c hname)
  · unfold tail at htail
    rcases List.mem_append.mp htail with hmodifier | hword
    · split at hmodifier
      · simp only [List.mem_cons, List.not_mem_nil, or_false] at hmodifier
        rcases hmodifier with rfl | rfl
        · exact .inr (.inl rfl)
        · exact .inl rfl
      · cases hmodifier
    · split at hword
      · cases hword
      · exact .inr (.inr (List.mem_cons.mp hword))

theorem Plain.read_render : read s.render.toList = .ok (some s) := by
  rw [h.printable.read_text, h.capitalized_eq]

end

end Statement

/-! ## Arguments -/

namespace Arguments

def enclose (indirect : Bool) (text : List Char) : List Char :=
  if indirect then '(' :: (text ++ [')']) else text

theorem mem_enclose {indirect : Bool} {text : List Char} {c : Char}
    (h : c ∈ enclose indirect text) : c ∈ text ∨ c = '(' ∨ c = ')' := by
  cases indirect with
  | false => exact .inl h
  | true =>
    simp only [enclose, if_true, List.mem_cons, List.mem_append, List.not_mem_nil, or_false] at h
    rcases h with h | h | h
    · exact .inr (.inl h)
    · exact .inl h
    · exact .inr (.inr h)

theorem unwrap?_enclose {indirect : Bool} {text : List Char} (h : '(' ∉ text) :
    unwrap? (enclose indirect text) = if indirect then some text else none := by
  cases indirect with
  | true =>
    have hlast : ('(' :: (text ++ [')'])).getLast? = some ')' := by
      rw [← List.cons_append, List.getLast?_concat]
    rw [enclose, if_pos rfl, unwrap?, if_pos ⟨rfl, hlast⟩, if_pos rfl, List.tail_cons,
      List.dropLast_concat]
  | false =>
    have hhead : text.head? ≠ some '(' := fun hhead => h (List.mem_of_mem_head? hhead)
    simp only [enclose, unwrap?, hhead, false_and, if_neg, Bool.false_eq_true, not_false_eq_true]

/-- Missing arguments, between parentheses or not. -/
theorem read_enclose_nil (indirect : Bool) :
    read (enclose indirect []) = .ok ⟨indirect, []⟩ := by
  cases indirect <;> rfl

/-- A literal, between parentheses or not. -/
theorem read_enclose {text : List Char} {value : Int} (indirect : Bool) (hne : text ≠ [])
    (hword : ∀ c ∈ text, Text.isBlank c = false ∧ c ≠ ',' ∧ c ≠ '(')
    (hread : Text.readLiteral? text = some value) :
    read (enclose indirect text) = .ok ⟨indirect, [.literal value]⟩ := by
  have hblank : ∀ c ∈ enclose indirect text, Text.isBlank c = false := fun c hc => by
    rcases mem_enclose hc with hc | rfl | rfl
    · exact (hword c hc).1
    · decide
    · decide
  have hcomma : ',' ∉ text := fun hmem => (hword ',' hmem).2.1 rfl
  have hopening : '(' ∉ text := fun hmem => (hword '(' hmem).2.2 rfl
  have htrim : Text.trim text = text := Text.trim_of_forall fun c hc => (hword c hc).1
  have hfilled : text.isEmpty = false := List.isEmpty_eq_false_iff.mpr hne
  have hone : ∀ sole, readOne sole text = .ok (.literal value) := fun sole => by
    rw [readOne, hread]
  rw [read, Text.trim_of_forall hblank, unwrap?_enclose hopening]
  cases indirect <;>
    simp [enclose, htrim, hfilled, Text.split_of_notMem hcomma, hone, pure, Except.pure, bind,
      Except.bind]

end Arguments

end TrnComputer
