/-! # Blank characters and trimming

Texts are handled as lists of characters.

* `isBlank`: the Unicode property White_Space (25 code points in ten ranges).
* `trimStart`, `trimEnd`, `trim`: a text without the blanks at its start, at its end, at both.
* `words`: the maximal runs of characters that are not blank.
-/

namespace TrnComputer.Text
set_option autoImplicit false

/-! ## The property -/

/-- The closed ranges of code points with the property White_Space, ascending and apart. -/
def blankRanges : List (Nat × Nat) :=
  [(0x09, 0x0D), (0x20, 0x20), (0x85, 0x85), (0xA0, 0xA0), (0x1680, 0x1680), (0x2000, 0x200A),
    (0x2028, 0x2029), (0x202F, 0x202F), (0x205F, 0x205F), (0x3000, 0x3000)]

/-- A character is blank when its code point lies in one of the ranges. -/
def isBlank (c : Char) : Bool :=
  blankRanges.any fun range => range.1 ≤ c.toNat && c.toNat ≤ range.2

/-! ## Trimming -/

/-- The text from its first character that is not blank. -/
def trimStart (s : List Char) : List Char := s.dropWhile isBlank

/-- The text up to its last character that is not blank. -/
def trimEnd (s : List Char) : List Char := (s.reverse.dropWhile isBlank).reverse

/-- The text between its first and its last character that is not blank. -/
def trim (s : List Char) : List Char := trimEnd (trimStart s)

/-- Whether every character is blank; so is the empty text. -/
def isAllBlank (s : List Char) : Bool := s.all isBlank

theorem trim_eq_nil_iff {s : List Char} : trim s = [] ↔ isAllBlank s = true := by
  have hdrop : ∀ l : List Char, l.dropWhile isBlank = [] ↔ ∀ c ∈ l, isBlank c = true := by
    intro l
    induction l with
    | nil => simp
    | cons c l ih => by_cases hc : isBlank c = true <;> simp [hc, ih]
  simp only [trim, trimEnd, isAllBlank, List.reverse_eq_nil_iff, hdrop, List.mem_reverse,
    List.all_eq_true]
  constructor
  · intro h c hc
    by_cases hb : trimStart s = []
    · exact (hdrop s).1 hb c hc
    · have hne : ∃ d r, trimStart s = d :: r := List.exists_cons_of_ne_nil hb
      obtain ⟨d, r, hd⟩ := hne
      have hlast : isBlank d = true := h d (by rw [hd]; exact List.mem_cons_self)
      have := List.head?_dropWhile_not isBlank s
      rw [show s.dropWhile isBlank = d :: r from hd] at this
      simp [hlast] at this
  · intro h c hc
    exact h c ((List.dropWhile_sublist isBlank).subset hc)

/-! ## Words -/

/-- The maximal runs of characters that are not blank, in order. -/
def words (s : List Char) : List (List Char) :=
  let pieces := s.foldr
    (fun c (acc : List Char × List (List Char)) =>
      if isBlank c then ([], acc.1 :: acc.2) else (c :: acc.1, acc.2)) ([], [])
  (pieces.1 :: pieces.2).filter (!·.isEmpty)

end TrnComputer.Text
