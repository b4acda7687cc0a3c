/-! # Splitting texts

* `split sep s`: the pieces of `s` between the characters `sep`. `length_split`,
  `notMem_of_mem_split` and `intercalate_split` say that it cuts at every separator and loses
  nothing.
* `lines s`: the lines of `s`. A line feed ends a line, and a carriage return just before it belongs
  to the line end. There is no empty line after the last line feed.
-/

namespace TrnComputer.Text
set_option autoImplicit false

def splitFirst (sep : Char) (s : List Char) : List Char × List (List Char) :=
  s.foldr (fun c acc => if c = sep then ([], acc.1 :: acc.2) else (c :: acc.1, acc.2)) ([], [])

def split (sep : Char) (s : List Char) : List (List Char) :=
  (splitFirst sep s).1 :: (splitFirst sep s).2

theorem splitFirst_cons (sep c : Char) (s : List Char) :
    splitFirst sep (c :: s) =
      if c = sep then ([], (splitFirst sep s).1 :: (splitFirst sep s).2)
      else (c :: (splitFirst sep s).1, (splitFirst sep s).2) := rfl

theorem split_nil (sep : Char) : split sep [] = [[]] := rfl

theorem split_cons_self (sep : Char) (s : List Char) :
    split sep (sep :: s) = [] :: split sep s := by
  simp [split, splitFirst_cons]

theorem split_cons_of_ne {sep c : Char} (h : c ≠ sep) (s : List Char) :
    split sep (c :: s) = (c :: (splitFirst sep s).1) :: (splitFirst sep s).2 := by
  simp [split, splitFirst_cons, h]

/-- There is one piece more than there are separators. -/
theorem length_split (sep : Char) (s : List Char) :
    (split sep s).length = s.count sep + 1 := by
  induction s with
  | nil => rfl
  | cons c s ih =>
    by_cases h : c = sep
    · subst h
      simp [split_cons_self, ih]
    · rw [split_cons_of_ne h, List.count_cons_of_ne h]
      exact ih

/-- No piece has a separator in it. -/
theorem notMem_of_mem_split {sep : Char} {s piece : List Char} (h : piece ∈ split sep s) :
    sep ∉ piece := by
  induction s generalizing piece with
  | nil => simp [split_nil] at h; simp [h]
  | cons c s ih =>
    by_cases hc : c = sep
    · subst hc
      rcases List.mem_cons.1 (split_cons_self c s ▸ h) with rfl | h
      · exact List.not_mem_nil
      · exact ih h
    · rcases List.mem_cons.1 (split_cons_of_ne hc s ▸ h) with rfl | h
      · intro hmem
        rcases List.mem_cons.1 hmem with hmem | hmem
        · exact hc hmem.symm
        · exact ih List.mem_cons_self hmem
      · exact ih (List.mem_cons_of_mem _ h)

/-- The pieces with separators between them are the text. -/
theorem intercalate_split (sep : Char) (s : List Char) : [sep].intercalate (split sep s) = s := by
  induction s with
  | nil => rfl
  | cons c s ih =>
    by_cases h : c = sep
    · subst h
      rw [split_cons_self, split, List.intercalate_cons_cons, ← split, ih]
      rfl
    · rw [split_cons_of_ne h]
      rw [split] at ih
      cases hrest : (splitFirst sep s).2 with
      | nil => simpa [hrest] using ih
      | cons piece pieces =>
        rw [hrest, List.intercalate_cons_cons] at ih
        rw [List.intercalate_cons_cons, List.cons_append, List.cons_append, ih]

/-- A text without one carriage return at its end. -/
def dropFinalReturn (s : List Char) : List Char :=
  if s.getLast? = some '\r' then s.dropLast else s

def lines (s : List Char) : List (List Char) :=
  let pieces := split '\n' s
  let unfinished := pieces.getLast?.getD []
  pieces.dropLast.map dropFinalReturn ++ if unfinished.isEmpty then [] else [unfinished]

end TrnComputer.Text
