import TrnComputer.Text.Blank
import TrnComputer.Text.Split

/-! # Texts that are cut into pieces

* `split_of_notMem`, `split_append`: the pieces of a text around one of its separators.
* `lines_append_cons`, `lines_flatMap`: lines that are ended by a line feed each are read back.
* `firstLines`: a text up to the end of one of its lines.
* `trim_eq_self`: a text with no blank at its ends.
-/

namespace TrnComputer.Text
set_option autoImplicit false

/-! ## Pieces -/

section
variable {sep : Char} {s : List Char}

theorem split_of_notMem (h : sep ∉ s) : split sep s = [s] := by
  induction s with
  | nil => rfl
  | cons c s ih =>
    obtain ⟨hc, hs⟩ := not_or.mp (fun hmem => h (List.mem_cons.mpr hmem))
    have hrest := ih hs
    rw [split, List.cons.injEq] at hrest
    rw [split_cons_of_ne (Ne.symm hc), hrest.1, hrest.2]

/-- A separator ends the pieces before it. -/
theorem split_append (front back : List Char) :
    split sep (front ++ sep :: back) = split sep front ++ split sep back := by
  induction front with
  | nil => rw [List.nil_append, split_cons_self, split_nil, List.singleton_append]
  | cons c front ih =>
    by_cases hc : c = sep
    · rw [hc, List.cons_append, split_cons_self, split_cons_self, ih, List.cons_append]
    · obtain ⟨hfirst, hrest⟩ := List.cons.inj ih
      rw [List.cons_append, split_cons_of_ne hc, split_cons_of_ne hc, hfirst, hrest]
      rfl

theorem split_append_cons (h : sep ∉ s) (rest : List Char) :
    split sep (s ++ sep :: rest) = s :: split sep rest := by
  rw [split_append, split_of_notMem h, List.singleton_append]

end

/-! ## Lines -/

theorem lines_nil : lines [] = [] := rfl

/-- A text up to its first line feed is a line of its own. -/
theorem lines_append_cons {s : List Char} (h : '\n' ∉ s) (rest : List Char) :
    lines (s ++ '\n' :: rest) = dropFinalReturn s :: lines rest := by
  have hne : split '\n' rest ≠ [] := List.cons_ne_nil _ _
  simp only [lines, split_append_cons h]
  rw [List.dropLast_cons_of_ne_nil hne, List.map_cons, List.cons_append,
    List.getLast?_cons_of_ne_nil hne]

theorem dropFinalReturn_of_notMem {s : List Char} (h : '\r' ∉ s) : dropFinalReturn s = s := by
  unfold dropFinalReturn
  split
  · next hlast => exact absurd (List.mem_of_getLast? hlast) h
  · rfl

/-- Lines that hold neither a line feed nor a carriage return, each ended by a line feed, are read
back, and then the rest is. -/
theorem lines_flatMap {texts : List (List Char)} (h : ∀ s ∈ texts, '\n' ∉ s ∧ '\r' ∉ s)
    (rest : List Char) :
    lines (texts.flatMap (· ++ ['\n']) ++ rest) = texts ++ lines rest := by
  induction texts with
  | nil => rfl
  | cons s texts ih =>
    obtain ⟨hs, htexts⟩ := List.forall_mem_cons.mp h
    rw [List.flatMap_cons, List.append_assoc, List.append_assoc, List.singleton_append,
      lines_append_cons hs.1, dropFinalReturn_of_notMem hs.2, ih htexts, List.cons_append]

/-- A text up to the end of so many lines. -/
def firstLines : Nat → List Char → List Char
  | 0, _ => []
  | _, [] => []
  | count + 1, c :: s => c :: firstLines (if c = '\n' then count else count + 1) s

theorem firstLines_prefix (count : Nat) (s : List Char) : firstLines count s <+: s := by
  fun_induction firstLines count s with
  | case1 s => exact List.nil_prefix
  | case2 count => exact List.nil_prefix
  | case3 count c s ih => exact (List.prefix_cons_inj c).mpr ih

theorem firstLines_of_notMem {s : List Char} (h : '\n' ∉ s) (count : Nat) :
    firstLines (count + 1) s = s := by
  induction s with
  | nil => rfl
  | cons c s ih =>
    obtain ⟨hc, hs⟩ := not_or.mp (fun hmem => h (List.mem_cons.mpr hmem))
    rw [firstLines, if_neg (Ne.symm hc), ih hs]

theorem firstLines_append {s : List Char} (h : '\n' ∉ s) (count : Nat) (rest : List Char) :
    firstLines (count + 1) (s ++ '\n' :: rest) = s ++ '\n' :: firstLines count rest := by
  induction s with
  | nil => rfl
  | cons c s ih =>
    obtain ⟨hc, hs⟩ := not_or.mp (fun hmem => h (List.mem_cons.mpr hmem))
    rw [List.cons_append, firstLines, if_neg (Ne.symm hc), ih hs, List.cons_append]

/-- A text that has been cut has the first of the lines. -/
theorem lines_firstLines (count : Nat) (s : List Char) :
    lines (firstLines count s) = (lines s).take count := by
  induction count generalizing s with
  | zero => cases s <;> rfl
  | succ count ih =>
    by_cases hmem : '\n' ∈ s
    · obtain ⟨front, rest, rfl, hfront⟩ := List.eq_append_cons_of_mem hmem
      rw [firstLines_append hfront, lines_append_cons hfront, lines_append_cons hfront, ih,
        List.take_succ_cons]
    · have hshort : (lines s).length ≤ count + 1 := by
        simp only [lines, split_of_notMem hmem]
        split <;> simp
      rw [firstLines_of_notMem hmem, List.take_of_length_le hshort]

/-! ## Blanks -/

theorem dropWhile_eq_self {s : List Char} (h : ∀ c, s.head? = some c → isBlank c = false) :
    s.dropWhile isBlank = s := by
  cases s with
  | nil => rfl
  | cons c s => rw [List.dropWhile_cons, h c rfl, if_neg Bool.false_ne_true]

/-- A text with no blank at its ends has nothing to be trimmed. -/
theorem trim_eq_self {s : List Char} (hfirst : ∀ c, s.head? = some c → isBlank c = false)
    (hlast : ∀ c, s.getLast? = some c → isBlank c = false) : trim s = s := by
  have hback : s.reverse.dropWhile isBlank = s.reverse :=
    dropWhile_eq_self (fun c hc => hlast c (List.head?_reverse ▸ hc))
  rw [trim, trimStart, dropWhile_eq_self hfirst, trimEnd, hback, List.reverse_reverse]

theorem trim_of_forall {s : List Char} (h : ∀ c ∈ s, isBlank c = false) : trim s = s :=
  trim_eq_self (fun c hc => h c (List.mem_of_head? hc)) (fun c hc => h c (List.mem_of_getLast? hc))

end TrnComputer.Text
