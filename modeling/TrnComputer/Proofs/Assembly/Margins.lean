import Mathlib.Data.List.TakeWhile
import TrnComputer.Assembly.Statement
import TrnComputer.Proofs.Text.Lines

/-! # The margins of a line

What counts of a line is `Text.trim (stripComment line)`: its comment and the blanks at its ends do
not.

* `append_trim`, `trim_append`: blanks at the start and at the end are lost.
* `trim_trim`, `head?_trim`, `getLast?_trim`: a trimmed text has none left.
* `Commented`, `commented_iff`: two slashes stand next to each other.
* `stripComment_append_of_commented`, `stripComment_append_cons`: what a comment hides, and what it
  does not.
-/

namespace TrnComputer
set_option autoImplicit false

/-! ## Blanks -/

namespace Text

section
variable {s t : List Char}

theorem trimStart_eq_nil (h : isAllBlank s = true) : trimStart s = [] := by
  apply List.dropWhile_eq_nil_iff.mpr
  exact List.all_eq_true.mp h

theorem append_trim (h : isAllBlank s = true) (t : List Char) : trim (s ++ t) = trim t := by
  rw [trim, trimStart, List.dropWhile_append_of_pos (List.all_eq_true.mp h)]
  rfl

theorem trimEnd_append (s : List Char) (h : isAllBlank t = true) :
    trimEnd (s ++ t) = trimEnd s := by
  have hback : ∀ c ∈ t.reverse, isBlank c = true := by
    intro c hc
    exact List.all_eq_true.mp h c (List.mem_reverse.mp hc)
  rw [trimEnd, List.reverse_append, List.dropWhile_append_of_pos hback]
  rfl

theorem trim_append (s : List Char) (h : isAllBlank t = true) : trim (s ++ t) = trim s := by
  rw [trim, trim]
  by_cases hnone : trimStart s = []
  · have hstart : trimStart (s ++ t) = trimStart t := by
      rw [trimStart, List.dropWhile_append, ← trimStart, hnone]
      rfl
    rw [hstart, trimStart_eq_nil h, hnone]
  · have hstart : trimStart (s ++ t) = trimStart s ++ t := by
      rw [trimStart, List.dropWhile_append, ← trimStart, List.isEmpty_eq_false_iff.mpr hnone]
      rfl
    rw [hstart, trimEnd_append _ h]

/-- Blanks inside a text stay. -/
theorem trimEnd_append_of_not_blank (s : List Char) (h : isAllBlank t = false) :
    trimEnd (s ++ t) = s ++ trimEnd t := by
  have hkept : (t.reverse.dropWhile isBlank).isEmpty = false := by
    rw [List.isEmpty_eq_false_iff]
    intro hnone
    have hall : isAllBlank t = true := by
      apply List.all_eq_true.mpr
      intro c hc
      exact List.dropWhile_eq_nil_iff.mp hnone c (List.mem_reverse.mpr hc)
    rw [hall] at h
    cases h
  rw [trimEnd, List.reverse_append, List.dropWhile_append, hkept, trimEnd]
  simp

theorem isPrefix_trimEnd (s : List Char) : trimEnd s <+: s := by
  have hback : s.reverse.dropWhile isBlank <:+ s.reverse := List.dropWhile_suffix _
  rw [← List.reverse_prefix, List.reverse_reverse] at hback
  exact hback

theorem isInfix_trim (s : List Char) : trim s <:+: s :=
  (isPrefix_trimEnd _).isInfix.trans (List.dropWhile_suffix _).isInfix

theorem head?_trimStart {c : Char} (h : (trimStart s).head? = some c) : isBlank c = false := by
  have hfirst := List.head?_dropWhile_not isBlank s
  rw [← trimStart, h] at hfirst
  simpa using hfirst

theorem head?_trim {c : Char} (h : (trim s).head? = some c) : isBlank c = false := by
  obtain ⟨back, hback⟩ := isPrefix_trimEnd (trimStart s)
  have hfirst : (trimStart s).head? = some c := by
    rw [← hback, List.head?_append, ← trim, h, Option.some_or]
  exact head?_trimStart hfirst

theorem getLast?_trim {c : Char} (h : (trim s).getLast? = some c) : isBlank c = false := by
  rw [trim, trimEnd, List.getLast?_reverse] at h
  have hlast := List.head?_dropWhile_not isBlank (trimStart s).reverse
  rw [h] at hlast
  simpa using hlast

theorem trim_trim (s : List Char) : trim (trim s) = trim s :=
  trim_eq_self (fun _ hc => head?_trim hc) (fun _ hc => getLast?_trim hc)

end

end Text

/-! ## Comments -/

/-- Two slashes stand next to each other. -/
def Commented (line : List Char) : Prop := ['/', '/'] <:+: line

section
variable {s t : List Char} {c : Char}

theorem commented_cons : Commented (c :: s) ↔ c = '/' ∧ s.head? = some '/' ∨ Commented s := by
  rw [Commented, List.infix_cons_iff, ← Commented, List.cons_prefix_cons]
  cases s with
  | nil => simp
  | cons d rest => simp [List.cons_prefix_cons, eq_comm]

theorem isPrefix_stripComment (s : List Char) : stripComment s <+: s := by
  fun_induction stripComment s with
  | case1 => exact List.nil_prefix
  | case2 rest => exact List.nil_prefix
  | case3 c rest hfree ih => exact (List.prefix_cons_inj c).mpr ih

theorem stripComment_eq_self (h : ¬Commented s) : stripComment s = s := by
  fun_induction stripComment s with
  | case1 => rfl
  | case2 rest => exact absurd (commented_cons.mpr (.inl ⟨rfl, rfl⟩)) h
  | case3 c rest hfree ih => rw [ih fun hrest => h (commented_cons.mpr (.inr hrest))]

theorem not_commented_stripComment (s : List Char) : ¬Commented (stripComment s) := by
  fun_induction stripComment s with
  | case1 => simp [Commented]
  | case2 rest => simp [Commented]
  | case3 c rest hfree ih =>
    rw [commented_cons]
    rintro (⟨rfl, hslash⟩ | hrest)
    · obtain ⟨back, hback⟩ := isPrefix_stripComment rest
      have hhead : rest.head? = some '/' := by
        rw [← hback, List.head?_append, hslash, Option.some_or]
      obtain ⟨more, rfl⟩ := List.head?_eq_some_iff.mp hhead
      exact hfree more rfl rfl
    · exact ih hrest

theorem commented_iff : Commented s ↔ stripComment s ≠ s := by
  constructor
  · intro h heq
    exact not_commented_stripComment s (heq.symm ▸ h)
  · intro h
    by_contra hfree
    exact h (stripComment_eq_self hfree)

instance : DecidablePred Commented := fun _ => decidable_of_iff _ commented_iff.symm

theorem stripComment_cons_of_ne (h : c ≠ '/') (s : List Char) :
    stripComment (c :: s) = c :: stripComment s := by
  rw [stripComment]
  intro rest heq
  exact absurd heq h

theorem stripComment_append (h : '/' ∉ s) (t : List Char) :
    stripComment (s ++ t) = s ++ stripComment t := by
  induction s with
  | nil => rfl
  | cons c s ih =>
    obtain ⟨hc, hs⟩ := not_or.mp fun hmem => h (List.mem_cons.mpr hmem)
    rw [List.cons_append, stripComment_cons_of_ne (Ne.symm hc), ih hs, List.cons_append]

theorem stripComment_append_of_commented (h : Commented s) (t : List Char) :
    stripComment (s ++ t) = stripComment s := by
  fun_induction stripComment s with
  | case1 => simp [Commented] at h
  | case2 rest => rfl
  | case3 c rest hfree ih =>
    obtain ⟨rfl, hhead⟩ | hrest := commented_cons.mp h
    · obtain ⟨more, rfl⟩ := List.head?_eq_some_iff.mp hhead
      exact absurd rfl (hfree more rfl)
    · obtain ⟨d, more, rfl⟩ := List.exists_cons_of_ne_nil (l := rest) (by
        rintro rfl
        simp [Commented] at hrest)
      rw [List.cons_append, stripComment, ih hrest]
      rintro after rfl heq
      cases heq
      exact hfree more rfl rfl

/-- Behind a text without a comment, all but a slash is no part of a comment that begins there. -/
theorem stripComment_append_cons (h : ¬Commented s) (hc : c ≠ '/') (t : List Char) :
    stripComment (s ++ c :: t) = s ++ c :: stripComment t := by
  induction s with
  | nil => exact stripComment_cons_of_ne hc t
  | cons d rest ih =>
    obtain ⟨hhead, hrest⟩ := not_or.mp (mt commented_cons.mpr h)
    rw [List.cons_append, stripComment, ih hrest, List.cons_append]
    rintro after rfl heq
    apply hhead
    refine ⟨rfl, ?_⟩
    cases rest with
    | nil => exact absurd (List.cons.inj heq).1 hc
    | cons first more =>
      rw [List.head?_cons, (List.cons.inj heq).1]

end

end TrnComputer
