import Mathlib.Data.List.Basic
import Mathlib.Data.List.TakeWhile
import TrnComputer.Proofs.Text.Numerals

/-! # Texts in capitals

Writing a text in capitals changes letters into letters, so that it can be done before or after the
text is trimmed, cut or read as a number.

* `toUpper_cases`: a character stays, or is one of 26 letters.
* `trim_capitals`, `split_capitals`: the pieces of a text in capitals.
* `readSigned?_capitals`, `readLiteral?_capitals`: a numeral means the same in capitals.
-/

namespace TrnComputer.Text
set_option autoImplicit false

/-! ## Characters -/

def smallLetters : List Char := (List.range 26).map fun place => Char.ofNat ('a'.toNat + place)

theorem mem_smallLetters {c : Char} (h : 'a'.val ≤ c.val ∧ c.val ≤ 'z'.val) :
    c ∈ smallLetters := by
  have hbounds : 97 ≤ c.toNat ∧ c.toNat ≤ 122 := h
  refine List.mem_map.mpr ⟨c.toNat - 97, List.mem_range.mpr (by omega), ?_⟩
  have hplace : 'a'.toNat + (c.toNat - 97) = c.toNat := by
    change 97 + (c.toNat - 97) = c.toNat
    omega
  rw [hplace, Char.ofNat_toNat]

/-- What holds of every character and itself, and of the small letters and their capitals, holds of
every character and its capital. -/
theorem toUpper_cases {p : Char → Char → Prop} (hsame : ∀ c, p c c)
    (hsmall : smallLetters.Forall fun c => p c c.toUpper) (c : Char) : p c c.toUpper := by
  by_cases h : 'a'.val ≤ c.val ∧ c.val ≤ 'z'.val
  · exact List.forall_iff_forall_mem.mp hsmall c (mem_smallLetters h)
  · have hkept : c.toUpper = c := by
      unfold Char.toUpper
      exact dif_neg h
    rw [hkept]
    exact hsame c

section
variable (c : Char)

theorem toUpper_toUpper : c.toUpper.toUpper = c.toUpper :=
  toUpper_cases (p := fun c d => c.toUpper = d → d.toUpper = d) (fun _ h => h) (by decide) c rfl

theorem isAlpha_toUpper : c.toUpper.isAlpha = c.isAlpha :=
  toUpper_cases (p := fun c d => d.isAlpha = c.isAlpha) (fun _ => rfl) (by decide) c

theorem isDigit_toUpper : c.toUpper.isDigit = c.isDigit :=
  toUpper_cases (p := fun c d => d.isDigit = c.isDigit) (fun _ => rfl) (by decide) c

theorem isAlphanum_toUpper : c.toUpper.isAlphanum = c.isAlphanum := by
  rw [Char.isAlphanum, Char.isAlphanum, isAlpha_toUpper, isDigit_toUpper]

theorem isBlank_toUpper : isBlank c.toUpper = isBlank c :=
  toUpper_cases (p := fun c d => isBlank d = isBlank c) (fun _ => rfl) (by decide) c

/-- A sign that is no letter is the capital of itself alone. -/
theorem toUpper_eq_iff {sign : Char} (h : sign.isAlpha = false) : c.toUpper = sign ↔ c = sign := by
  have hletter : smallLetters.Forall fun c => c.isAlpha = true ∧ c.toUpper.isAlpha = true := by
    decide
  apply toUpper_cases (p := fun c d => d = sign ↔ c = sign) (fun _ => Iff.rfl)
  refine hletter.imp ?_
  rintro c ⟨hsmall, hcapital⟩
  constructor <;> rintro rfl
  · rw [h] at hcapital
    cases hcapital
  · rw [h] at hsmall
    cases hsmall

theorem digitValue?_toUpper (base : Nat) : digitValue? base c.toUpper = digitValue? base c := by
  apply toUpper_cases (p := fun c d => digitValue? base d = digitValue? base c) (fun _ => rfl)
  have hkind : smallLetters.Forall fun c => c.isDigit = false ∧ c.toUpper.isDigit = false ∧
      ¬('a' ≤ c.toUpper ∧ c.toUpper ≤ 'f') ∧ 'a' ≤ c ∧ ¬('A' ≤ c ∧ c ≤ 'F') ∧
      ('A' ≤ c.toUpper ∧ c.toUpper ≤ 'F' ↔ c ≤ 'f') ∧
      c.toUpper.toNat - 65 = c.toNat - 97 := by decide
  refine hkind.imp ?_
  rintro c ⟨hdigit, hcapitalDigit, hsmall, hfirst, hcapital, hlast, hplace⟩
  simp [digitValue?, hdigit, hcapitalDigit, hsmall, hfirst, hcapital, hlast, hplace]

end

/-! ## Texts -/

section
variable (s : List Char)

theorem dropBlanks_capitals :
    (s.map Char.toUpper).dropWhile isBlank = (s.dropWhile isBlank).map Char.toUpper := by
  have hkind : isBlank ∘ Char.toUpper = isBlank := funext isBlank_toUpper
  rw [List.dropWhile_map, hkind]

theorem trimStart_capitals :
    trimStart (s.map Char.toUpper) = (trimStart s).map Char.toUpper :=
  dropBlanks_capitals s

theorem trimEnd_capitals : trimEnd (s.map Char.toUpper) = (trimEnd s).map Char.toUpper := by
  rw [trimEnd, trimEnd, ← List.map_reverse, dropBlanks_capitals, List.map_reverse]

theorem trim_capitals : trim (s.map Char.toUpper) = (trim s).map Char.toUpper := by
  rw [trim, trim, trimStart_capitals, trimEnd_capitals]

theorem split_capitals {sep : Char} (h : sep.isAlpha = false) :
    split sep (s.map Char.toUpper) = (split sep s).map (·.map Char.toUpper) := by
  induction s with
  | nil => rfl
  | cons c s ih =>
    by_cases hc : c = sep
    · have hcapital : c.toUpper = sep := (toUpper_eq_iff c h).mpr hc
      rw [List.map_cons, hcapital, hc, split_cons_self, split_cons_self, ih, List.map_cons,
        List.map_nil]
    · have hcapital : c.toUpper ≠ sep := fun heq => hc ((toUpper_eq_iff c h).mp heq)
      rw [split, split, List.map_cons, List.cons.injEq] at ih
      rw [List.map_cons, split_cons_of_ne hcapital, split_cons_of_ne hc, ih.1, ih.2, List.map_cons,
        List.map_cons]

/-! ## Numerals -/

theorem mapM_capitals (base : Nat) :
    (s.map Char.toUpper).mapM (digitValue? base) = s.mapM (digitValue? base) := by
  have hvalue : digitValue? base ∘ Char.toUpper = digitValue? base :=
    funext fun c => digitValue?_toUpper c base
  rw [List.mapM_map, hvalue]

theorem readDigits?_capitals (base : Nat) :
    readDigits? base (s.map Char.toUpper) = readDigits? base s := by
  rw [readDigits?, readDigits?, mapM_capitals, List.isEmpty_map]

theorem readSigned?_capitals : readSigned? (s.map Char.toUpper) = readSigned? s := by
  cases s with
  | nil => rfl
  | cons c s =>
    by_cases hminus : c = '-'
    · rw [hminus]
      change (readDigits? 10 (s.map Char.toUpper)).bind nonpositive? = _
      rw [readDigits?_capitals]
      rfl
    by_cases hplus : c = '+'
    · rw [hplus]
      change (readDigits? 10 (s.map Char.toUpper)).bind nonnegative? = _
      rw [readDigits?_capitals]
      rfl
    have hcapitalMinus : c.toUpper ≠ '-' := fun h => hminus ((toUpper_eq_iff c (by decide)).mp h)
    have hcapitalPlus : c.toUpper ≠ '+' := fun h => hplus ((toUpper_eq_iff c (by decide)).mp h)
    rw [List.map_cons, readSigned?_of_ne hcapitalMinus hcapitalPlus,
      readSigned?_of_ne hminus hplus, ← List.map_cons, readDigits?_capitals]

theorem readLiteral?_capitals : readLiteral? (s.map Char.toUpper) = readLiteral? s := by
  cases s with
  | nil => rfl
  | cons c s =>
    by_cases hdollar : c = '$'
    · rw [hdollar]
      change (readDigits? 16 (s.map Char.toUpper)).bind nonnegative? = _
      rw [readDigits?_capitals]
      rfl
    have hcapital : c.toUpper ≠ '$' := fun h => hdollar ((toUpper_eq_iff c (by decide)).mp h)
    rw [List.map_cons, readLiteral?_of_ne hcapital, readLiteral?_of_ne hdollar,
      ← List.map_cons, readSigned?_capitals]

end

end TrnComputer.Text
