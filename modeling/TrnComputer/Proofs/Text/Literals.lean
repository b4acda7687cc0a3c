import TrnComputer.Proofs.Readings
import TrnComputer.Proofs.Text.Numerals

/-! # What numerals are

The texts that are read as numbers, and the numbers, said without the reader.

* `Digit`, `Numeral`: digits in either case, each with its value by its place.
* `SignedNumeral`, `Literal`: decimal numerals with an optional sign, and hexadecimal ones behind a
  dollar sign, that fit 64 bits.
* `readDigits?_eq_some_iff`, `readSigned?_eq_some_iff`, `readLiteral?_eq_some_iff`: they are what
  is read.
-/

namespace TrnComputer.Text
set_option autoImplicit false

/-! ## Digits -/

/-- A character is the digit of a number. Letters are digits in either case. -/
def Digit (base : Nat) (c : Char) (d : Nat) : Prop :=
  d < base ∧ (c = digitChar d ∨ c = (digitChar d).toLower)

/-- The number that digits denote, each by its place. -/
def placeValue (base : Nat) : List Nat → Nat
  | [] => 0
  | d :: rest => d * base ^ rest.length + placeValue base rest

/-- Digits, one or more, that denote a number. -/
def Numeral (base : Nat) (s : List Char) (n : Nat) : Prop :=
  s ≠ [] ∧ ∃ ds, List.Forall₂ (Digit base) s ds ∧ placeValue base ds = n

theorem foldl_digit (base : Nat) (ds : List Nat) (n : Nat) :
    ds.foldl (fun n d => n * base + d) n = n * base ^ ds.length + placeValue base ds := by
  induction ds generalizing n with
  | nil => simp [placeValue]
  | cons d ds ih =>
    rw [List.foldl_cons, ih, placeValue, List.length_cons, Nat.pow_succ, Nat.add_mul]
    have hshift : n * base * base ^ ds.length = n * (base ^ ds.length * base) := by
      rw [Nat.mul_assoc, Nat.mul_comm base]
    rw [hshift, Nat.add_assoc]

theorem ofDigits_eq_placeValue (base : Nat) (ds : List Nat) :
    ofDigits base ds = placeValue base ds := by
  rw [ofDigits, foldl_digit, Nat.zero_mul, Nat.zero_add]

section
variable {base d : Nat} {c : Char}

theorem digitValue?_eq_some (hbase : base ≤ 16) :
    digitValue? base c = some d ↔ digitValue? 16 c = some d ∧ d < base := by
  unfold digitValue?
  rw [Option.filter_eq_some_iff, Option.filter_eq_some_iff, decide_eq_true_eq, decide_eq_true_eq]
  constructor
  · rintro ⟨hvalue, hlt⟩
    exact ⟨⟨hvalue, by omega⟩, hlt⟩
  · rintro ⟨⟨hvalue, -⟩, hlt⟩
    exact ⟨hvalue, hlt⟩

theorem eq_ofNat_of_toNat {n : Nat} (h : c.toNat = n) : c = Char.ofNat n := by
  rw [← h, Char.ofNat_toNat]

theorem eq_digitChar_of_digitValue? (h : digitValue? 16 c = some d) :
    c = digitChar d ∨ c = (digitChar d).toLower := by
  have hsmall : ∀ d < 10, digitChar d = Char.ofNat (48 + d) := by decide
  have hlarge : ∀ d < 16, 10 ≤ d → digitChar d = Char.ofNat (55 + d) ∧
      (digitChar d).toLower = Char.ofNat (87 + d) := by decide
  unfold digitValue? at h
  obtain ⟨hvalue, hlt⟩ := Option.filter_eq_some_iff.mp h
  rw [decide_eq_true_eq] at hlt
  split at hvalue
  · next hdigit =>
    have hbounds : (decide ('0'.val ≤ c.val) && decide (c.val ≤ '9'.val)) = true := hdigit
    rw [Bool.and_eq_true, decide_eq_true_eq, decide_eq_true_eq] at hbounds
    change 48 ≤ c.toNat ∧ c.toNat ≤ 57 at hbounds
    have hd : c.toNat - 48 = d := Option.some.inj hvalue
    rw [hsmall d (by omega)]
    exact .inl (eq_ofNat_of_toNat (by omega))
  · split at hvalue
    · next hletter =>
      have hbounds : 97 ≤ c.toNat ∧ c.toNat ≤ 102 := hletter
      have hd : c.toNat - 97 + 10 = d := Option.some.inj hvalue
      rw [(hlarge d hlt (by omega)).2]
      exact .inr (eq_ofNat_of_toNat (by omega))
    · split at hvalue
      · next hletter =>
        have hbounds : 65 ≤ c.toNat ∧ c.toNat ≤ 70 := hletter
        have hd : c.toNat - 65 + 10 = d := Option.some.inj hvalue
        rw [(hlarge d hlt (by omega)).1]
        exact .inl (eq_ofNat_of_toNat (by omega))
      · cases hvalue

theorem digitValue?_eq_some_iff (hbase : base ≤ 16) :
    digitValue? base c = some d ↔ Digit base c d := by
  have hread : ∀ d < 16, digitValue? 16 (digitChar d) = some d ∧
      digitValue? 16 (digitChar d).toLower = some d := by decide
  rw [digitValue?_eq_some hbase]
  constructor
  · rintro ⟨hvalue, hlt⟩
    exact ⟨hlt, eq_digitChar_of_digitValue? hvalue⟩
  · rintro ⟨hlt, rfl | rfl⟩
    · exact ⟨(hread d (by omega)).1, hlt⟩
    · exact ⟨(hread d (by omega)).2, hlt⟩

theorem isAlphanum_of_digit (hbase : base ≤ 16) (h : Digit base c d) : c.isAlphanum = true := by
  have hkind : ∀ d < 16, (digitChar d).isAlphanum = true ∧
      (digitChar d).toLower.isAlphanum = true := by decide
  obtain ⟨hlt, rfl | rfl⟩ := h
  · exact (hkind d (by omega)).1
  · exact (hkind d (by omega)).2

end

section
variable {base n : Nat} {s : List Char}

theorem readDigits?_eq_some_iff (hbase : base ≤ 16) :
    readDigits? base s = some n ↔ Numeral base s n := by
  have hdigits (ds : List Nat) :
      s.mapM (digitValue? base) = some ds ↔ List.Forall₂ (Digit base) s ds := by
    rw [mapM_eq_some_iff]
    constructor
    · exact fun h => h.imp fun _ _ => (digitValue?_eq_some_iff hbase).mp
    · exact fun h => h.imp fun _ _ => (digitValue?_eq_some_iff hbase).mpr
  unfold readDigits? Numeral
  cases s with
  | nil => simp
  | cons c rest =>
    simp only [List.isEmpty_cons, Bool.false_eq_true, if_false, Option.map_eq_some_iff, hdigits,
      ofDigits_eq_placeValue, ne_eq, reduceCtorEq, not_false_eq_true, true_and]

theorem Numeral.head?_isDigit (h : Numeral 10 s n) : s.head?.any Char.isDigit = true := by
  have hkind : ∀ d < 10, (digitChar d).isDigit = true ∧
      (digitChar d).toLower.isDigit = true := by decide
  obtain ⟨hne, ds, hdigits, -⟩ := h
  cases hdigits with
  | nil => exact absurd rfl hne
  | cons hfirst _ =>
    obtain ⟨hlt, rfl | rfl⟩ := hfirst
    · exact (hkind _ hlt).1
    · exact (hkind _ hlt).2

theorem Numeral.isAlphanum (hbase : base ≤ 16) (h : Numeral base s n) :
    ∀ c ∈ s, c.isAlphanum = true := by
  obtain ⟨-, ds, hdigits, -⟩ := h
  induction hdigits with
  | nil => exact List.forall_mem_nil _
  | cons hdigit _ ih => exact List.forall_mem_cons.mpr ⟨isAlphanum_of_digit hbase hdigit, ih⟩

end

/-! ## Signed numbers and literals -/

/-- A signed number that fits 64 bits. -/
def Fits (value : Int) : Prop := -2 ^ 63 ≤ value ∧ value < 2 ^ 63

/-- Decimal digits with an optional sign. -/
inductive SignedNumeral : List Char → Int → Prop
  | unsigned {s : List Char} {n : Nat} (h : Numeral 10 s n) : SignedNumeral s n
  | positive {s : List Char} {n : Nat} (h : Numeral 10 s n) : SignedNumeral ('+' :: s) n
  | negative {s : List Char} {n : Nat} (h : Numeral 10 s n) : SignedNumeral ('-' :: s) (-n)

/-- A decimal numeral, or a hexadecimal one behind a dollar sign, whose value fits 64 bits. -/
inductive Literal : List Char → Int → Prop
  | decimal {s : List Char} {value : Int} (h : SignedNumeral s value) (hfits : Fits value) :
    Literal s value
  | hexadecimal {s : List Char} {n : Nat} (h : Numeral 16 s n) (hfits : Fits n) :
    Literal ('$' :: s) n

section
variable {s : List Char} {value : Int}

theorem nonnegative?_eq_some_iff {n : Nat} :
    nonnegative? n = some value ↔ (n : Int) = value ∧ Fits value := by
  grind [nonnegative?, Fits]

theorem nonpositive?_eq_some_iff {n : Nat} :
    nonpositive? n = some value ↔ -(n : Int) = value ∧ Fits value := by
  grind [nonpositive?, Fits]

/-- Digits are read as a number that gets a sign, if the outcome fits 64 bits. -/
theorem bind_signed?_eq_some_iff {base : Nat} (hbase : base ≤ 16) {signed? : Nat → Option Int}
    {signed : Nat → Int}
    (hsigned : ∀ {n : Nat}, signed? n = some value ↔ signed n = value ∧ Fits value) :
    (readDigits? base s).bind signed? = some value ↔
      ∃ n : Nat, Numeral base s n ∧ signed n = value ∧ Fits value := by
  rw [Option.bind_eq_some_iff]
  simp only [readDigits?_eq_some_iff hbase, hsigned]

theorem bind_nonnegative?_eq_some_iff {base : Nat} (hbase : base ≤ 16) :
    (readDigits? base s).bind nonnegative? = some value ↔
      ∃ n : Nat, Numeral base s n ∧ (n : Int) = value ∧ Fits value :=
  bind_signed?_eq_some_iff hbase nonnegative?_eq_some_iff

theorem bind_nonpositive?_eq_some_iff {base : Nat} (hbase : base ≤ 16) :
    (readDigits? base s).bind nonpositive? = some value ↔
      ∃ n : Nat, Numeral base s n ∧ -(n : Int) = value ∧ Fits value :=
  bind_signed?_eq_some_iff hbase nonpositive?_eq_some_iff

/-- No numeral begins with a character that is neither letter nor digit. -/
theorem not_numeral_cons {base n : Nat} (hbase : base ≤ 16) {c : Char}
    (hc : c.isAlphanum = false) : ¬Numeral base (c :: s) n := by
  intro h
  have halphanum := h.isAlphanum hbase c List.mem_cons_self
  rw [hc] at halphanum
  cases halphanum

theorem readSigned?_eq_some_iff :
    readSigned? s = some value ↔ SignedNumeral s value ∧ Fits value := by
  have hten : 10 ≤ 16 := by decide
  constructor
  · unfold readSigned?
    split
    · rw [bind_nonpositive?_eq_some_iff hten]
      rintro ⟨n, hn, rfl, hfits⟩
      exact ⟨.negative hn, hfits⟩
    · rw [bind_nonnegative?_eq_some_iff hten]
      rintro ⟨n, hn, rfl, hfits⟩
      exact ⟨.positive hn, hfits⟩
    · rw [bind_nonnegative?_eq_some_iff hten]
      rintro ⟨n, hn, rfl, hfits⟩
      exact ⟨.unsigned hn, hfits⟩
  · rintro ⟨hsigned, hfits⟩
    cases hsigned with
    | @unsigned _ n hn =>
      cases s with
      | nil => exact absurd rfl hn.1
      | cons c rest =>
        rw [readSigned?_of_alphanum (hn.isAlphanum hten c List.mem_cons_self)]
        exact (bind_nonnegative?_eq_some_iff hten).mpr ⟨n, hn, rfl, hfits⟩
    | @positive _ n hn => exact (bind_nonnegative?_eq_some_iff hten).mpr ⟨n, hn, rfl, hfits⟩
    | @negative _ n hn => exact (bind_nonpositive?_eq_some_iff hten).mpr ⟨n, hn, rfl, hfits⟩

theorem SignedNumeral.head_ne_dollar {rest : List Char} (h : SignedNumeral s value) :
    s ≠ '$' :: rest := by
  rintro rfl
  cases h with
  | unsigned hn => exact not_numeral_cons (by decide) rfl hn

theorem readLiteral?_eq_some_iff : readLiteral? s = some value ↔ Literal s value := by
  constructor
  · unfold readLiteral?
    split
    · rw [bind_nonnegative?_eq_some_iff (by decide)]
      rintro ⟨n, hn, rfl, hfits⟩
      exact .hexadecimal hn hfits
    · rw [readSigned?_eq_some_iff]
      rintro ⟨hsigned, hfits⟩
      exact .decimal hsigned hfits
  · intro h
    cases h with
    | decimal hsigned hfits =>
      unfold readLiteral?
      split
      · exact absurd rfl hsigned.head_ne_dollar
      · exact readSigned?_eq_some_iff.mpr ⟨hsigned, hfits⟩
    | @hexadecimal _ n hn hfits =>
      exact (bind_nonnegative?_eq_some_iff (by decide)).mpr ⟨n, hn, rfl, hfits⟩

end

end TrnComputer.Text
