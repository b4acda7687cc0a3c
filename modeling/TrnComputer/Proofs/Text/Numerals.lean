import TrnComputer.Proofs.Text.Lines
import TrnComputer.Text.Align
import TrnComputer.Text.Numeral

/-! # Numerals are read back

* `length_digits_le_iff`: a number has at most so many digits when it is below that power of the
  base.
* `head?_digits`: the first digit of a number is zero for zero alone.
* `readDigits?_alignRight`: what is written in a base up to sixteen, with zeros in front, is read.
* `readLiteral?_signedDecimal`, `readLiteral?_hexadecimal`: a number that fits 64 bits is written,
  signed or after a dollar sign, and read.
* `isAlphanum_of_mem_alignRight`: the characters of numerals are letters and digits.
-/

namespace TrnComputer.Text
set_option autoImplicit false

/-! ## Digits -/

theorem digits_of_lt {base n : Nat} (h : n < base) : digits base n = [n] := by
  rw [digits, if_pos (.inl h)]

theorem digits_of_le {base n : Nat} (hbase : 2 ≤ base) (h : base ≤ n) :
    digits base n = digits base (n / base) ++ [n % base] := by
  rw [digits, if_neg (by omega)]

theorem length_digits_le_iff {base : Nat} (hbase : 2 ≤ base) {n k : Nat} (hpos : 0 < n) :
    (digits base n).length ≤ k ↔ n < base ^ k := by
  induction k generalizing n with
  | zero =>
    have hne : (digits base n).length ≠ 0 := fun h =>
      digits_ne_nil base n (List.eq_nil_of_length_eq_zero h)
    rw [Nat.pow_zero]
    omega
  | succ k ih =>
    rcases Nat.lt_or_ge n base with hlt | hge
    · have hle : base ≤ base ^ (k + 1) := Nat.le_self_pow (Nat.succ_ne_zero k) base
      rw [digits_of_lt hlt, List.length_singleton]
      omega
    · have hquotient : 0 < n / base := Nat.div_pos hge (by omega)
      rw [digits_of_le hbase hge, List.length_append, List.length_singleton,
        Nat.add_le_add_iff_right, ih hquotient, Nat.div_lt_iff_lt_mul (by omega), Nat.pow_succ]

theorem head?_digits {base : Nat} (hbase : 2 ≤ base) (n : Nat) :
    ∃ d rest, digits base n = d :: rest ∧ (d = 0 → n = 0) := by
  fun_induction digits base n with
  | case1 n h => exact ⟨n, [], rfl, id⟩
  | case2 n h ih =>
    obtain ⟨d, rest, hdigits, hzero⟩ := ih
    have hquotient : 0 < n / base := Nat.div_pos (by omega) (by omega)
    exact ⟨d, rest ++ [n % base], by rw [hdigits, List.cons_append], fun hd => by
      have := hzero hd
      omega⟩

theorem ofDigits_replicate_zero (base k : Nat) (ds : List Nat) :
    ofDigits base (List.replicate k 0 ++ ds) = ofDigits base ds := by
  induction k with
  | zero => rfl
  | succ k ih => simpa [ofDigits, List.replicate_succ] using ih

/-! ## Characters -/

theorem digitValue?_digitChar {base d : Nat} (hbase : base ≤ 16) (h : d < base) :
    digitValue? base (digitChar d) = some d := by
  have hsixteen : ∀ d < 16, digitValue? 16 (digitChar d) = some d := by decide
  have hd := hsixteen d (by omega)
  unfold digitValue? at hd ⊢
  obtain ⟨hvalue, -⟩ := Option.filter_eq_some_iff.mp hd
  simp only at hvalue ⊢
  rw [hvalue, Option.filter_some, if_pos (by simpa using h)]

theorem isAlphanum_digitChar {d : Nat} (h : d < 16) : (digitChar d).isAlphanum = true := by
  have hall : ∀ d < 16, (digitChar d).isAlphanum = true := by decide
  exact hall d h

theorem isAlphanum_of_mem_numeral {base n : Nat} (hbase : 2 ≤ base) (hsmall : base ≤ 16) {c : Char}
    (h : c ∈ numeral base n) : c.isAlphanum = true := by
  obtain ⟨d, hd, rfl⟩ := List.mem_map.mp h
  have hlt := lt_of_mem_digits hbase hd
  exact isAlphanum_digitChar (by omega)

theorem isAlphanum_of_mem_alignRight {base n width : Nat} (hbase : 2 ≤ base) (hsmall : base ≤ 16)
    {c : Char} (h : c ∈ alignRight '0' width (numeral base n)) : c.isAlphanum = true := by
  rcases List.mem_append.mp h with hzero | hnumeral
  · rw [(List.mem_replicate.mp hzero).2]
    rfl
  · exact isAlphanum_of_mem_numeral hbase hsmall hnumeral

theorem toNat_of_isAlphanum {c : Char} (h : c.isAlphanum = true) :
    '0'.toNat ≤ c.toNat ∧ c.toNat ≤ 'z'.toNat := by
  have hkinds : ((c.isUpper || c.isLower) || c.isDigit) = true := h
  rw [Bool.or_eq_true, Bool.or_eq_true] at hkinds
  change 48 ≤ c.toNat ∧ c.toNat ≤ 122
  rcases hkinds with (hupper | hlower) | hdigit
  · have hbounds : 'A'.val ≤ c.val ∧ c.val ≤ 'Z'.val := of_decide_eq_true hupper
    change 65 ≤ c.toNat ∧ c.toNat ≤ 90 at hbounds
    omega
  · have hbounds : (decide ('a'.val ≤ c.val) && decide (c.val ≤ 'z'.val)) = true := hlower
    rw [Bool.and_eq_true, decide_eq_true_eq, decide_eq_true_eq] at hbounds
    change 97 ≤ c.toNat ∧ c.toNat ≤ 122 at hbounds
    omega
  · have hbounds : (decide ('0'.val ≤ c.val) && decide (c.val ≤ '9'.val)) = true := hdigit
    rw [Bool.and_eq_true, decide_eq_true_eq, decide_eq_true_eq] at hbounds
    change 48 ≤ c.toNat ∧ c.toNat ≤ 57 at hbounds
    omega

theorem isBlank_of_isAlphanum {c : Char} (h : c.isAlphanum = true) : isBlank c = false := by
  obtain ⟨hlow, hhigh⟩ := toNat_of_isAlphanum h
  change 48 ≤ c.toNat at hlow
  change c.toNat ≤ 122 at hhigh
  simp [isBlank, blankRanges]
  omega

/-! ## Reading what is written -/

theorem mapM_digitValue? {base : Nat} (hbase : base ≤ 16) {ds : List Nat}
    (h : ∀ d ∈ ds, d < base) : (ds.map digitChar).mapM (digitValue? base) = some ds := by
  induction ds with
  | nil => rfl
  | cons d ds ih =>
    obtain ⟨hd, hds⟩ := List.forall_mem_cons.mp h
    rw [List.map_cons, List.mapM_cons, digitValue?_digitChar hbase hd, ih hds]
    rfl

/-- A number that is written with zeros in front is read. -/
theorem readDigits?_alignRight {base : Nat} (hbase : 2 ≤ base) (hsmall : base ≤ 16)
    (width n : Nat) : readDigits? base (alignRight '0' width (numeral base n)) = some n := by
  have hne : alignRight '0' width (numeral base n) ≠ [] := by
    simp [alignRight, numeral, digits_ne_nil]
  have hzeros : alignRight '0' width (numeral base n) =
      (List.replicate (width - (numeral base n).length) 0 ++ digits base n).map digitChar := by
    rw [List.map_append, List.map_replicate]
    rfl
  have hdigits : ∀ d ∈ List.replicate (width - (numeral base n).length) 0 ++ digits base n,
      d < base := by
    intro d hd
    rcases List.mem_append.mp hd with hzero | hdigit
    · rw [(List.mem_replicate.mp hzero).2]
      omega
    · exact lt_of_mem_digits hbase hdigit
  rw [readDigits?, if_neg (by simpa using hne), hzeros, mapM_digitValue? hsmall hdigits,
    Option.map_some, ofDigits_replicate_zero, ofDigits_digits]

theorem readDigits?_numeral {base : Nat} (hbase : 2 ≤ base) (hsmall : base ≤ 16) (n : Nat) :
    readDigits? base (numeral base n) = some n := by
  simpa [alignRight] using readDigits?_alignRight hbase hsmall 0 n

theorem readSigned?_of_ne {c : Char} {rest : List Char} (hminus : c ≠ '-') (hplus : c ≠ '+') :
    readSigned? (c :: rest) = (readDigits? 10 (c :: rest)).bind nonnegative? := by
  unfold readSigned?
  split
  · next heq => exact absurd (List.cons.inj heq).1 hminus
  · next heq => exact absurd (List.cons.inj heq).1 hplus
  · rfl

theorem readSigned?_of_alphanum {c : Char} {rest : List Char} (h : c.isAlphanum = true) :
    readSigned? (c :: rest) = (readDigits? 10 (c :: rest)).bind nonnegative? := by
  apply readSigned?_of_ne
  · rintro rfl
    cases h
  · rintro rfl
    cases h

theorem readSigned?_numeral {n : Nat} (h : n < 2 ^ 63) :
    readSigned? (numeral 10 n) = some (n : Int) := by
  obtain ⟨d, rest, hdigits, -⟩ := head?_digits (by decide : 2 ≤ 10) n
  have hcons : numeral 10 n = digitChar d :: rest.map digitChar := by
    rw [numeral, hdigits, List.map_cons]
  have halpha : (digitChar d).isAlphanum = true :=
    isAlphanum_of_mem_numeral (n := n) (by decide) (by decide) (hcons ▸ List.mem_cons_self)
  rw [hcons, readSigned?_of_alphanum halpha, ← hcons, readDigits?_numeral (by decide) (by decide),
    Option.bind_some, nonnegative?, if_pos h]

/-- A signed number that fits 64 bits is written and read. -/
theorem readSigned?_signedDecimal {n : Int} (hlow : -2 ^ 63 ≤ n) (hhigh : n < 2 ^ 63) :
    readSigned? (signedDecimal n).toList = some n := by
  unfold signedDecimal
  split
  · next hneg =>
    rw [String.toList_ofList]
    change (readDigits? 10 (numeral 10 n.natAbs)).bind nonpositive? = some n
    rw [readDigits?_numeral (by decide) (by decide), Option.bind_some, nonpositive?,
      if_pos (by omega)]
    exact congrArg some (by omega)
  · next hpos =>
    rw [decimal, String.toList_ofList, readSigned?_numeral (by omega)]
    exact congrArg some (by omega)

theorem signedDecimal_natCast (n : Nat) : signedDecimal n = decimal n := by
  rw [signedDecimal, if_neg (by omega), Int.natAbs_natCast]

theorem signedDecimal_ne_nil (n : Int) : (signedDecimal n).toList ≠ [] := by
  unfold signedDecimal
  split <;> simp [decimal, numeral, digits_ne_nil]

theorem mem_signedDecimal {n : Int} {c : Char} (h : c ∈ (signedDecimal n).toList) :
    c.isAlphanum = true ∨ c = '-' := by
  unfold signedDecimal at h
  split at h
  · rw [String.toList_ofList] at h
    rcases List.mem_cons.mp h with rfl | hdigit
    · exact .inr rfl
    · exact .inl (isAlphanum_of_mem_numeral (by decide) (by decide) hdigit)
  · rw [decimal, String.toList_ofList] at h
    exact .inl (isAlphanum_of_mem_numeral (by decide) (by decide) h)

theorem readLiteral?_of_ne {c : Char} {rest : List Char} (h : c ≠ '$') :
    readLiteral? (c :: rest) = readSigned? (c :: rest) := by
  unfold readLiteral?
  split
  · next heq => exact absurd (List.cons.inj heq).1 h
  · rfl

theorem readLiteral?_of_notMem {s : List Char} (h : '$' ∉ s) : readLiteral? s = readSigned? s := by
  cases s with
  | nil => rfl
  | cons c rest =>
    apply readLiteral?_of_ne
    rintro rfl
    exact h List.mem_cons_self

theorem readLiteral?_signedDecimal {n : Int} (hlow : -2 ^ 63 ≤ n) (hhigh : n < 2 ^ 63) :
    readLiteral? (signedDecimal n).toList = some n := by
  have hdollar : '$' ∉ (signedDecimal n).toList := fun hmem => by
    rcases mem_signedDecimal hmem with h | h <;> cases h
  rw [readLiteral?_of_notMem hdollar, readSigned?_signedDecimal hlow hhigh]

theorem readLiteral?_hexadecimal {n : Nat} (width : Nat) (h : n < 2 ^ 63) :
    readLiteral? ('$' :: alignRight '0' width (numeral 16 n)) = some (n : Int) := by
  change (readDigits? 16 (alignRight '0' width (numeral 16 n))).bind nonnegative? = some (n : Int)
  rw [readDigits?_alignRight (by decide) (by decide), Option.bind_some, nonnegative?, if_pos h]

end TrnComputer.Text
