/-! # Numerals

A numeral is a list of digits, the most significant first.

* `digits`, `ofDigits`: the digits of a number in a base, and the number that digits denote;
  `ofDigits_digits` says that the second undoes the first.
* `numeral`, `decimal`, `signedDecimal`: written numbers. Hexadecimal letters are upper-case.
* `readDigits?`, `readSigned?`, `readUnsigned?`, `readLiteral?`: read numbers. A signed number fits
  64 bits in two's complement, an unsigned one fits 64 bits.
-/

namespace TrnComputer.Text
set_option autoImplicit false

-- Powers of numbers are those of the core library, also where there is another reading of them.
attribute [instance (20000), default_instance 20000] instPowNat

/-! ## Digits -/

/-- The digits of `n`, most significant first. Zero has one digit. -/
def digits (base n : Nat) : List Nat :=
  if n < base ∨ base < 2 then [n] else digits base (n / base) ++ [n % base]
termination_by n
decreasing_by exact Nat.div_lt_self (by omega) (by omega)

def ofDigits (base : Nat) (ds : List Nat) : Nat :=
  ds.foldl (fun n d => n * base + d) 0

theorem ofDigits_append_singleton (base : Nat) (ds : List Nat) (d : Nat) :
    ofDigits base (ds ++ [d]) = ofDigits base ds * base + d := by
  simp [ofDigits]

theorem ofDigits_digits (base n : Nat) : ofDigits base (digits base n) = n := by
  fun_induction digits base n with
  | case1 n h => simp [ofDigits]
  | case2 n h ih => rw [ofDigits_append_singleton, ih, Nat.mul_comm]; exact Nat.div_add_mod n base

theorem digits_ne_nil (base n : Nat) : digits base n ≠ [] := by
  fun_induction digits base n <;> simp

theorem lt_of_mem_digits {base n d : Nat} (hbase : 2 ≤ base) (h : d ∈ digits base n) :
    d < base := by
  fun_induction digits base n with
  | case1 n hn => simp at h; omega
  | case2 n hn ih =>
    simp only [List.mem_append, List.mem_singleton] at h
    rcases h with h | h
    · exact ih h
    · rw [h]; exact Nat.mod_lt _ (by omega)

/-! ## Writing -/

def digitChar (d : Nat) : Char :=
  if d < 10 then Char.ofNat ('0'.toNat + d) else Char.ofNat ('A'.toNat + (d - 10))

def numeral (base n : Nat) : List Char := (digits base n).map digitChar

def decimal (n : Nat) : String := String.ofList (numeral 10 n)

/-- The decimal numeral of `n`, after a minus sign when `n` is negative. -/
def signedDecimal (n : Int) : String :=
  if n < 0 then String.ofList ('-' :: numeral 10 n.natAbs) else decimal n.natAbs

/-! ## Reading -/

/-- The value of a digit in a base up to sixteen. Letters stand for ten and more in either case. -/
def digitValue? (base : Nat) (c : Char) : Option Nat :=
  let value? :=
    if c.isDigit then some (c.toNat - '0'.toNat)
    else if 'a' ≤ c ∧ c ≤ 'f' then some (c.toNat - 'a'.toNat + 10)
    else if 'A' ≤ c ∧ c ≤ 'F' then some (c.toNat - 'A'.toNat + 10)
    else none
  value?.filter (· < base)

/-- The number that a text of digits, at least one, denotes. -/
def readDigits? (base : Nat) (s : List Char) : Option Nat :=
  if s.isEmpty then none else (s.mapM (digitValue? base)).map (ofDigits base)

/-- A number as a signed one, when it fits 64 bits. -/
def nonnegative? (n : Nat) : Option Int :=
  if n < 2 ^ 63 then some n else none

/-- The opposite of a number, when it fits 64 bits. -/
def nonpositive? (n : Nat) : Option Int :=
  if n ≤ 2 ^ 63 then some (-n) else none

/-- Reads an optional sign and decimal digits as a signed 64-bit number. -/
def readSigned? : List Char → Option Int
  | '-' :: s => (readDigits? 10 s).bind nonpositive?
  | '+' :: s => (readDigits? 10 s).bind nonnegative?
  | s => (readDigits? 10 s).bind nonnegative?

/-- Reads an optional plus sign and decimal digits as an unsigned 64-bit number. -/
def readUnsigned? (s : List Char) : Option Nat :=
  let unsigned := match s with
    | '+' :: r => r
    | s => s
  (readDigits? 10 unsigned).filter (· < 2 ^ 64)

/-- Reads a signed decimal number, or a hexadecimal one after a dollar sign. -/
def readLiteral? : List Char → Option Int
  | '$' :: s => (readDigits? 16 s).bind nonnegative?
  | s => readSigned? s

end TrnComputer.Text
