import TrnComputer.Text.Numeral

/-! # Tokens of JSON texts

* `JsonToken`: marks, words, numbers and strings.
* `JsonToken.readAll?`: the tokens of a text.

A number keeps its value when it is written with digits alone. A string keeps its text when its
escapes make one up: an escaped surrogate without its partner is allowed but stands for no text.
-/

namespace TrnComputer
set_option autoImplicit false

/-- A token. -/
inductive JsonToken
  | openList | closeList | openObject | closeObject | comma | colon
  | null
  | truth (value : Bool)
  | number (digits? : Option Nat)
  | string (text? : Option String)
  deriving DecidableEq, Repr

namespace JsonToken

/-! ## Blanks and marks -/

def isBlank (c : Char) : Bool := c == ' ' || c == '\t' || c == '\n' || c == '\r'

def mark? : Char → Option JsonToken
  | '[' => some openList
  | ']' => some closeList
  | '\x7b' => some openObject
  | '\x7d' => some closeObject
  | ',' => some comma
  | ':' => some colon
  | _ => none

def word? (letters : List Char) : Option JsonToken :=
  match String.ofList letters with
  | "null" => some null
  | "true" => some (truth true)
  | "false" => some (truth false)
  | _ => none

/-! ## Numbers -/

def isNumberChar (c : Char) : Bool :=
  c.isDigit || c == '-' || c == '+' || c == '.' || c == 'e' || c == 'E'

def areDigits (s : List Char) : Bool := !s.isEmpty && s.all Char.isDigit

/-- Whether a text is digits, not of several with a zero in front. -/
def isWhole (s : List Char) : Bool := areDigits s && (s.length == 1 || s.head? != some '0')

def isExponent : List Char → Bool
  | [] => true
  | e :: sign :: s =>
    (e == 'e' || e == 'E') && areDigits (if sign == '+' || sign == '-' then s else sign :: s)
  | _ => false

/-- Whether a text is empty or a fraction, an exponent, or both. -/
def isFraction : List Char → Bool
  | '.' :: s => areDigits (s.takeWhile Char.isDigit) && isExponent (s.dropWhile Char.isDigit)
  | s => isExponent s

def number? (s : List Char) : Option JsonToken :=
  let unsigned := if s.head? = some '-' then s.tail else s
  let whole := unsigned.takeWhile Char.isDigit
  if isWhole whole && isFraction (unsigned.dropWhile Char.isDigit) then
    some (number (if whole == s then Text.readDigits? 10 s else none))
  else none

/-! ## Strings -/

def escape? : Char → Option Nat
  | '"' => some 0x22
  | '\\' => some 0x5C
  | '/' => some 0x2F
  | 'b' => some 0x08
  | 'f' => some 0x0C
  | 'n' => some 0x0A
  | 'r' => some 0x0D
  | 't' => some 0x09
  | _ => none

/-- Reads a string up to its closing quote. The result is a list of codes, of characters or of
surrogates, and what follows the quote. -/
def codes? : List Char → Option (List Nat × List Char)
  | [] => none
  | '"' :: s => some ([], s)
  | '\\' :: 'u' :: a :: b :: c :: d :: s =>
    match Text.readDigits? 16 [a, b, c, d], codes? s with
    | some code, some (codes, rest) => some (code :: codes, rest)
    | _, _ => none
  | '\\' :: c :: s =>
    match escape? c, codes? s with
    | some code, some (codes, rest) => some (code :: codes, rest)
    | _, _ => none
  | c :: s =>
    if c.toNat < 0x20 then none
    else match codes? s with
      | some (codes, rest) => some (c.toNat :: codes, rest)
      | none => none

/-- Whether a code is the first surrogate of a pair. -/
def isLeading (code : Nat) : Bool := 0xD800 ≤ code && code < 0xDC00

/-- Whether a code is the second surrogate of a pair. -/
def isTrailing (code : Nat) : Bool := 0xDC00 ≤ code && code < 0xE000

/-- The characters of codes, if every surrogate has its partner. -/
def characters? : List Nat → Option (List Char)
  | [] => some []
  | [code] => if isLeading code || isTrailing code then none else some [Char.ofNat code]
  | first :: second :: rest =>
    if isLeading first && isTrailing second then
      let code := 0x10000 + (first - 0xD800) * 0x400 + (second - 0xDC00)
      (characters? rest).map (Char.ofNat code :: ·)
    else if isLeading first || isTrailing first then none
    else (characters? (second :: rest)).map (Char.ofNat first :: ·)

theorem length_lt_of_codes? {s rest : List Char} {codes : List Nat}
    (h : codes? s = some (codes, rest)) : rest.length < s.length := by
  fun_induction codes? s generalizing codes rest with
  | case1 | case4 | case6 | case7 | case9 => cases h
  | case2 s =>
    cases h
    exact Nat.lt_succ_self _
  | case3 _ _ _ _ s _ _ _ hs _ ih | case5 _ s _ _ _ _ hs _ ih | case8 _ s _ _ _ _ _ _ hs ih =>
    cases h
    have := ih hs
    simp only [List.length_cons]
    omega

/-! ## Texts -/

def readAll? : List Char → Option (List JsonToken)
  | [] => some []
  | c :: s =>
    if isBlank c then readAll? s
    else if c = '"' then
      match h : codes? s with
      | none => none
      | some (codes, rest) =>
        have := length_lt_of_codes? h
        (readAll? rest).map (string ((characters? codes).map String.ofList) :: ·)
    else if isNumberChar c then
      match number? (c :: s.takeWhile isNumberChar) with
      | none => none
      | some token =>
        have := (List.dropWhile_sublist isNumberChar (l := s)).length_le
        (readAll? (s.dropWhile isNumberChar)).map (token :: ·)
    else if c.isAlpha then
      match word? (c :: s.takeWhile Char.isAlpha) with
      | none => none
      | some token =>
        have := (List.dropWhile_sublist Char.isAlpha (l := s)).length_le
        (readAll? (s.dropWhile Char.isAlpha)).map (token :: ·)
    else
      match mark? c with
      | none => none
      | some token => (readAll? s).map (token :: ·)
termination_by s => s.length

end JsonToken

end TrnComputer
