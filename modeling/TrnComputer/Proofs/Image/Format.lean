import Mathlib.Data.List.Induction
import TrnComputer.Image
import TrnComputer.Proofs.Cells
import TrnComputer.Proofs.Text.Lines

/-! # The format of memory images

* `Image.Denotes`, `Image.Entry`, `Image.Proper`: what fields and lines have to look like, said
  without the reader; `readField_eq_ok_iff` and `readLine_eq_ok_iff` say that it goes by them.
* `Image.Holds`: the memory that lines stand for, and `Holds.unique`: there is only one.
* `readLines_outcome`: reading lines behind others, to the end or to the first that is not proper.
* `decode_format`: the texts that are images, and the memories they stand for.
-/

namespace TrnComputer.Image
set_option autoImplicit false

/-! ## Fields -/

/-- The number that binary digits denote, each digit by its place. -/
def binaryValue : List Char → Nat
  | [] => 0
  | c :: rest => (if c = '1' then 2 ^ rest.length else 0) + binaryValue rest

theorem foldl_bit (s : List Char) (n : Nat) :
    s.foldl (fun n c => n * 2 + if c = '1' then 1 else 0) n =
      n * 2 ^ s.length + binaryValue s := by
  induction s generalizing n with
  | nil => simp [binaryValue]
  | cons c s ih =>
    rw [List.foldl_cons, ih, binaryValue, List.length_cons, Nat.pow_succ]
    have hshift : n * (2 ^ s.length * 2) = n * 2 * 2 ^ s.length := by
      rw [Nat.mul_comm (2 ^ s.length) 2, Nat.mul_assoc]
    by_cases hc : c = '1'
    · rw [if_pos hc, if_pos hc, hshift, Nat.add_mul, Nat.one_mul, Nat.add_assoc]
    · rw [if_neg hc, if_neg hc, hshift, Nat.add_zero, Nat.zero_add]

theorem binaryValue_lt (s : List Char) : binaryValue s < 2 ^ s.length := by
  induction s with
  | nil => decide
  | cons c s ih =>
    rw [binaryValue, List.length_cons, Nat.pow_succ]
    split <;> omega

theorem binaryValue_dropWhile (s : List Char) :
    binaryValue (s.dropWhile (· == '0')) = binaryValue s := by
  induction s with
  | nil => rfl
  | cons c s ih =>
    rw [List.dropWhile_cons]
    split
    · next hzero =>
      have hc : c ≠ '1' := by
        rw [eq_of_beq hzero]
        decide
      rw [ih, binaryValue, if_neg hc, Nat.zero_add]
    · rfl

/-- Digits behind the leading zeros are few just when the number is small. -/
theorem length_dropWhile_le_iff {s : List Char} (h : ∀ c ∈ s, c = '0' ∨ c = '1') (k : Nat) :
    (s.dropWhile (· == '0')).length ≤ k ↔ binaryValue s < 2 ^ k := by
  rw [← binaryValue_dropWhile]
  constructor
  · intro hle
    exact Nat.lt_of_lt_of_le (binaryValue_lt _) (Nat.pow_le_pow_right (by decide) hle)
  · intro hlt
    cases hdigits : s.dropWhile (· == '0') with
    | nil => exact Nat.zero_le k
    | cons c rest =>
      have hfirst := List.head?_dropWhile_not (· == '0') s
      rw [hdigits] at hfirst hlt
      have hone : c = '1' := by
        have hmem : c ∈ s := (List.dropWhile_sublist _).subset (hdigits ▸ List.mem_cons_self)
        rcases h c hmem with rfl | rfl
        · cases hfirst
        · rfl
      rw [binaryValue, if_pos hone] at hlt
      rw [List.length_cons]
      exact (Nat.pow_lt_pow_iff_right (by decide : 1 < 2)).mp (by omega)

/-- Between the blanks at the ends of a field there is a binary numeral, with zeros in front or
without. -/
def Denotes (field : List Char) (n : Nat) : Prop :=
  Text.trim field ≠ [] ∧ (∀ c ∈ Text.trim field, c = '0' ∨ c = '1') ∧
    binaryValue (Text.trim field) = n

theorem readField_eq_ok_iff {field : ImageField} {text : List Char} {n : Nat} :
    readField field text = .ok n ↔ Denotes text n ∧ n < 2 ^ field.maxBits := by
  unfold readField Denotes
  simp only [foldl_bit, Nat.zero_mul, Nat.zero_add, binaryValue_dropWhile]
  by_cases hne : Text.trim text = []
  · simp [hne]
  by_cases hall : ∀ c ∈ Text.trim text, c = '0' ∨ c = '1'
  · have hfits := length_dropWhile_le_iff hall field.maxBits
    have hdigits : ((Text.trim text).all fun c => c == '0' || c == '1') = true := by
      simpa using hall
    by_cases hlt : binaryValue (Text.trim text) < 2 ^ field.maxBits
    · have hle := hfits.mpr hlt
      simp only [hdigits, List.isEmpty_eq_false_iff.mpr hne, Nat.not_lt.mpr hle]
      simp only [Bool.not_true, Bool.or_false, decide_false, Bool.false_eq_true, if_false,
        Except.ok.injEq]
      exact ⟨fun heq => ⟨⟨hne, hall, heq⟩, heq ▸ hlt⟩, fun h => h.1.2.2⟩
    · have hmore := mt hfits.mp hlt
      simp only [Nat.lt_of_not_le hmore, decide_true, Bool.or_true, if_true, reduceCtorEq,
        false_iff]
      rintro ⟨⟨-, -, rfl⟩, hsmall⟩
      exact hlt hsmall
  · have hdigits : ((Text.trim text).all fun c => c == '0' || c == '1') = false := by
      simpa using hall
    simp [hdigits, hall]

/-! ## Lines -/

/-- A line that names an address and gives it a value. -/
def Entry (line : List Char) (address value : Nat) : Prop :=
  ∃ first second, line = first ++ '\t' :: second ∧ '\t' ∉ first ∧ '\t' ∉ second ∧
    Denotes first address ∧ address < 2 ^ 16 ∧ Denotes second value ∧ value < 2 ^ 20

def Proper (line : List Char) : Prop :=
  Text.isAllBlank line = true ∨ ∃ address value, Entry line address value

theorem split_eq_pair_iff {sep : Char} {s first second : List Char} :
    Text.split sep s = [first, second] ↔
      s = first ++ sep :: second ∧ sep ∉ first ∧ sep ∉ second := by
  constructor
  · intro h
    have hs := Text.intercalate_split sep s
    rw [h] at hs
    refine ⟨by simpa using hs.symm, ?_, ?_⟩ <;>
    · apply Text.notMem_of_mem_split (s := s)
      simp [h]
  · rintro ⟨rfl, hfirst, hsecond⟩
    rw [Text.split_append_cons hfirst, Text.split_of_notMem hsecond]

theorem readLine_eq_ok_iff {line : List Char} {address value : Nat} :
    readLine line = .ok (address, value) ↔ Entry line address value := by
  have hwide : value < 2 ^ 20 → value < 2 ^ ImageField.value.maxBits := fun h =>
    Nat.lt_of_lt_of_le h (by decide)
  unfold readLine Entry
  constructor
  · intro h
    split at h
    · next first second hsplit =>
      obtain ⟨hline, hfirst, hsecond⟩ := split_eq_pair_iff.mp hsplit
      split at h
      · cases h
      · next n haddress =>
        split at h
        · cases h
        · next k hvalue =>
          split at h
          · next hlt =>
            cases h
            obtain ⟨hn, hnlt⟩ := readField_eq_ok_iff.mp haddress
            obtain ⟨hk, -⟩ := readField_eq_ok_iff.mp hvalue
            exact ⟨first, second, hline, hfirst, hsecond, hn, hnlt, hk, hlt⟩
          · cases h
    · cases h
  · rintro ⟨first, second, hline, hfirst, hsecond, haddress, hlt, hvalue, hfits⟩
    have hn : readField .address first = .ok address := readField_eq_ok_iff.mpr ⟨haddress, hlt⟩
    have hk : readField .value second = .ok value :=
      readField_eq_ok_iff.mpr ⟨hvalue, hwide hfits⟩
    rw [split_eq_pair_iff.mpr ⟨hline, hfirst, hsecond⟩]
    simp only [hn, hk, if_pos hfits]

namespace Entry
variable {line : List Char} {address value : Nat}

theorem unique (h : Entry line address value) {other word : Nat} (h' : Entry line other word) :
    address = other ∧ value = word := by
  have heq := (readLine_eq_ok_iff.mpr h).symm.trans (readLine_eq_ok_iff.mpr h')
  cases heq
  exact ⟨rfl, rfl⟩

theorem not_blank (h : Entry line address value) : Text.isAllBlank line = false := by
  obtain ⟨first, second, rfl, -, -, haddress, -⟩ := h
  cases hblank : Text.isAllBlank (first ++ '\t' :: second) with
  | false => rfl
  | true =>
    have hfirst : Text.isAllBlank first = true := by
      rw [Text.isAllBlank, List.all_append, Bool.and_eq_true] at hblank
      exact hblank.1
    exact absurd (Text.trim_eq_nil_iff.mpr hfirst) haddress.1

end Entry

/-! ## The memory that lines stand for -/

/-- The last line that names the address gives it the value. -/
def Final (lines : List (List Char)) (address value : Nat) : Prop :=
  ∃ front line back, lines = front ++ line :: back ∧ Entry line address value ∧
    ∀ later ∈ back, ∀ other, ¬Entry later address other

theorem Final.mem {lines : List (List Char)} {address value : Nat}
    (h : Final lines address value) : ∃ line ∈ lines, Entry line address value := by
  obtain ⟨front, line, back, rfl, hentry, -⟩ := h
  exact ⟨line, by simp, hentry⟩

theorem final_snoc_iff {lines : List (List Char)} {line : List Char} {address value : Nat} :
    Final (lines ++ [line]) address value ↔ Entry line address value ∨
      Final lines address value ∧ ∀ other, ¬Entry line address other := by
  constructor
  · rintro ⟨front, last, back, heq, hentry, hlater⟩
    rcases List.eq_nil_or_concat back with rfl | ⟨back, later, rfl⟩
    · obtain ⟨-, hlast⟩ := List.append_inj' heq rfl
      cases hlast
      exact .inl hentry
    · have hsnoc : lines ++ [line] = (front ++ last :: back) ++ [later] := by simpa using heq
      obtain ⟨rfl, hlast⟩ := List.append_inj' hsnoc rfl
      cases hlast
      exact .inr ⟨⟨front, last, back, rfl, hentry, fun l hl => hlater l (by simp [hl])⟩,
        hlater line (by simp)⟩
  · rintro (hentry | ⟨⟨front, last, back, rfl, hentry, hlater⟩, hnone⟩)
    · exact ⟨lines, line, [], rfl, hentry, fun l hl => absurd hl List.not_mem_nil⟩
    · refine ⟨front, last, back ++ [line], by simp, hentry, fun l hl => ?_⟩
      rcases List.mem_append.mp hl with hback | hline
      · exact hlater l hback
      · rw [List.mem_singleton.mp hline]
        exact hnone

/-- A memory reaches to the largest address that the lines name, and each of its cells holds the
value from the last line for it, or zero where there is none. -/
structure Holds (lines : List (List Char)) (m : Memory) : Prop where
  reaches : ∀ line ∈ lines, ∀ address value, Entry line address value → address < m.size
  size_eq : m.size = 0 ∨ ∃ line ∈ lines, ∃ address value,
    Entry line address value ∧ m.size = address + 1
  named : ∀ address value, Final lines address value → m.get? address = some value
  unnamed : ∀ address, address < m.size →
    (∀ line ∈ lines, ∀ value, ¬Entry line address value) → m.get? address = some 0

namespace Holds
variable {lines : List (List Char)} {m : Memory}

theorem nil : Holds [] .empty where
  reaches line hline := absurd hline List.not_mem_nil
  size_eq := .inl rfl
  named address value h := by
    obtain ⟨line, hline, -⟩ := h.mem
    exact absurd hline List.not_mem_nil
  unnamed address h := absurd h (Nat.not_lt_zero address)

theorem blank (h : Holds lines m) {line : List Char} (hblank : Text.isAllBlank line = true) :
    Holds (lines ++ [line]) m := by
  have hnone (address value : Nat) : ¬Entry line address value := fun hentry => by
    rw [hentry.not_blank] at hblank
    cases hblank
  refine ⟨fun l hl address value hentry => ?_, ?_, fun address value hfinal => ?_,
    fun address hlt hnot => h.unnamed address hlt fun l hl => hnot l (by simp [hl])⟩
  · rcases List.mem_append.mp hl with hold | hnew
    · exact h.reaches l hold address value hentry
    · rw [List.mem_singleton.mp hnew] at hentry
      exact absurd hentry (hnone address value)
  · rcases h.size_eq with hzero | ⟨l, hl, hlast⟩
    · exact .inl hzero
    · exact .inr ⟨l, by simp [hl], hlast⟩
  · rcases final_snoc_iff.mp hfinal with hentry | ⟨hold, -⟩
    · exact absurd hentry (hnone address value)
    · exact h.named address value hold

/-- A further line puts its value into the cell it names and keeps the others. -/
theorem entry (h : Holds lines m) {line : List Char} {address value : Nat}
    (hentry : Entry line address value) : Holds (lines ++ [line]) (m.store address value) := by
  have hsize := m.size_store address value
  have hother {a : Nat} (hne : a ≠ address) : (m.store address value).get? a =
      if a < m.size then m.get? a else if a < address + 1 then some 0 else none := by
    rw [Memory.get?_store, if_neg hne, Memory.get?_grow]
  refine ⟨fun l hl a v hl' => ?_, .inr ?_, fun a v hfinal => ?_, fun a hlt hnot => ?_⟩
  · rcases List.mem_append.mp hl with hold | hnew
    · have := h.reaches l hold a v hl'
      omega
    · rw [List.mem_singleton.mp hnew] at hl'
      obtain ⟨rfl, -⟩ := hentry.unique hl'
      omega
  · rcases Nat.lt_or_ge address m.size with hin | hout
    · rcases h.size_eq with hzero | ⟨l, hl, a, v, hl', hlast⟩
      · omega
      · exact ⟨l, by simp [hl], a, v, hl', by omega⟩
    · exact ⟨line, by simp, address, value, hentry, by omega⟩
  · rcases final_snoc_iff.mp hfinal with hlast | ⟨hold, hnone⟩
    · obtain ⟨rfl, rfl⟩ := hentry.unique hlast
      exact m.get?_store_self address value
    · have hne : a ≠ address := fun heq => hnone value (heq ▸ hentry)
      have hcell := h.named a v hold
      rw [hother hne, if_pos (m.lt_size_of_get? hcell), hcell]
  · have hne : a ≠ address := fun heq => hnot line (by simp) value (heq ▸ hentry)
    rw [hother hne]
    by_cases hin : a < m.size
    · rw [if_pos hin]
      exact h.unnamed a hin fun l hl => hnot l (by simp [hl])
    · rw [if_neg hin, if_pos (by omega)]

theorem size_le {m' : Memory} (h : Holds lines m) (h' : Holds lines m') : m.size ≤ m'.size := by
  rcases h.size_eq with hzero | ⟨line, hline, address, value, hentry, hsize⟩
  · omega
  · have := h'.reaches line hline address value hentry
    omega

end Holds

theorem final_of_entry {lines : List (List Char)} {address : Nat}
    (h : ∃ line ∈ lines, ∃ value, Entry line address value) :
    ∃ value, Final lines address value := by
  induction lines using List.reverseRecOn with
  | nil => simp at h
  | append_singleton lines line ih =>
    by_cases hline : ∃ value, Entry line address value
    · obtain ⟨value, hentry⟩ := hline
      exact ⟨value, final_snoc_iff.mpr (.inl hentry)⟩
    · have hold : ∃ l ∈ lines, ∃ value, Entry l address value := by
        obtain ⟨l, hl, value, hentry⟩ := h
        rcases List.mem_append.mp hl with hl | hl
        · exact ⟨l, hl, value, hentry⟩
        · rw [List.mem_singleton.mp hl] at hentry
          exact absurd ⟨value, hentry⟩ hline
      obtain ⟨value, hfinal⟩ := ih hold
      exact ⟨value, final_snoc_iff.mpr (.inr ⟨hfinal, not_exists.mp hline⟩)⟩

/-- Lines stand for one memory. -/
theorem Holds.unique {lines : List (List Char)} {m m' : Memory} (h : Holds lines m)
    (h' : Holds lines m') : m = m' := by
  have hsize : m.size = m'.size := Nat.le_antisymm (h.size_le h') (h'.size_le h)
  have hcells (address : Nat) : m.get? address = m'.get? address := by
    by_cases hlt : address < m.size
    · by_cases hnamed : ∃ line ∈ lines, ∃ value, Entry line address value
      · obtain ⟨value, hfinal⟩ := final_of_entry hnamed
        rw [h.named address value hfinal, h'.named address value hfinal]
      · have hnone : ∀ line ∈ lines, ∀ value, ¬Entry line address value :=
          fun line hline value hentry => hnamed ⟨line, hline, value, hentry⟩
        rw [h.unnamed address hlt hnone, h'.unnamed address (hsize ▸ hlt) hnone]
    · rw [Memory.get?_eq_none_iff.mpr (Nat.le_of_not_lt hlt),
        Memory.get?_eq_none_iff.mpr (hsize ▸ Nat.le_of_not_lt hlt)]
  exact congrArg Memory.mk (Array.ext_getElem? hcells)

/-! ## Other orders -/

/-- Two lines that do not name the same address. -/
def Apart (line other : List Char) : Prop :=
  ∀ address value word, Entry line address value → ¬Entry other address word

/-- Where lines name different addresses, each of them is the last for its address. -/
theorem final_iff_of_pairwise {lines : List (List Char)} (h : lines.Pairwise Apart)
    {address value : Nat} :
    Final lines address value ↔ ∃ line ∈ lines, Entry line address value := by
  refine ⟨Final.mem, ?_⟩
  rintro ⟨line, hline, hentry⟩
  obtain ⟨front, back, rfl⟩ := List.append_of_mem hline
  obtain ⟨-, hback, -⟩ := List.pairwise_append.mp h
  refine ⟨front, line, back, rfl, hentry, fun later hlater other => ?_⟩
  exact (List.pairwise_cons.mp hback).1 later hlater address value other hentry

theorem Holds.reorder {lines others : List (List Char)} {m : Memory} (h : Holds lines m)
    (hperm : others.Perm lines)
    (hfinal : ∀ address value, Final others address value → Final lines address value) :
    Holds others m where
  reaches line hline := h.reaches line (hperm.mem_iff.mp hline)
  size_eq := h.size_eq.imp_right fun ⟨line, hline, hlast⟩ => ⟨line, hperm.mem_iff.mpr hline, hlast⟩
  named address value hlast := h.named address value (hfinal address value hlast)
  unnamed address hlt hnone :=
    h.unnamed address hlt fun line hline => hnone line (hperm.mem_iff.mpr hline)

/-! ## Reading -/

/-- What comes of reading lines behind others that have been read: the memory that all of them
stand for, or the error of the first that is not proper. -/
theorem readLines_outcome (rest : List (List Char)) {done : List (List Char)} {m : Memory}
    (hholds : Holds done m) (hproper : ∀ line ∈ done, Proper line) :
    (∃ m', readLines (done.length + 1) m rest = .ok m' ∧
      (∀ line ∈ done ++ rest, Proper line) ∧ Holds (done ++ rest) m') ∨
    ∃ front line back fault,
      readLines (done.length + 1) m rest = .error (.line (front.length + 1) fault) ∧
      done ++ rest = front ++ line :: back ∧ (∀ l ∈ front, Proper l) ∧ ¬Proper line := by
  induction rest generalizing done m with
  | nil => exact .inl ⟨m, rfl, by simpa using hproper, by simpa using hholds⟩
  | cons line rest ih =>
    have hsnoc (h : Proper line) : ∀ l ∈ done ++ [line], Proper l := by
      simpa [or_imp, forall_and, h] using hproper
    have happend : done ++ line :: rest = (done ++ [line]) ++ rest := by simp
    have hnumber : done.length + 1 + 1 = (done ++ [line]).length + 1 := by simp
    by_cases hblank : Text.isAllBlank line = true
    · rw [readLines, if_pos hblank, hnumber, happend]
      exact ih (hholds.blank hblank) (hsnoc (.inl hblank))
    · rw [readLines, if_neg hblank]
      cases hread : readLine line with
      | error fault =>
        refine .inr ⟨done, line, rest, fault, rfl, rfl, hproper, ?_⟩
        rintro (hyes | ⟨address, value, hentry⟩)
        · exact hblank hyes
        · rw [readLine_eq_ok_iff.mpr hentry] at hread
          cases hread
      | ok pair =>
        have hentry := readLine_eq_ok_iff.mp hread
        rw [hnumber, happend]
        exact ih (hholds.entry hentry) (hsnoc (.inr ⟨_, _, hentry⟩))

theorem decode_outcome (text : String) :
    (∃ m, decode text = .ok m ∧ (∀ line ∈ Text.lines text.toList, Proper line) ∧
      Holds (Text.lines text.toList) m) ∨
    ∃ front line back fault, decode text = .error (.line (front.length + 1) fault) ∧
      Text.lines text.toList = front ++ line :: back ∧ (∀ l ∈ front, Proper l) ∧ ¬Proper line :=
  readLines_outcome _ .nil fun _ hline => absurd hline List.not_mem_nil

theorem decode_eq_ok_iff {text : String} {m : Memory} :
    decode text = .ok m ↔
      (∀ line ∈ Text.lines text.toList, Proper line) ∧ Holds (Text.lines text.toList) m := by
  rcases decode_outcome text with
    ⟨m', hok, hproper, hholds⟩ | ⟨front, line, back, fault, herror, hlines, -, hnot⟩
  · rw [hok, Except.ok.injEq]
    exact ⟨fun heq => ⟨hproper, heq ▸ hholds⟩, fun h => hholds.unique h.2⟩
  · rw [herror]
    constructor
    · intro h
      cases h
    · rintro ⟨hproper, -⟩
      exact absurd (hproper line (by simp [hlines])) hnot

/-- A text is an image if each line of it that is not blank has two fields with a tab between them,
in binary digits an address below 2^16 and a value below 2^20. Such a text is read as the one
memory that its lines stand for; so the order of lines does not matter but for which of them is the
last for an address, and not at all if no two of them name the same. In any other text the first
line that is not proper is refused. -/
theorem decode_format (text : String) :
    ((∃ m, decode text = .ok m) ↔ ∀ line ∈ Text.lines text.toList, Proper line) ∧
    (∀ m, decode text = .ok m → Holds (Text.lines text.toList) m ∧
      ∀ other : String, (Text.lines other.toList).Perm (Text.lines text.toList) →
        ((∀ address value, Final (Text.lines other.toList) address value ↔
            Final (Text.lines text.toList) address value) ∨
          (Text.lines text.toList).Pairwise Apart) → decode other = .ok m) ∧
    (∀ e, decode text = .error e → ∃ front line back fault,
      e = .line (front.length + 1) fault ∧ Text.lines text.toList = front ++ line :: back ∧
        (∀ l ∈ front, Proper l) ∧ ¬Proper line) := by
  refine ⟨⟨fun ⟨m, hok⟩ => (decode_eq_ok_iff.mp hok).1, fun hproper => ?_⟩, fun m hok => ?_,
    fun e herror => ?_⟩
  · rcases decode_outcome text with ⟨m, hok, -⟩ | ⟨front, line, back, fault, -, hlines, -, hnot⟩
    · exact ⟨m, hok⟩
    · exact absurd (hproper line (by simp [hlines])) hnot
  · obtain ⟨hproper, hholds⟩ := decode_eq_ok_iff.mp hok
    refine ⟨hholds, fun other hperm hlast => decode_eq_ok_iff.mpr ⟨fun line hline =>
      hproper line (hperm.mem_iff.mp hline), hholds.reorder hperm fun address value hfinal => ?_⟩⟩
    rcases hlast with hsame | hapart
    · exact (hsame address value).mp hfinal
    · obtain ⟨line, hline, hentry⟩ := hfinal.mem
      exact (final_iff_of_pairwise hapart).mpr ⟨line, hperm.mem_iff.mp hline, hentry⟩
  · rcases decode_outcome text with
      ⟨m, hok, -⟩ | ⟨front, line, back, fault, hfault, hlines, hfront, hnot⟩
    · rw [hok] at herror
      cases herror
    · rw [hfault] at herror
      cases herror
      exact ⟨front, line, back, fault, rfl, hlines, hfront, hnot⟩

/-- Two cells in either order, with zeros and blanks around a numeral, a line end of two characters
and a line that is empty. -/
theorem decode_format_swapped :
    decode "10\t101\r\n\n 000 \t 11" = .ok (.ofList [3, 0, 5]) ∧
      (Text.lines "\n 000 \t 11\n10\t101".toList).Perm
        (Text.lines "10\t101\r\n\n 000 \t 11".toList) ∧
      (Text.lines "10\t101\r\n\n 000 \t 11".toList).Pairwise Apart ∧
      decode "\n 000 \t 11\n10\t101" = .ok (.ofList [3, 0, 5]) ∧
      decode "1\t1\n1 1" = .error (.line 2 (.fieldCount 1)) ∧
      ∃ front line back, Text.lines "1\t1\n1 1".toList = front ++ line :: back ∧ ¬Proper line := by
  have hok : decode "10\t101\r\n\n 000 \t 11" = .ok (.ofList [3, 0, 5]) := by decide +kernel
  have herror : decode "1\t1\n1 1" = .error (.line 2 (.fieldCount 1)) := by decide +kernel
  have hperm : (Text.lines "\n 000 \t 11\n10\t101".toList).Perm
      (Text.lines "10\t101\r\n\n 000 \t 11".toList) := by decide
  have hapart : (Text.lines "10\t101\r\n\n 000 \t 11".toList).Pairwise Apart := by
    have hlines : Text.lines "10\t101\r\n\n 000 \t 11".toList =
        ["10\t101".toList, [], " 000 \t 11".toList] := by decide
    have hfirst : Entry "10\t101".toList 2 5 := readLine_eq_ok_iff.mp (by decide +kernel)
    have hlast : Entry " 000 \t 11".toList 0 3 := readLine_eq_ok_iff.mp (by decide +kernel)
    have hblank (address value : Nat) : ¬Entry [] address value := fun h => nomatch h.not_blank
    rw [hlines, List.pairwise_cons, List.pairwise_pair]
    refine ⟨fun line hline address value word h h' => ?_, fun address value word h _ =>
      hblank address value h⟩
    rcases List.mem_cons.mp hline with rfl | hline
    · exact hblank address word h'
    · rw [List.mem_singleton.mp hline] at h'
      obtain ⟨rfl, -⟩ := hfirst.unique h
      cases (hlast.unique h').1
  obtain ⟨-, hholds, -⟩ := decode_format "10\t101\r\n\n 000 \t 11"
  obtain ⟨front, line, back, fault, -, hlines, -, hnot⟩ := (decode_format "1\t1\n1 1").2.2 _ herror
  exact ⟨hok, hperm, hapart, (hholds _ hok).2 _ hperm (.inr hapart), herror,
    front, line, back, hlines, hnot⟩

end TrnComputer.Image
