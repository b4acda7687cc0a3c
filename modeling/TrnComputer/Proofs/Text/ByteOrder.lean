/-! # The order of texts

Texts are ordered by their characters. `lt_iff_bytes_lt` says that this is the order of their bytes
in UTF-8.
-/

namespace TrnComputer.Text
set_option autoImplicit false

/-- Lists of bytes that differ at a place that both have, where the first has the lesser byte. -/
inductive Precedes : List UInt8 → List UInt8 → Prop
  | here {x y : UInt8} (h : x < y) (s t : List UInt8) : Precedes (x :: s) (y :: t)
  | later (x : UInt8) {s t : List UInt8} (h : Precedes s t) : Precedes (x :: s) (x :: t)

/-- The first place at which bytes differ decides, whatever follows. -/
theorem Precedes.append_lt {s t : List UInt8} (h : Precedes s t) (u v : List UInt8) :
    s ++ u < t ++ v := by
  induction h with
  | here h s t => exact List.cons_lt_cons_iff.mpr (.inl h)
  | later x h ih => exact List.cons_lt_cons_iff.mpr (.inr ⟨rfl, ih⟩)

section
variable {m n : Nat}

theorem ofNat_lt_ofNat (h : m < n) (hn : n < 256) : UInt8.ofNat m < UInt8.ofNat n := by
  rw [UInt8.lt_iff_toNat_lt, UInt8.toNat_ofNat', UInt8.toNat_ofNat']
  omega

/-! ## Characters -/

/-- The last byte of two characters that agree in all others. -/
theorem precedes_one (h : m < n) (hsame : m / 64 = n / 64) :
    Precedes [UInt8.ofNat (m % 64 + 128)] [UInt8.ofNat (n % 64 + 128)] :=
  .here (ofNat_lt_ofNat (by omega) (by omega)) [] []

theorem precedes_two (h : m < n) (hsame : m / 4096 = n / 4096) :
    Precedes [UInt8.ofNat (m / 64 % 64 + 128), UInt8.ofNat (m % 64 + 128)]
      [UInt8.ofNat (n / 64 % 64 + 128), UInt8.ofNat (n % 64 + 128)] := by
  by_cases hnext : m / 64 = n / 64
  · rw [hnext]
    exact .later _ (precedes_one h hnext)
  · exact .here (ofNat_lt_ofNat (by omega) (by omega)) _ _

theorem precedes_three (h : m < n) (hsame : m / 262144 = n / 262144) :
    Precedes [UInt8.ofNat (m / 4096 % 64 + 128), UInt8.ofNat (m / 64 % 64 + 128),
        UInt8.ofNat (m % 64 + 128)]
      [UInt8.ofNat (n / 4096 % 64 + 128), UInt8.ofNat (n / 64 % 64 + 128),
        UInt8.ofNat (n % 64 + 128)] := by
  by_cases hnext : m / 4096 = n / 4096
  · rw [hnext]
    exact .later _ (precedes_two h hnext)
  · exact .here (ofNat_lt_ofNat (by omega) (by omega)) _ _

end

/-- The bytes of a character precede those of a greater one. -/
theorem precedes_encode {c d : Char} (h : c < d) :
    Precedes (String.utf8EncodeChar c) (String.utf8EncodeChar d) := by
  have hlt : c.val.toNat < d.val.toNat := h
  have hd : d.val.toNat < 1114112 := by
    rcases d.valid with h | h <;> omega
  simp only [String.utf8EncodeChar]
  generalize c.val.toNat = m at hlt ⊢
  generalize d.val.toNat = n at hlt hd ⊢
  have hhead {x y : Nat} {s t : List UInt8} (hle : x ≤ y) (hy : y < 256)
      (hrest : x = y → Precedes s t) : Precedes (UInt8.ofNat x :: s) (UInt8.ofNat y :: t) := by
    rcases Nat.lt_or_eq_of_le hle with hless | rfl
    · exact .here (ofNat_lt_ofNat hless hy) s t
    · exact .later _ (hrest rfl)
  -- A first byte tells how many there are, and more bytes make it greater.
  by_cases hone : n ≤ 127
  · rw [if_pos hone, if_pos (by omega)]
    exact .here (ofNat_lt_ofNat hlt (by omega)) [] []
  rw [if_neg hone]
  by_cases htwo : n ≤ 2047
  · rw [if_pos htwo]
    by_cases hm : m ≤ 127
    · rw [if_pos hm]
      exact .here (ofNat_lt_ofNat (by omega) (by omega)) _ _
    · rw [if_neg hm, if_pos (by omega)]
      exact hhead (by omega) (by omega) fun _ => precedes_one hlt (by omega)
  rw [if_neg htwo]
  by_cases hthree : n ≤ 65535
  · rw [if_pos hthree]
    split
    · exact .here (ofNat_lt_ofNat (by omega) (by omega)) _ _
    · split
      · exact .here (ofNat_lt_ofNat (by omega) (by omega)) _ _
      · rw [if_pos (by omega)]
        exact hhead (by omega) (by omega) fun _ => precedes_two hlt (by omega)
  rw [if_neg hthree]
  split
  · exact .here (ofNat_lt_ofNat (by omega) (by omega)) _ _
  · split
    · exact .here (ofNat_lt_ofNat (by omega) (by omega)) _ _
    · split
      · exact .here (ofNat_lt_ofNat (by omega) (by omega)) _ _
      · exact hhead (by omega) (by omega) fun _ => precedes_three hlt (by omega)

/-! ## Texts -/

theorem encode_ne_nil (c : Char) : String.utf8EncodeChar c ≠ [] := by
  rw [String.utf8EncodeChar]
  split
  · exact List.cons_ne_nil _ _
  · split
    · exact List.cons_ne_nil _ _
    · split <;> exact List.cons_ne_nil _ _

theorem bytes_lt_of_lt {s t : List Char} (h : s < t) :
    s.flatMap String.utf8EncodeChar < t.flatMap String.utf8EncodeChar := by
  induction s generalizing t with
  | nil =>
    cases t with
    | nil => exact absurd h (List.lt_irrefl [])
    | cons d t =>
      obtain ⟨x, rest, hcons⟩ := List.exists_cons_of_ne_nil (encode_ne_nil d)
      rw [List.flatMap_nil, List.flatMap_cons, hcons, List.cons_append]
      exact List.nil_lt_cons _ _
  | cons c s ih =>
    cases t with
    | nil => exact absurd h (List.not_lt_nil _)
    | cons d t =>
      rw [List.flatMap_cons, List.flatMap_cons]
      rcases List.cons_lt_cons_iff.mp h with hless | ⟨rfl, hrest⟩
      · exact (precedes_encode hless).append_lt _ _
      · exact List.append_left_lt (ih hrest)

/-- The bytes of a text. -/
def bytes (s : String) : List UInt8 := s.toUTF8.data.toList

theorem bytes_eq (s : String) : bytes s = s.toList.flatMap String.utf8EncodeChar := by
  rw [bytes, String.toUTF8_eq_toByteArray, ← String.ofList_toList (s := s),
    String.toByteArray_ofList, List.utf8Encode, List.data_toByteArray, String.ofList_toList]

/-- Texts are ordered as their bytes are. -/
theorem lt_iff_bytes_lt {s t : String} : s < t ↔ bytes s < bytes t := by
  have hless {s t : String} (h : s < t) : bytes s < bytes t := by
    rw [bytes_eq, bytes_eq]
    exact bytes_lt_of_lt (String.lt_iff.mp h)
  refine ⟨hless, fun h => Decidable.byContradiction fun hnot => ?_⟩
  by_cases hmore : t < s
  · exact List.lt_asymm h (hless hmore)
  · have hsame : s = t := String.le_antisymm (String.not_lt.mp hmore) (String.not_lt.mp hnot)
    exact List.lt_irrefl _ (hsame ▸ h)

end TrnComputer.Text
