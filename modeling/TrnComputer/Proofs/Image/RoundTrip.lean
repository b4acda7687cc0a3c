import TrnComputer.Image
import TrnComputer.Proofs.Cells
import TrnComputer.Proofs.Text.Numerals

/-! # Images of memories are read back

* `readField_toBinary`: a field holds the binary numeral of a number that has not too many bits.
* `Image.row`: the characters of a line, and `lines_render`: an image is one such line a cell.
* `readLines_rows`: reading the lines of further cells puts these cells behind those of a memory,
  until an address has more than 16 bits.
* `decode_render`: the image of a memory is read as the same memory, cells in 20 bits, if it has at
  most 65536 cells. If it has more, the line of the first cell too many is refused.
-/

namespace TrnComputer.Image
set_option autoImplicit false

/-! ## Fields -/

theorem mem_toBinary {n width : Nat} {c : Char} (h : c ∈ (Word.toBinary n width).toList) :
    c = '0' ∨ c = '1' := by
  rw [Word.toBinary, String.toList_ofList] at h
  rcases List.mem_append.mp h with hzero | hdigit
  · exact .inl (List.mem_replicate.mp hzero).2
  · obtain ⟨d, hd, rfl⟩ := List.mem_map.mp hdigit
    match d, Text.lt_of_mem_digits (by decide) hd with
    | 0, _ => exact .inl rfl
    | 1, _ => exact .inr rfl

theorem foldl_digitChar {ds : List Nat} (h : ∀ d ∈ ds, d < 2) (n : Nat) :
    (ds.map Text.digitChar).foldl (fun n c => n * 2 + if c = '1' then 1 else 0) n =
      ds.foldl (fun n d => n * 2 + d) n := by
  induction ds generalizing n with
  | nil => rfl
  | cons d ds ih =>
    obtain ⟨hd, hds⟩ := List.forall_mem_cons.mp h
    have hdigit : (if Text.digitChar d = '1' then 1 else 0) = d := by
      match d, hd with
      | 0, _ | 1, _ => rfl
    rw [List.map_cons, List.foldl_cons, List.foldl_cons, hdigit, ih hds]

/-- The digits of a number behind its leading zeros. -/
theorem dropWhile_toBinary (n width : Nat) :
    (Word.toBinary n width).toList.dropWhile (· == '0') =
      if n = 0 then [] else Text.numeral 2 n := by
  have hzeros (k : Nat) (s : List Char) :
      (List.replicate k '0' ++ s).dropWhile (· == '0') = s.dropWhile (· == '0') := by
    rw [List.dropWhile_append_of_pos (fun c hc => by simp [(List.mem_replicate.mp hc).2])]
  rw [Word.toBinary, String.toList_ofList, Text.alignRight, hzeros]
  obtain ⟨d, rest, hdigits, hzero⟩ := Text.head?_digits (by decide : 2 ≤ 2) n
  by_cases hn : n = 0
  · rw [if_pos hn, hn, Text.numeral, Text.digits_of_lt (by decide)]
    rfl
  · have hd : d = 1 := by
      have hlt : d < 2 := Text.lt_of_mem_digits (by decide) (hdigits ▸ List.mem_cons_self)
      have hne : d ≠ 0 := fun h => hn (hzero h)
      omega
    rw [if_neg hn, Text.numeral, hdigits, hd]
    rfl

/-- A field holds the numeral of a number that has not too many bits. -/
theorem readField_toBinary (field : ImageField) (n width : Nat) :
    readField field (Word.toBinary n width).toList =
      if n < 2 ^ field.maxBits then .ok n
      else .error (.unreadable field (Word.toBinary n width)) := by
  have hbits : ∀ c ∈ (Word.toBinary n width).toList, c = '0' ∨ c = '1' := fun c => mem_toBinary
  have htrim : Text.trim (Word.toBinary n width).toList = (Word.toBinary n width).toList :=
    Text.trim_of_forall fun c hc => by
      rcases hbits c hc with rfl | rfl <;> decide
  have hall : ((Word.toBinary n width).toList.all fun c => c == '0' || c == '1') = true := by
    simpa using hbits
  have hne : (Word.toBinary n width).toList ≠ [] := by
    simp [Word.toBinary, Text.alignRight, Text.numeral, Text.digits_ne_nil]
  have hlength : ((Word.toBinary n width).toList.dropWhile (· == '0')).length ≤ field.maxBits ↔
      n < 2 ^ field.maxBits := by
    rw [dropWhile_toBinary]
    by_cases hn : n = 0
    · rw [if_pos hn, hn]
      exact ⟨fun _ => Nat.two_pow_pos _, fun _ => Nat.zero_le _⟩
    · rw [if_neg hn, Text.numeral, List.length_map]
      exact Text.length_digits_le_iff (by decide) (Nat.pos_of_ne_zero hn)
  have hvalue : ((Word.toBinary n width).toList.dropWhile (· == '0')).foldl
      (fun n c => n * 2 + if c = '1' then 1 else 0) 0 = n := by
    rw [dropWhile_toBinary]
    by_cases hn : n = 0
    · simp [hn]
    · rw [if_neg hn, Text.numeral,
        foldl_digitChar (fun d hd => Text.lt_of_mem_digits (by decide) hd)]
      exact Text.ofDigits_digits 2 n
  simp only [readField, htrim, hall, hvalue, String.ofList_toList]
  by_cases hfits : n < 2 ^ field.maxBits
  · have hnot : ¬field.maxBits <
        ((Word.toBinary n width).toList.dropWhile (· == '0')).length := by
      have := hlength.mpr hfits
      omega
    simp [hne, hnot, hfits]
  · have hmore : field.maxBits <
        ((Word.toBinary n width).toList.dropWhile (· == '0')).length := by
      have := mt hlength.mp hfits
      omega
    simp [hmore, hfits]

/-! ## Lines -/

/-- The characters of the line of a cell, without the line feed. -/
def row (address cell : Nat) : List Char :=
  (Word.toBinary address 13).toList ++ '\t' :: (Word.toBinary (Word.significant cell) 20).toList

theorem mem_row {address cell : Nat} {c : Char} (h : c ∈ row address cell) :
    c = '0' ∨ c = '1' ∨ c = '\t' := by
  rcases List.mem_append.mp h with haddress | hvalue
  · rcases mem_toBinary haddress with h | h <;> simp [h]
  · rcases List.mem_cons.mp hvalue with h | hvalue
    · simp [h]
    · rcases mem_toBinary hvalue with h | h <;> simp [h]

theorem isAllBlank_row (address cell : Nat) : Text.isAllBlank (row address cell) = false := by
  have hne : (Word.toBinary address 13).toList ≠ [] := by
    simp [Word.toBinary, Text.alignRight, Text.numeral, Text.digits_ne_nil]
  obtain ⟨c, rest, hcons⟩ := List.exists_cons_of_ne_nil hne
  have hblank : Text.isBlank c = false := by
    rcases mem_toBinary (hcons ▸ List.mem_cons_self : c ∈ _) with rfl | rfl <;> decide
  simp [Text.isAllBlank, row, hcons, hblank]

/-- The line of a cell is refused if its address has more than 16 bits. -/
theorem readLine_row (address cell : Nat) :
    readLine (row address cell) =
      if address < 2 ^ 16 then .ok (address, Word.significant cell)
      else .error (.unreadable .address (Word.toBinary address 13)) := by
  have htab (n width : Nat) : '\t' ∉ (Word.toBinary n width).toList := fun h => by
    rcases mem_toBinary h with h | h <;> cases h
  have hcell : Word.significant cell < 2 ^ 20 := Nat.mod_lt _ (by decide)
  have hwide : Word.significant cell < 2 ^ ImageField.value.maxBits :=
    Nat.lt_of_lt_of_le hcell (by decide)
  rw [readLine, row, Text.split_append_cons (htab _ _), Text.split_of_notMem (htab _ _)]
  simp only [readField_toBinary, if_pos hwide, if_pos hcell]
  by_cases haddress : address < 2 ^ 16
  · have hfits : address < 2 ^ ImageField.address.maxBits := haddress
    simp only [if_pos haddress, if_pos hfits]
  · have hfits : ¬address < 2 ^ ImageField.address.maxBits := haddress
    simp only [if_neg haddress, if_neg hfits]

theorem toList_render (m : Memory) :
    (render m).toList =
      (m.cells.toList.zipIdx.map fun entry => row entry.2 entry.1).flatMap (· ++ ['\n']) := by
  simp only [render, renderLines, String.toList_join, List.flatMap_map]
  congr 1
  funext entry
  simp [line, row]

theorem notMem_row (address cell : Nat) : '\n' ∉ row address cell ∧ '\r' ∉ row address cell := by
  constructor <;>
  · intro h
    rcases mem_row h with h | h | h <;> cases h

/-- An image is one line a cell. -/
theorem lines_render (m : Memory) :
    Text.lines (render m).toList =
      m.cells.toList.zipIdx.map fun entry => row entry.2 entry.1 := by
  rw [toList_render, ← List.append_nil (List.flatMap _ _), Text.lines_flatMap, Text.lines_nil,
    List.append_nil]
  intro s hs
  obtain ⟨entry, -, rfl⟩ := List.mem_map.mp hs
  exact notMem_row entry.2 entry.1

/-! ## Memories -/

/-- Reading the lines of further cells puts these behind the cells of a memory. The line of the
cell that makes them more than 65536 is refused. -/
theorem readLines_rows (cells : List Nat) (m : Memory) (h : m.size ≤ 2 ^ 16) :
    readLines (m.size + 1) m ((cells.zipIdx m.size).map fun entry => row entry.2 entry.1) =
      if m.size + cells.length ≤ 2 ^ 16 then
        .ok ⟨m.cells ++ (cells.map Word.significant).toArray⟩
      else .error (.line (2 ^ 16 + 1) (.unreadable .address (Word.toBinary (2 ^ 16) 13))) := by
  induction cells generalizing m with
  | nil => simp [readLines, h]
  | cons cell cells ih =>
    rw [List.zipIdx_cons, List.map_cons, readLines, isAllBlank_row, if_neg Bool.false_ne_true,
      readLine_row]
    by_cases hroom : m.size < 2 ^ 16
    · have hnext : (m.store m.size (Word.significant cell)).size = m.size + 1 := by
        rw [Memory.size_store]
        omega
      have hrest := ih (m.store m.size (Word.significant cell)) (by omega)
      rw [hnext] at hrest
      have hlength : m.size + 1 + cells.length = m.size + (cell :: cells).length := by
        rw [List.length_cons]
        omega
      have hcells : (m.store m.size (Word.significant cell)).cells ++
          (cells.map Word.significant).toArray =
            m.cells ++ ((cell :: cells).map Word.significant).toArray := by
        simp [Memory.store_size]
      simp only [if_pos hroom, hrest, hlength, hcells]
    · have hfull : m.size = 2 ^ 16 := by omega
      have hmore : ¬m.size + (cell :: cells).length ≤ 2 ^ 16 := by
        rw [List.length_cons]
        omega
      simp only [if_neg hroom, if_neg hmore]
      rw [hfull]

theorem decode_rendered (m : Memory) :
    decode (render m) =
      if m.size ≤ 2 ^ 16 then .ok ⟨m.cells.map Word.significant⟩
      else .error (.line (2 ^ 16 + 1) (.unreadable .address (Word.toBinary (2 ^ 16) 13))) := by
  have hrows := readLines_rows m.cells.toList .empty (Nat.zero_le _)
  have hempty : Memory.empty.size = 0 := rfl
  rw [hempty, Nat.zero_add, Nat.zero_add, Array.length_toList] at hrows
  rw [decode, lines_render, hrows]
  have hcells : Memory.empty.cells ++ (m.cells.toList.map Word.significant).toArray =
      m.cells.map Word.significant := by
    apply Array.ext'
    simp [Memory.empty]
  rw [hcells]
  rfl

theorem decode_words {m : Memory} (hsize : m.size ≤ 2 ^ 16)
    (hcells : ∀ cell ∈ m.cells, cell < 2 ^ 20) : decode (render m) = .ok m := by
  have hsame : m.cells.map Word.significant = m.cells.map id :=
    Array.map_congr_left fun cell hcell => Nat.mod_eq_of_lt (hcells cell hcell)
  rw [Array.map_id] at hsame
  rw [decode_rendered, if_pos hsize, hsame]

/-- The image of a memory of at most 65536 cells is read as this memory, of each cell the low 20
bits; so it is read as the memory itself if that holds words of 20 bits. In the image of a larger
memory line 65537 is refused. -/
theorem decode_render (m : Memory) :
    decode (render m) =
        (if m.size ≤ 2 ^ 16 then .ok ⟨m.cells.map Word.significant⟩
        else .error (.line (2 ^ 16 + 1) (.unreadable .address (Word.toBinary (2 ^ 16) 13)))) ∧
      (m.size ≤ 2 ^ 16 → (∀ cell ∈ m.cells, cell < 2 ^ 20) → decode (render m) = .ok m) :=
  ⟨decode_rendered m, decode_words⟩

/-- A last cell that holds zero is read back. -/
theorem decode_render_trailingZero :
    (Memory.ofList [5, 2 ^ 20 - 1, 0]).size ≤ 2 ^ 16 ∧
      (∀ cell ∈ (Memory.ofList [5, 2 ^ 20 - 1, 0]).cells, cell < 2 ^ 20) ∧
      decode (render (.ofList [5, 2 ^ 20 - 1, 0])) = .ok (.ofList [5, 2 ^ 20 - 1, 0]) := by
  have hsize : (Memory.ofList [5, 2 ^ 20 - 1, 0]).size ≤ 2 ^ 16 := by decide
  have hcells : ∀ cell ∈ (Memory.ofList [5, 2 ^ 20 - 1, 0]).cells, cell < 2 ^ 20 := by
    simp [Memory.ofList]
  exact ⟨hsize, hcells, (decode_render _).2 hsize hcells⟩

end TrnComputer.Image
