import TrnComputer.Proofs.Image.RoundTrip
import TrnComputer.Proofs.Sinks
import TrnComputer.Proofs.Text.Lines

/-! # Images that are not written to the end

* `delivers_encodeFrom`: the lines of cells are delivered, and the error names the cell in whose
  line the sink refused.
* `wholeLines`: a text up to the end of its last line that is ended.
* `firstLines_of_cut`: of a text that is cut somewhere the whole lines are the first of its
  lines.
* `encode_cut`: what any sink gets of an image, and `writeWithin_eq` where there is room for so many
  characters.
-/

namespace TrnComputer.Image
set_option autoImplicit false

/-! ## Lines of cells -/

/-- The lines of cells from an address on. -/
def rowsFrom (address : Nat) (cells : List Nat) : List (List Char) :=
  (cells.zipIdx address).map fun entry => row entry.2 entry.1

/-- Lines, each ended by a line feed. -/
def ended (rows : List (List Char)) : List Char := rows.flatMap (· ++ ['\n'])

theorem flatMap_lineParts (address cell : Nat) :
    (lineParts address cell).flatMap String.toList = row address cell ++ ['\n'] := by
  simp [lineParts, row]

theorem count_ended_singleton {text : List Char} (h : '\n' ∉ text) :
    (text ++ ['\n']).count '\n' = 1 := by
  rw [List.count_append, List.count_eq_zero_of_not_mem h, List.count_singleton_self]

theorem count_written (written : String) (text : List Char) :
    (written ++ String.ofList text).toList.count '\n' =
      written.toList.count '\n' + text.count '\n' := by
  rw [String.toList_append, String.toList_ofList, List.count_append]

/-- The lines of cells are delivered. The error counts the lines that have been ended. -/
theorem delivers_encodeFrom {State : Type} (sink : Sink State) (cells : List Nat)
    (w : Writing State) (hopen : w.refusal = none) :
    let address := w.written.toList.count '\n'
    let done := encodeFrom sink address w cells
    sink.Delivers w (ended (rowsFrom address cells)) done.1 ∧
      done.2 = done.1.refusal.map fun refusal =>
        .cell (done.1.written.toList.count '\n' + 1) refusal := by
  induction cells generalizing w with
  | nil =>
    refine ⟨.nothing, ?_⟩
    rw [encodeFrom, hopen]
    rfl
  | cons cell rest ih =>
    intro address done
    obtain ⟨start, written, refusal⟩ := w
    obtain rfl : refusal = none := hopen
    have hline := sink.delivers_offerEach (lineParts address cell) ⟨start, written, none⟩ rfl
    rw [flatMap_lineParts] at hline
    have hnone := (notMem_row address cell).1
    change sink.Delivers ⟨start, written, none⟩
      ((row address cell ++ ['\n']) ++ ended (rowsFrom (address + 1) rest)) done.1 ∧ _
    simp only [done, encodeFrom]
    generalize sink.offerEach ⟨start, written, none⟩ (lineParts address cell) = next at hline
    cases hline with
    | @whole s hroom =>
      have hcount : (written ++ String.ofList (row address cell ++ ['\n'])).toList.count '\n' =
          address + 1 := by
        rw [count_written, count_ended_singleton hnone]
      have hrest := ih ⟨s, written ++ String.ofList (row address cell ++ ['\n']), none⟩ rfl
      simp only [hcount] at hrest
      exact ⟨.behind hroom hrest.1, hrest.2⟩
    | @cut s front back refusal htext hback hrefuses hroom =>
      -- What is taken of the line does not reach its end.
      have hwithin : front <+: row address cell := by
        rcases List.prefix_concat_iff.mp ⟨back, htext.symm⟩ with hall | hwithin
        · rw [hall] at htext
          exact absurd (List.append_right_eq_self.mp htext.symm) hback
        · exact hwithin
      have hcount : (written ++ String.ofList front).toList.count '\n' = address := by
        rw [count_written, List.count_eq_zero_of_not_mem fun h => hnone (hwithin.subset h),
          Nat.add_zero]
      refine ⟨.cut (by rw [htext, List.append_assoc]) (fun hnil => hback ?_) hrefuses hroom, ?_⟩
      · exact (List.append_eq_nil_iff.mp hnil).1
      · simp only [hcount, Option.map_some]

/-! ## Whole lines -/

/-- A text up to the end of its last line that is ended. -/
def wholeLines (text : String) : String :=
  String.ofList (Text.firstLines (text.toList.count '\n') text.toList)

/-- Of a text that is cut somewhere the whole lines are the first of its lines. -/
theorem firstLines_of_cut {rows : List (List Char)} (h : ∀ text ∈ rows, '\n' ∉ text)
    {front : List Char} (hbegins : front <+: ended rows) :
    Text.firstLines (front.count '\n') front = ended (rows.take (front.count '\n')) := by
  induction rows generalizing front with
  | nil =>
    rw [List.prefix_nil.mp hbegins]
    rfl
  | cons text rest ih =>
    obtain ⟨htext, hrest⟩ := List.forall_mem_cons.mp h
    have hcut : front <+: (text ++ ['\n']) ++ ended rest := hbegins
    rcases Nat.lt_or_ge text.length front.length with hlong | hshort
    · obtain ⟨back, rfl⟩ : text ++ ['\n'] <+: front :=
        List.prefix_of_prefix_length_le (List.prefix_append _ _) hcut
          (by rw [List.length_append, List.length_singleton]; exact hlong)
      have hback : back <+: ended rest := (List.prefix_append_right_inj _).mp hcut
      rw [List.count_append, count_ended_singleton htext, Nat.add_comm, List.append_assoc,
        List.singleton_append, Text.firstLines_append htext, ih hrest hback, List.take_succ_cons]
      simp [ended]
    · rw [List.append_assoc] at hcut
      have hfront : front <+: text :=
        List.prefix_of_prefix_length_le hcut (List.prefix_append _ _) hshort
      rw [List.count_eq_zero_of_not_mem fun hmem => htext (hfront.subset hmem), Text.firstLines]
      rfl

theorem take_zipIdx (cells : List Nat) (address count : Nat) :
    (cells.zipIdx address).take count = (cells.take count).zipIdx address := by
  refine List.ext_getElem? fun i => ?_
  simp only [List.getElem?_take, List.getElem?_zipIdx]
  split <;> simp

theorem wholeLines_of_cut {memory : Memory} {written : String}
    (h : written.toList <+: (render memory).toList) :
    wholeLines written =
      render ⟨memory.cells.take (written.toList.count '\n')⟩ := by
  rw [toList_render] at h
  have hrows : ∀ text ∈ rowsFrom 0 memory.cells.toList, '\n' ∉ text := by
    intro text htext
    obtain ⟨entry, -, rfl⟩ := List.mem_map.mp htext
    exact (notMem_row entry.2 entry.1).1
  rw [wholeLines, firstLines_of_cut hrows h, ← String.ofList_toList (s := render _),
    toList_render]
  simp [ended, rowsFrom, ← take_zipIdx, List.map_take]

/-! ## Images -/

theorem utf8Size_render {memory : Memory} {c : Char} (h : c ∈ (render memory).toList) :
    c.utf8Size = 1 := by
  rw [toList_render] at h
  obtain ⟨text, htext, hc⟩ := List.mem_flatMap.mp h
  obtain ⟨entry, -, rfl⟩ := List.mem_map.mp htext
  rcases List.mem_append.mp hc with hrow | hend
  · rcases mem_row hrow with rfl | rfl | rfl <;> decide
  · rw [List.mem_singleton.mp hend]
    decide

section
variable {State : Type}

theorem cut_encode (sink : Sink State) (start : State) (memory : Memory) :
    sink.Cut start (render memory).toList (encode sink start memory).1 ∧
      (encode sink start memory).2 = (encode sink start memory).1.refusal.map fun refusal =>
        .cell ((encode sink start memory).1.written.toList.count '\n' + 1) refusal := by
  obtain ⟨hdelivers, herror⟩ := delivers_encodeFrom sink memory.cells.toList { state := start } rfl
  rw [toList_render]
  exact ⟨hdelivers.from_start, herror⟩

/-- Whatever the sink takes of an image is a part at the front of it. There is no error just when it
is all; else the error has what the sink answered, and its number is one more than the number of
lines that are there whole. A sink that takes so many bytes in all, in portions of any size, gets
just so many, and a character of an image is one byte. The lines that are there whole are the image
of the cells before the one in the error. -/
theorem encode_cut (sink : Sink State) (start : State) (memory : Memory) :
    let w := (encode sink start memory).1
    let e := (encode sink start memory).2
    let complete := w.written.toList.count '\n'
    w.written.toList <+: (render memory).toList ∧
    (e = none ↔ w.written = render memory) ∧
    (e ≠ none → ∃ refusal, sink.Refuses refusal ∧ e = some (.cell (complete + 1) refusal)) ∧
    (∀ room, sink.Within room →
      w.written.toList = (render memory).toList.take (room start) ∧
        (e = none ↔ (render memory).length ≤ room start)) ∧
    (∀ c ∈ (render memory).toList, c.utf8Size = 1) ∧
    (memory.size ≤ 2 ^ 16 → decode (wholeLines w.written) =
      .ok ⟨(memory.cells.take complete).map Word.significant⟩) := by
  intro w e complete
  obtain ⟨hcut, herror⟩ := cut_encode sink start memory
  have hnone : e = none ↔ w.refusal = none := by
    rw [show e = _ from herror, Option.map_eq_none_iff]
  refine ⟨hcut.written, ?_, fun hsome => ?_, fun room hwithin => ?_, fun c => utf8Size_render,
    fun hsize => ?_⟩
  · rw [hnone, hcut.whole, String.toList_inj]
  · obtain ⟨refusal, hrefusal⟩ := Option.ne_none_iff_exists'.mp (mt hnone.mpr hsome)
    refine ⟨refusal, hcut.refuses refusal hrefusal, ?_⟩
    rw [show e = _ from herror, show (encode sink start memory).1.refusal = _ from hrefusal]
    rfl
  · rw [hnone, ← String.length_toList]
    exact hcut.within room hwithin
  · rw [wholeLines_of_cut hcut.written, decode_rendered, if_pos]
    have hle : (memory.cells.take complete).size ≤ memory.cells.size := by
      rw [Array.take_eq_extract, Array.size_extract]
      omega
    exact Nat.le_trans hle hsize

end

/-- There is room for a line and for five characters of the next one. -/
theorem encode_cut_second_line :
    let w := (encode (.limited .diskFull) 40 ⟨#[1, 2, 3]⟩).1
    let e := (encode (.limited .diskFull) 40 ⟨#[1, 2, 3]⟩).2
    w.written.toList = (render ⟨#[1, 2, 3]⟩).toList.take 40 ∧ e = some (.cell 2 .diskFull) ∧
      decode (wholeLines w.written) = .ok ⟨#[1]⟩ := by
  intro w e
  obtain ⟨-, -, herror, hroom, -, hdecode⟩ := encode_cut (.limited .diskFull) 40 ⟨#[1, 2, 3]⟩
  obtain ⟨htaken, hfits⟩ := hroom id (Sink.within_limited .diskFull)
  have hrendered : ((render ⟨#[1, 2, 3]⟩).toList.take 40).count '\n' = 1 ∧
      ¬(render ⟨#[1, 2, 3]⟩).length ≤ 40 := by decide +kernel
  have hcomplete : w.written.toList.count '\n' = 1 := htaken ▸ hrendered.1
  obtain ⟨refusal, hrefuses, hcell⟩ := herror (mt hfits.mp hrendered.2)
  refine ⟨htaken, ?_, ?_⟩
  · rw [show e = _ from hcell, Sink.refuses_limited hrefuses, show (encode _ _ _).1 = w from rfl,
      hcomplete]
  · have hcells := hdecode (by decide)
    rw [show (encode _ _ _).1 = w from rfl, hcomplete] at hcells
    have hfirst : ((Memory.cells ⟨#[1, 2, 3]⟩).take 1).map Word.significant = #[1] := by
      decide +kernel
    rw [hcells, hfirst]

/-- What is written where there is room for so many characters. -/
theorem writeWithin_eq (room : Nat) (refusal : Refusal) (memory : Memory) :
    let written := String.ofList ((render memory).toList.take room)
    writeWithin room refusal memory =
      (written, if (render memory).length ≤ room then none
        else some (.cell (written.toList.count '\n' + 1) refusal)) := by
  intro written
  obtain ⟨hcut, herror⟩ := cut_encode (.limited refusal) room memory
  obtain ⟨htaken, hfits⟩ := hcut.within id (Sink.within_limited refusal)
  have hwritten : (encode (.limited refusal) room memory).1.written = written := by
    rw [← String.ofList_toList (s := Writing.written _), htaken]
    rfl
  rw [writeWithin, Prod.mk.injEq]
  refine ⟨hwritten, ?_⟩
  rw [herror, hwritten]
  by_cases hroom : (render memory).length ≤ room
  · rw [hfits.mpr (by rwa [String.length_toList]), if_pos hroom, Option.map_none]
  · obtain ⟨other, hother⟩ := Option.ne_none_iff_exists'.mp
      (mt hfits.mp (by rwa [String.length_toList]))
    rw [hother, Sink.refuses_limited (hcut.refuses other hother), if_neg hroom, Option.map_some]

end TrnComputer.Image
