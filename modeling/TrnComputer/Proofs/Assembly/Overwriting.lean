import TrnComputer.Proofs.Assembly.Assembled

/-! # Cells that are filled again

A statement that fills a cell again replaces the word in it. References to the cell are not
withdrawn, so the sums that earlier statements have left waiting for it are put into the new word
as well, in source order and before its own.

* `Draft.link_resolves`, `Draft.get?_link`: what linking does to one cell, however often it is
  referred to.
* `sumsAt`: the sums that wait for a cell.
* `refilled_cell`: the word of a cell that is filled more than once. It is that of the last content
  if no earlier one at the address has left a sum.
-/

namespace TrnComputer
set_option autoImplicit false

/-! ## One cell through linking -/

namespace Draft

variable {symbols : SymbolTable} {memory memory' : Memory} {records : Array Record}
  {references : List Reference}

theorem link_resolves (h : (link symbols memory records references).2 = .ok memory')
    {r : Reference} (hmem : r ∈ references) : ∃ value, symbols.resolve r.sum = .ok value := by
  induction references generalizing memory records with
  | nil => cases hmem
  | cons reference rest ih =>
    obtain ⟨value, cell, others, hvalue, -, hrest⟩ := link_cons h
    obtain rfl | hlater := List.mem_cons.mp hmem
    · exact ⟨value, hvalue⟩
    · exact ih hrest hlater

/-- A cell takes the values of all references to it, one after the other. -/
theorem get?_link (h : (link symbols memory records references).2 = .ok memory')
    {valueOf : LabelSum → Int}
    (hvalue : ∀ r ∈ references, symbols.resolve r.sum = .ok (valueOf r.sum)) (address : Nat) :
    memory'.get? address = (memory.get? address).map fun cell =>
      (references.filter (·.address = address)).foldl
        (fun cell r => Reference.patch cell (valueOf r.sum)) cell := by
  induction references generalizing memory records with
  | nil =>
    cases h
    simp
  | cons reference rest ih =>
    obtain ⟨value, cell, others, hresolved, hcell, hrest⟩ := link_cons h
    obtain ⟨hhead, htail⟩ := List.forall_mem_cons.mp hvalue
    obtain rfl : value = valueOf reference.sum := Except.ok.inj (hresolved.symm.trans hhead)
    rw [ih hrest htail]
    by_cases hsame : reference.address = address
    · subst hsame
      rw [Memory.get?_store_self, hcell, List.filter_cons_of_pos (by simp)]
      rfl
    · rw [Memory.get?_store_of_ne _ hcell (Ne.symm hsame),
        List.filter_cons_of_neg (by simpa using hsame)]

end Draft

/-! ## Sums that wait for a cell -/

/-- The sums that the cell at an address waits for, in the order in which they have been put
there. -/
def sumsAt (address : Nat) (emitted : List (Nat × Content)) : List LabelSum :=
  ((sums emitted).filter (·.1 = address)).map Prod.snd

section
variable {address : Nat} {emitted front back : List (Nat × Content)} {content : Content}

theorem sumsAt_append (address : Nat) (front back : List (Nat × Content)) :
    sumsAt address (front ++ back) = sumsAt address front ++ sumsAt address back := by
  simp only [sumsAt, sums_append, List.filter_append, List.map_append]

theorem sumsAt_eq_nil (h : ∀ e ∈ emitted, e.1 = address → e.2.sum? = none) :
    sumsAt address emitted = [] := by
  rw [sumsAt, List.map_eq_nil_iff, List.filter_eq_nil_iff]
  intro waiting hwaiting hsame
  obtain ⟨e, he, hplace, hsum⟩ := mem_sums.mp hwaiting
  rw [h e he (hplace.trans (by simpa using hsame))] at hsum
  cases hsum

theorem sumsAt_singleton (address : Nat) (content : Content) :
    sumsAt address [(address, content)] = content.sum?.toList := by
  cases hsum : content.sum? <;> simp [sumsAt, sums, hsum]

theorem sumsAt_of_last (hback : ∀ e ∈ back, e.1 ≠ address) :
    sumsAt address (front ++ (address, content) :: back) =
      sumsAt address front ++ content.sum?.toList := by
  have hlater : sumsAt address back = [] :=
    sumsAt_eq_nil fun e he hsame => absurd hsame (hback e he)
  rw [sumsAt_append, ← List.singleton_append, sumsAt_append, sumsAt_singleton, hlater,
    List.append_nil]

theorem lastAt_of_append (hback : ∀ e ∈ back, e.1 ≠ address) :
    lastAt address (front ++ (address, content) :: back) = some content := by
  induction front with
  | nil =>
    rw [List.nil_append, lastAt, lastAt_eq_none_iff.mpr hback, Option.none_or, if_pos rfl]
  | cons first rest ih => rw [List.cons_append, lastAt, ih, Option.some_or]

end

/-! ## Cells of a source -/

/-- A word with the value of a sum put into it. -/
def LabelSum.fill (addressOf : String → Nat) (cell : Nat) (sum : LabelSum) : Nat :=
  Reference.patch cell (sum.total addressOf)

theorem fill_base (addressOf : String → Nat) (content : Content) :
    content.sum?.toList.foldl (LabelSum.fill addressOf) content.base = content.word addressOf := by
  cases hsum : content.sum? with
  | none => exact content.base_eq_word addressOf hsum
  | some sum => exact patch_base addressOf hsum

section
variable {named : List (String × Nat)} {emitted : List (Nat × Content)} {reserved : List Nat}
  {d : Draft}

theorem map_sum_references (h : Drafted named emitted reserved d) (address : Nat) :
    (d.references.toList.filter (·.address = address)).map Reference.sum =
      sumsAt address emitted := by
  rw [sumsAt, ← h.references, List.filter_map, List.map_map]
  rfl

theorem resolve_of_drafted {walk : List (Statement × Nat)}
    (h : Drafted (labels walk) (emissions walk) (reserves walk) d) {records : Array Record}
    {memory : Memory}
    (hlink : (Draft.link d.symbols d.memory records d.references.toList).2 = .ok memory)
    {r : Reference} (hr : r ∈ d.references.toList) :
    d.symbols.resolve r.sum = .ok (r.sum.total (labelAddress walk)) := by
  obtain ⟨e, he, -, hsum⟩ := (exists_reference_iff h).mp ⟨r, hr, rfl, rfl⟩
  obtain ⟨value, hvalue⟩ := Draft.link_resolves hlink hr
  obtain ⟨rfl, -⟩ := resolve_of_ok
    (fun label address hget => labelAddress_of_drafted h ((h.symbols label address).mp hget))
    (wrapped_of_emissions he hsum) hvalue
  exact hvalue

end

/-- The word of a cell that a source fills, however often. The last content gives the opcode and
the modifiers, or the literal; all sums that have ever been put at the address are put into that.
If no earlier content at the address has a sum, the last one and the labels alone decide. -/
theorem refilled_cell {source : String} {memory : Memory} (h : assemble source = .ok memory)
    {front back : List (Nat × Content)} {address : Nat} {content : Content}
    (hsplit : emissions (stations source) = front ++ (address, content) :: back)
    (hback : ∀ e ∈ back, e.1 ≠ address) :
    memory.get? address =
        some ((sumsAt address front ++ content.sum?.toList).foldl
          (LabelSum.fill (labelAddress (stations source))) content.base) ∧
      ((∀ e ∈ front, e.1 = address → e.2.sum? = none) →
        memory.get? address = some (content.word (labelAddress (stations source)))) := by
  obtain ⟨d, records, hleads, hlink⟩ := assemble_eq_ok h
  obtain ⟨hdrafted, -, -⟩ := drafted_source hleads
  have hlast : lastAt address (emissions (stations source)) = some content := by
    rw [hsplit]
    exact lastAt_of_append hback
  have hlt : address < extent (emissions (stations source)) (reserves (stations source)) :=
    lt_extent (mem_of_lastAt hlast)
  have hbase : d.memory.get? address = some content.base := by
    rw [hdrafted.cell address hlt, hlast, Option.elim_some]
  have hsums : (d.references.toList.filter (·.address = address)).map Reference.sum =
      sumsAt address front ++ content.sum?.toList := by
    rw [map_sum_references hdrafted, hsplit, sumsAt_of_last hback]
  have hcell : memory.get? address =
      some ((sumsAt address front ++ content.sum?.toList).foldl
        (LabelSum.fill (labelAddress (stations source))) content.base) := by
    rw [Draft.get?_link hlink (fun r hr => resolve_of_drafted hdrafted hlink hr), hbase,
      Option.map_some, ← hsums, List.foldl_map]
    rfl
  refine ⟨hcell, fun hfree => ?_⟩
  rw [hcell, sumsAt_eq_nil hfree, List.nil_append, fill_base]

theorem assemble_of_toOption {source : String} {memory : Memory}
    (h : (assemble source).toOption = some memory) : assemble source = .ok memory := by
  cases hresult : assemble source with
  | error e =>
    rw [hresult] at h
    cases h
  | ok made =>
    rw [hresult] at h
    exact congrArg Except.ok (Option.some.inj h)

/-- A jump to `M` waits in cell 0, and a constant replaces it. The address of `M` still lands in
the constant. -/
theorem refilled_cell_constant :
    assemble "NAM P\nJMP M\nM: HLT\nORG 0\nCON 4\nEND" = .ok (Memory.ofList [5, 1015808]) ∧
      (Memory.ofList [5, 1015808]).get? 0 =
        some (LabelSum.fill (labelAddress (stations "NAM P\nJMP M\nM: HLT\nORG 0\nCON 4\nEND")) 4
          ⟨["M"], 0⟩) := by
  have hassemble : assemble "NAM P\nJMP M\nM: HLT\nORG 0\nCON 4\nEND" =
      .ok (Memory.ofList [5, 1015808]) := assemble_of_toOption (by decide +kernel)
  have hsplit : emissions (stations "NAM P\nJMP M\nM: HLT\nORG 0\nCON 4\nEND") =
      [(0, .instruction ⟨"JMP", .jmp, 0⟩ false false (some (.sum ⟨["M"], 0⟩))),
        (1, .instruction ⟨"HLT", .hlt, 0⟩ false false none)] ++
      (0, .constant (.literal 4)) :: [] := by
    decide +kernel
  have hsums : sumsAt 0 [(0, .instruction ⟨"JMP", .jmp, 0⟩ false false (some (.sum ⟨["M"], 0⟩))),
      (1, .instruction ⟨"HLT", .hlt, 0⟩ false false none)] ++
        (Content.constant (.literal 4)).sum?.toList = [⟨["M"], 0⟩] := by
    decide +kernel
  have hbase : (Content.constant (.literal 4)).base = 4 := by decide
  have hcell := (refilled_cell hassemble hsplit (by simp)).1
  rw [hsums, hbase, List.foldl_cons, List.foldl_nil] at hcell
  exact ⟨hassemble, hcell⟩

/-- Two sources with the same labels, in which the same constant is the last content of cell 0,
make different words of it: in the first a jump has been there before. -/
theorem last_content_insufficient :
    assemble "NAM P\nJMP M\nM: HLT\nORG 0\nCON 0\nEND" = .ok (Memory.ofList [1, 1015808]) ∧
      assemble "NAM P\nNOP\nM: HLT\nORG 0\nCON 0\nEND" = .ok (Memory.ofList [0, 1015808]) ∧
      lastAt 0 (emissions (stations "NAM P\nJMP M\nM: HLT\nORG 0\nCON 0\nEND")) =
        lastAt 0 (emissions (stations "NAM P\nNOP\nM: HLT\nORG 0\nCON 0\nEND")) ∧
      labels (stations "NAM P\nJMP M\nM: HLT\nORG 0\nCON 0\nEND") =
        labels (stations "NAM P\nNOP\nM: HLT\nORG 0\nCON 0\nEND") ∧
      (Memory.ofList [1, 1015808]).get? 0 ≠ (Memory.ofList [0, 1015808]).get? 0 :=
  ⟨assemble_of_toOption (by decide +kernel), assemble_of_toOption (by decide +kernel),
    by decide +kernel, by decide +kernel, by decide⟩

end TrnComputer
