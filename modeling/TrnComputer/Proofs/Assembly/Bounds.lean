import TrnComputer.Proofs.Assembly.Overwriting
import TrnComputer.Proofs.Image.Files

/-! # Bounds of assembling

Whatever the source, assembling it stays inside the machine.

* `Memory.Confined`, `Draft.Confined`: a memory and a draft that fit the address space.
* `Orderly`: a reference is placed right before the word that waits for it.
* `kept_of_orderly`, `kept_of_lines`: a line keeps a draft confined, and at the end of a line every
  reference lies in the memory.
* `Reached`: the drafts that the lines of a source lead to.
* `confined_link`, `link_reaches`: linking keeps a memory confined and finds every cell.
* `assembly_confined`: what follows for the assembled memory and its image.
-/

namespace TrnComputer
set_option autoImplicit false

/-! ## Memories and drafts that fit -/

/-- A memory fits the address space and its cells hold words. -/
structure Memory.Confined (m : Memory) : Prop where
  size : m.size ≤ Word.addressSpace
  cell : ∀ cell ∈ m.cells, cell < 2 ^ 20

namespace Memory

variable {m : Memory}

theorem confined_grow (h : m.Confined) {size : Nat} (hsize : size ≤ Word.addressSpace) :
    (m.grow size).Confined where
  size := by
    rw [size_grow]
    exact Nat.max_le.mpr ⟨h.size, hsize⟩
  cell := by
    intro cell hcell
    obtain hold | hnew := Array.mem_append.mp hcell
    · exact h.cell cell hold
    · obtain ⟨-, rfl⟩ := Array.mem_replicate.mp hnew
      decide

theorem confined_store (h : m.Confined) {address value : Nat}
    (haddress : address < Word.addressSpace) (hvalue : value < 2 ^ 20) :
    (m.store address value).Confined where
  size := by
    rw [size_store]
    exact Nat.max_le.mpr ⟨h.size, haddress⟩
  cell := by
    intro cell hcell
    obtain hold | rfl := Array.mem_or_eq_of_mem_setIfInBounds hcell
    · exact (confined_grow h haddress).cell cell hold
    · exact hvalue

end Memory

/-- The cursor, the labels and the memory of a draft fit the address space. -/
structure Draft.Confined (d : Draft) : Prop where
  cursor : d.cursor ≤ Word.addressSpace
  label : ∀ label address, d.symbols.get? label = some address → address ≤ Word.addressSpace
  memory : d.memory.Confined

/-- Every reference waits for a cell of the memory. -/
def Draft.Linkable (d : Draft) : Prop := ∀ r ∈ d.references, r.address < d.memory.size

/-- Every reference waits for a cell of the memory, or for the next one if it is of the given
line. -/
def Draft.Pending (line : Nat) (d : Draft) : Prop :=
  ∀ r ∈ d.references, r.address < d.memory.size ∨ r.line = line ∧ r.address = d.cursor

/-! ## Placements -/

/-- Placements that add no reference and put only words into cells. -/
def Placement.Plain : Placement → Prop
  | .reference _ => False
  | .word value => value < 2 ^ 20
  | _ => True

/-- A reference stands right before its word. -/
inductive Orderly : List Placement → Prop
  | nil : Orderly []
  | plain {placement : Placement} {rest : List Placement} (h : placement.Plain)
      (hrest : Orderly rest) : Orderly (placement :: rest)
  | reference {sum : LabelSum} {value : Nat} {rest : List Placement} (h : value < 2 ^ 20)
      (hrest : Orderly rest) : Orderly (.reference sum :: .word value :: rest)

theorem orderly_append {front back : List Placement} (hfront : Orderly front)
    (hback : Orderly back) : Orderly (front ++ back) := by
  induction hfront with
  | nil => exact hback
  | plain h _ ih => exact .plain h ih
  | reference h _ ih => exact .reference h ih

theorem orderly_of_plain {placements : List Placement} (h : ∀ p ∈ placements, p.Plain) :
    Orderly placements := by
  induction placements with
  | nil => exact .nil
  | cons placement rest ih =>
    obtain ⟨hhead, hrest⟩ := List.forall_mem_cons.mp h
    exact .plain hhead (ih hrest)

theorem orderly_single {placement : Placement} (h : placement.Plain) : Orderly [placement] :=
  .plain h .nil

theorem orderly_reject {fault : LineFault} : Orderly [.reject fault] := orderly_single trivial

section
variable {s : Statement}

theorem orderly_instruction (m : Mnemonic) (arguments : Arguments) :
    Orderly (s.instructionPlacements m arguments) := by
  have hword (field : Nat) :
      Word.pack m.opcode.code arguments.indirect s.indexed field < 2 ^ 20 := Word.pack_lt _ _ _ _
  unfold Statement.instructionPlacements
  dsimp only
  split
  · split
    · split
      · exact orderly_single (hword _)
      · exact orderly_reject
    · exact .reference (hword 0) .nil
    · exact orderly_reject
    · exact orderly_reject
  · split
    · exact orderly_single (hword _)
    · exact orderly_reject

theorem orderly_constants (values : List Argument) :
    Orderly (values.flatMap Statement.constantPlacements) := by
  induction values with
  | nil => exact .nil
  | cons value rest ih =>
    rw [List.flatMap_cons]
    refine orderly_append ?_ ih
    cases value with
    | literal value => exact orderly_single (lowBits_lt 20 value)
    | sum sum => exact .reference (by decide) .nil

theorem orderly_literal {place : Int → Placement} (h : ∀ value, (place value).Plain) :
    Orderly [s.literalPlacement place] := by
  unfold Statement.literalPlacement
  split
  · exact orderly_reject
  · exact orderly_single (h _)
  · exact orderly_reject
  · exact orderly_reject

theorem orderly_directive (directive : Directive) : Orderly (s.directivePlacements directive) := by
  cases directive with
  | programName => exact orderly_single trivial
  | programEnd => exact orderly_single trivial
  | constants =>
    simp only [Statement.directivePlacements]
    split
    · exact orderly_reject
    · exact orderly_reject
    · exact orderly_constants _
  | reserve => exact orderly_literal fun _ => trivial
  | origin => exact orderly_literal fun _ => trivial
  | ignored => exact .nil

theorem orderly_body (s : Statement) : Orderly s.bodyPlacements := by
  unfold Statement.bodyPlacements
  split
  · split
    · exact orderly_reject
    · exact orderly_instruction _ _
  · split
    · exact orderly_reject
    · dsimp only
      split
      · exact orderly_reject
      · exact orderly_directive _

theorem orderly_statement (s : Statement) : Orderly s.placements := by
  unfold Statement.placements
  refine orderly_append (orderly_append ?_ (orderly_of_plain ?_)) (orderly_body s)
  · split
    · exact .nil
    · exact orderly_single trivial
  · intro p hp
    obtain ⟨name, -, rfl⟩ := List.mem_map.mp hp
    exact trivial

end

theorem orderly_line (text : List Char) : Orderly (placementsOfLine text) := by
  unfold placementsOfLine
  split
  · exact orderly_reject
  · exact .nil
  · exact orderly_statement _

/-! ## What a line keeps -/

section
variable {d d' next : Draft} {line : Nat}

theorem confined_initial : Draft.initial.Confined where
  cursor := Nat.zero_le _
  label := by
    intro label address h
    simp [Draft.initial, SymbolTable.get?, SymbolTable.empty] at h
  memory := ⟨Nat.zero_le _, fun cell h => by cases h; contradiction⟩

theorem linkable_initial : Draft.initial.Linkable := fun r hr => by cases hr; contradiction

/-- What a plain placement does to a draft that is confined. -/
theorem confined_perform (h : d.Confined) {placement : Placement} {record : Option Record}
    (hplain : placement.Plain) (hperform : d.perform line placement = .ok (next, record)) :
    next.Confined ∧ next.references = d.references ∧ d.memory.size ≤ next.memory.size := by
  cases placement with
  | within mnemonic =>
    rw [Draft.perform] at hperform
    split at hperform <;> cases hperform
    exact ⟨h, rfl, Nat.le_refl _⟩
  | label name =>
    rw [Draft.perform] at hperform
    split at hperform
    · cases hperform
    · next symbols hdefine =>
      cases hperform
      refine ⟨⟨h.cursor, fun label address hget => ?_, h.memory⟩, rfl, Nat.le_refl _⟩
      rw [(SymbolTable.get?_of_define hdefine).2 label] at hget
      split at hget
      · cases hget
        exact h.cursor
      · exact h.label label address hget
  | openProgram name =>
    rw [Draft.perform] at hperform
    split at hperform
    · cases hperform
    · split at hperform <;> cases hperform
      exact ⟨⟨h.cursor, h.label, h.memory⟩, rfl, Nat.le_refl _⟩
  | closeProgram =>
    cases hperform
    exact ⟨⟨h.cursor, h.label, h.memory⟩, rfl, Nat.le_refl _⟩
  | reference sum => exact hplain.elim
  | word value =>
    rw [Draft.perform] at hperform
    split at hperform
    · next hroom =>
      cases hperform
      refine ⟨⟨hroom, h.label, Memory.confined_store h.memory hroom hplain⟩, rfl, ?_⟩
      rw [Memory.size_store]
      exact Nat.le_max_left _ _
    · cases hperform
  | reserve count =>
    rw [Draft.perform] at hperform
    split at hperform
    · next hfits =>
      cases hperform
      have hroom : d.cursor + count.toNat ≤ Word.addressSpace := by omega
      refine ⟨⟨hroom, h.label, Memory.confined_grow h.memory hroom⟩, rfl, ?_⟩
      rw [Memory.size_grow]
      exact Nat.le_max_left _ _
    · cases hperform
  | origin address =>
    rw [Draft.perform] at hperform
    split at hperform
    · next hfits =>
      cases hperform
      have hroom : address.toNat ≤ Word.addressSpace := by omega
      exact ⟨⟨hroom, h.label, h.memory⟩, rfl, Nat.le_refl _⟩
    · cases hperform
  | reject fault => cases hperform

theorem pending_of_linkable (h : d.Linkable) : d.Pending line := fun r hr => .inl (h r hr)

theorem confined_reference (h : d.Confined) (r : Reference) :
    ({ d with references := d.references.push r } : Draft).Confined :=
  ⟨h.cursor, h.label, h.memory⟩

theorem pending_reference (h : d.Linkable) (sum : LabelSum) :
    ({ d with references := d.references.push ⟨sum, d.cursor, line⟩ } : Draft).Pending line := by
  intro r hr
  obtain hold | rfl := Array.mem_push.mp hr
  · exact .inl (h r hold)
  · exact .inr ⟨rfl, rfl⟩

/-- The word after a reference gives it its cell. -/
theorem linkable_word (h : d.Pending line) {value : Nat} {record : Option Record}
    (hperform : d.perform line (.word value) = .ok (next, record)) : next.Linkable := by
  rw [Draft.perform] at hperform
  split at hperform
  · cases hperform
    intro r hr
    change r.address < (d.memory.store d.cursor value).size
    rw [Memory.size_store]
    obtain hlt | ⟨-, heq⟩ := h r hr <;> omega
  · cases hperform

/-- Within a line a draft stays confined, and only a reference whose word comes next may wait for
a cell that is not there. At the end of the line there is none. -/
theorem kept_of_orderly {placements : List Placement} (horderly : Orderly placements)
    (h : d.Confined) (hlinkable : d.Linkable) {begun : List Placement}
    (hbegun : begun <+: placements) (hleads : d.Leads (begun.map (line, ·)) d') :
    d'.Confined ∧ d'.Pending line ∧ (begun = placements → d'.Linkable) := by
  induction horderly generalizing d begun with
  | nil =>
    obtain rfl := List.prefix_nil.mp hbegun
    obtain rfl := Draft.leads_nil.mp hleads
    exact ⟨h, pending_of_linkable hlinkable, fun _ => hlinkable⟩
  | plain hplain hrest ih =>
    obtain rfl | ⟨back, rfl, hback⟩ := List.prefix_cons_iff.mp hbegun
    · obtain rfl := Draft.leads_nil.mp hleads
      exact ⟨h, pending_of_linkable hlinkable, fun _ => hlinkable⟩
    · obtain ⟨next, record, hperform, hnext⟩ := Draft.leads_cons.mp hleads
      obtain ⟨hconfined, hreferences, hsize⟩ := confined_perform h hplain hperform
      have hstill : next.Linkable := by
        intro r hr
        rw [hreferences] at hr
        exact Nat.lt_of_lt_of_le (hlinkable r hr) hsize
      obtain ⟨hlast, hpending, hend⟩ := ih hconfined hstill hback hnext
      exact ⟨hlast, hpending, fun heq => hend (List.cons.inj heq).2⟩
  | @reference sum value rest hvalue hrest ih =>
    obtain rfl | ⟨back, rfl, hback⟩ := List.prefix_cons_iff.mp hbegun
    · obtain rfl := Draft.leads_nil.mp hleads
      exact ⟨h, pending_of_linkable hlinkable, fun _ => hlinkable⟩
    · have hword := Draft.leads_reference.mp hleads
      have hwaiting := confined_reference h ⟨sum, d.cursor, line⟩
      have hpending : Draft.Pending line
          { d with references := d.references.push ⟨sum, d.cursor, line⟩ } :=
        pending_reference hlinkable sum
      obtain rfl | ⟨others, rfl, hothers⟩ := List.prefix_cons_iff.mp hback
      · obtain rfl := Draft.leads_nil.mp hword
        exact ⟨hwaiting, hpending, fun heq => by cases heq⟩
      · obtain ⟨next, record, hperform, hnext⟩ := Draft.leads_cons.mp hword
        have hplain : (Placement.word value).Plain := hvalue
        have hconfined : next.Confined := (confined_perform hwaiting hplain hperform).1
        obtain ⟨hlast, hrests, hend⟩ :=
          ih hconfined (linkable_word hpending hperform) hothers hnext
        exact ⟨hlast, hrests, fun heq => hend (List.cons.inj (List.cons.inj heq).2).2⟩

/-! ## Lines -/

def numberedLines (source : String) : List (List Char × Nat) :=
  (Text.lines source.toList).zipIdx 1

def placementsAt (numbered : List Char × Nat) : List (Nat × Placement) :=
  (placementsOfLine numbered.1).map (numbered.2, ·)

/-- The draft at a point of the first pass: so many lines are completed, and the next one may have
begun. -/
def Reached (source : String) (completed : Nat) (d : Draft) : Prop :=
  ∃ begun, begun <+: ((numberedLines source)[completed]?).elim [] placementsAt ∧
    Draft.initial.Leads (((numberedLines source).take completed).flatMap placementsAt ++ begun) d

/-- Whole lines keep a draft confined, with all its references in the memory. -/
theorem kept_of_lines (numbered : List (List Char × Nat)) (h : d.Confined)
    (hlinkable : d.Linkable) (hleads : d.Leads (numbered.flatMap placementsAt) d') :
    d'.Confined ∧ d'.Linkable := by
  induction numbered generalizing d with
  | nil =>
    obtain rfl := Draft.leads_nil.mp hleads
    exact ⟨h, hlinkable⟩
  | cons first rest ih =>
    rw [List.flatMap_cons, Draft.leads_append] at hleads
    obtain ⟨next, hfirst, hrest⟩ := hleads
    obtain ⟨hconfined, -, hend⟩ :=
      kept_of_orderly (orderly_line first.1) h hlinkable List.prefix_rfl hfirst
    exact ih hconfined (hend rfl) hrest

variable {source : String} {completed : Nat}

theorem kept_of_reached (h : Reached source completed d) :
    d.Confined ∧ d.Pending (completed + 1) := by
  obtain ⟨begun, hbegun, hleads⟩ := h
  obtain ⟨next, hlines, hnext⟩ := Draft.leads_append.mp hleads
  obtain ⟨hconfined, hlinkable⟩ := kept_of_lines _ confined_initial linkable_initial hlines
  cases hline : (numberedLines source)[completed]? with
  | none =>
    rw [hline] at hbegun
    obtain rfl := List.prefix_nil.mp hbegun
    obtain rfl := Draft.leads_nil.mp hnext
    exact ⟨hconfined, pending_of_linkable hlinkable⟩
  | some numbered =>
    have hnumber : numbered.2 = completed + 1 := by
      rw [numberedLines, List.getElem?_zipIdx, Option.map_eq_some_iff] at hline
      obtain ⟨text, -, rfl⟩ := hline
      exact Nat.add_comm 1 completed
    rw [hline] at hbegun
    obtain ⟨placements, hplacements, rfl⟩ := List.prefix_map_iff.mp hbegun
    obtain ⟨hlast, hpending, -⟩ :=
      kept_of_orderly (orderly_line numbered.1) hconfined hlinkable hplacements hnext
    exact ⟨hlast, hnumber ▸ hpending⟩

theorem reached_end (h : Draft.initial.Leads (placementsOfSource source) d) :
    Reached source (numberedLines source).length d := by
  refine ⟨[], List.nil_prefix, ?_⟩
  rw [List.take_length, List.append_nil]
  exact h

/-- At the end of the first pass no reference is outside the memory. -/
theorem kept_of_source (h : Draft.initial.Leads (placementsOfSource source) d) :
    d.Confined ∧ d.Linkable :=
  kept_of_lines (numberedLines source) confined_initial linkable_initial h

end

/-! ## Linking -/

section
variable {symbols : SymbolTable} {memory memory' : Memory} {records : Array Record}
  {references : List Reference}

theorem patch_lt {cell : Nat} (h : cell < 2 ^ 20) (value : Int) :
    Reference.patch cell value < 2 ^ 20 := by
  have hfield : lowBits 13 value < 2 ^ 20 :=
    Nat.lt_of_lt_of_le (lowBits_lt 13 value) (by decide)
  unfold Reference.patch
  dsimp only
  split
  · exact Nat.mod_lt _ (by decide)
  · exact Nat.or_lt_two_pow h hfield

theorem confined_link (h : memory.Confined)
    (hlink : (Draft.link symbols memory records references).2 = .ok memory') :
    memory'.Confined := by
  induction references generalizing memory records with
  | nil =>
    cases hlink
    exact h
  | cons reference rest ih =>
    obtain ⟨value, cell, others, -, hcell, hrest⟩ := Draft.link_cons hlink
    have hlt : reference.address < memory.size := Memory.lt_size_of_get? hcell
    have hword : cell < 2 ^ 20 := h.cell cell (Array.mem_of_getElem? hcell)
    exact ih (Memory.confined_store h (Nat.lt_of_lt_of_le hlt h.size) (patch_lt hword value)) hrest

/-- Linking finds the cells of all references that lie in the memory. -/
theorem link_reaches (h : ∀ r ∈ references, r.address < memory.size) (address : Nat) :
    (Draft.link symbols memory records references).2 ≠ .error (.patchOutOfRange address) := by
  induction references generalizing memory records with
  | nil => simp [Draft.link]
  | cons reference rest ih =>
    obtain ⟨hhead, hrest⟩ := List.forall_mem_cons.mp h
    rw [Draft.link]
    split
    · simp
    · split
      · next hnone =>
        have hle : memory.size ≤ reference.address := Memory.get?_eq_none_iff.mp hnone
        omega
      · refine ih fun r hr => ?_
        rw [Memory.size_store]
        exact Nat.lt_of_lt_of_le (hrest r hr) (Nat.le_max_left _ _)

end

/-! ## Assembling -/

theorem line_of_performAll {d : Draft} {records : Array Record}
    {placements : List (Nat × Placement)} {e : AssemblyError}
    (h : (d.performAll records placements).2 = .error e) :
    ∃ number fault, e = .line number fault := by
  induction placements generalizing d records with
  | nil => cases h
  | cons first rest ih =>
    obtain ⟨line, placement⟩ := first
    rw [Draft.performAll] at h
    split at h
    · cases h
      exact ⟨_, _, rfl⟩
    · exact ih h
    · exact ih h

theorem finish_reaches {d : Draft} (h : ∀ r ∈ d.references.toList, r.address < d.memory.size)
    (records : Array Record) (address : Nat) :
    (Assembly.finish d records).2 ≠ .error (.patchOutOfRange address) := by
  have hreaches : (Draft.link d.symbols d.memory records d.references.toList).2 ≠
      .error (.patchOutOfRange address) := link_reaches h address
  unfold Assembly.finish
  cases hlinked : Draft.link d.symbols d.memory records d.references.toList with
  | mk others linked =>
    rw [hlinked] at hreaches
    cases linked with
    | error e => exact hreaches
    | ok memory => simp

section
variable {source : String}

/-- No reference is found to be outside the memory. -/
theorem assemble_reaches (source : String) (address : Nat) :
    assemble source ≠ .error (.patchOutOfRange address) := by
  unfold assemble Assembly.run
  cases hplaced : Draft.initial.performAll #[] (placementsOfSource source) with
  | mk records result =>
    cases result with
    | error e =>
      obtain ⟨number, fault, rfl⟩ := line_of_performAll (congrArg Prod.snd hplaced)
      simp
    | ok d =>
      have hleads : Draft.initial.Leads (placementsOfSource source) d := by
        rw [Draft.Leads, hplaced]
      have hlinkable : ∀ r ∈ d.references.toList, r.address < d.memory.size := fun r hr =>
        (kept_of_source hleads).2 r (Array.mem_toList_iff.mp hr)
      dsimp only
      split
      · simp
      · exact finish_reaches hlinkable records address

theorem confined_of_assemble {memory : Memory} (h : assemble source = .ok memory) :
    memory.Confined := by
  obtain ⟨d, records, hleads, hlink⟩ := assemble_eq_ok h
  exact confined_link (kept_of_source hleads).1.memory hlink

/-- An assembled memory is read back from its image. -/
theorem decode_assembled {memory : Memory} (h : assemble source = .ok memory) :
    Image.decode (Image.render memory) = .ok memory := by
  have hconfined : memory.Confined := confined_of_assemble h
  exact Image.decode_words (Nat.le_trans hconfined.size (by decide)) hconfined.cell

/-- The path of the image of a source that is assembled. -/
def imagePath (path : String) (output : Option String) : String :=
  output.getD (Path.withExtension path "mif")

/-- Running a source and running the image that has been saved from it start from the same
memory. -/
theorem loadProgram_saved {s s' : Surroundings} {path name : String} {output : Option String}
    (hread : (s.readFile path).2 = .ok source) (hsource : path.endsWith ".asm")
    (himage : ¬(imagePath path output).endsWith ".asm")
    (hplace : s.folder.place (imagePath path output) = .file name)
    (hsaved : (Conversion.assembleFile path output).play s = (s', 0)) :
    ∃ memory, assemble source = .ok memory ∧ ((loadProgram path).play s).2 = some memory ∧
      ((loadProgram (imagePath path output)).play s').2 = some memory := by
  obtain ⟨found, memory, hfound, hassemble, hfolder⟩ := assembleFile_saves hplace hsaved
  obtain rfl : found = source := Except.ok.inj (hfound.symm.trans hread)
  have hplaced : s'.folder.place (imagePath path output) = .file name := by
    rw [hfolder]
    exact Folder.place_put hplace name _
  have hback : (s'.readFile (imagePath path output)).2 = .ok (Image.render memory) := by
    rw [readFile_of_file hplaced, hfolder]
    exact Folder.read_put hplace _
  exact ⟨memory, hassemble, loadProgram_source hsource hread hassemble,
    loadProgram_image himage hback (decode_assembled hassemble)⟩

/-- Assembling stays inside the machine at every point of both passes, whatever comes of it: the
cursor, the labels and the memory fit the address space, and every reference of a completed line
waits for a cell of the memory. So linking never misses a cell, and what has been assembled is the
memory that its image gives back. -/
theorem assembly_confined (source : String) :
    (∀ completed d, Reached source completed d → d.Confined ∧
      ∀ r ∈ d.references, r.line ≤ completed → r.address < d.memory.size) ∧
    (∀ d, Draft.initial.Leads (placementsOfSource source) d →
      ∀ patched records memory, patched <+: d.references.toList →
        (Draft.link d.symbols d.memory records patched).2 = .ok memory →
        memory.Confined ∧ ∀ r ∈ d.references, r.address < memory.size) ∧
    (∀ address, assemble source ≠ .error (.patchOutOfRange address)) ∧
    (∀ memory, assemble source = .ok memory →
      memory.Confined ∧ Image.decode (Image.render memory) = .ok memory) ∧
    ∀ s s' path name output, (s.readFile path).2 = .ok source → path.endsWith ".asm" →
      ¬(imagePath path output).endsWith ".asm" →
      s.folder.place (imagePath path output) = .file name →
      (Conversion.assembleFile path output).play s = (s', 0) →
      ∃ memory, assemble source = .ok memory ∧ ((loadProgram path).play s).2 = some memory ∧
        ((loadProgram (imagePath path output)).play s').2 = some memory := by
  refine ⟨fun completed d h => ?_, fun d hleads patched records memory hpatched hlink => ?_,
    assemble_reaches source, fun memory h => ⟨confined_of_assemble h, decode_assembled h⟩, ?_⟩
  · obtain ⟨hconfined, hpending⟩ := kept_of_reached h
    refine ⟨hconfined, fun r hr hline => ?_⟩
    obtain hlt | ⟨hlast, -⟩ := hpending r hr
    · exact hlt
    · omega
  · obtain ⟨hconfined, hlinkable⟩ := kept_of_source hleads
    refine ⟨confined_link hconfined.memory hlink, fun r hr => ?_⟩
    rw [Draft.size_link hlink]
    exact hlinkable r hr
  · intro s s' path name output
    exact loadProgram_saved

/-- A jump to the next line, assembled, saved and loaded. -/
theorem assembly_confined_jump : ∃ d records s',
    Reached "NAM P\nJMP M\nM: HLT\nEND" 4 d ∧ d.Confined ∧
    (⟨⟨["M"], 0⟩, 0, 2⟩ ∈ d.references ∧ 0 < d.memory.size) ∧
    Draft.initial.Leads (placementsOfSource "NAM P\nJMP M\nM: HLT\nEND") d ∧
    (Draft.link d.symbols d.memory records d.references.toList).2 =
      .ok (Memory.ofList [622593, 1015808]) ∧
    (Memory.ofList [622593, 1015808]).Confined ∧
    assemble "NAM P\nJMP M\nM: HLT\nEND" = .ok (Memory.ofList [622593, 1015808]) ∧
    Image.decode (Image.render (Memory.ofList [622593, 1015808])) =
      .ok (Memory.ofList [622593, 1015808]) ∧
    (Conversion.assembleFile "p.asm" none).play
      { folder := Folder.put {} "p.asm" "NAM P\nJMP M\nM: HLT\nEND" } = (s', 0) ∧
    ((loadProgram "p.mif").play s').2 = some (Memory.ofList [622593, 1015808]) := by
  have hassemble : assemble "NAM P\nJMP M\nM: HLT\nEND" =
      .ok (Memory.ofList [622593, 1015808]) :=
    assemble_of_toOption (by decide +kernel)
  obtain ⟨d, records, hleads, hlink⟩ := assemble_eq_ok hassemble
  have hreferences : d.references.toList = [⟨⟨["M"], 0⟩, 0, 2⟩] := by
    have hplaced : (Draft.initial.performAll #[]
        (placementsOfSource "NAM P\nJMP M\nM: HLT\nEND")).2.toOption.map
          (·.references.toList) = some [⟨⟨["M"], 0⟩, 0, 2⟩] := by
      decide +kernel
    rw [hleads] at hplaced
    exact Option.some.inj hplaced
  have hmem : ⟨⟨["M"], 0⟩, 0, 2⟩ ∈ d.references := by
    rw [← Array.mem_toList_iff, hreferences]
    exact List.mem_singleton_self _
  have hreached : Reached "NAM P\nJMP M\nM: HLT\nEND" 4 d := reached_end hleads
  have hsource : Folder.place {} "p.asm" = .file "p.asm" := by decide +kernel
  have htarget : Folder.place {} "p.mif" = .file "p.mif" := by decide +kernel
  have hread : (Surroundings.readFile
      { folder := Folder.put {} "p.asm" "NAM P\nJMP M\nM: HLT\nEND" } "p.asm").2 =
        .ok "NAM P\nJMP M\nM: HLT\nEND" := by
    rw [readFile_of_file (Folder.place_put hsource _ _)]
    exact Folder.read_put hsource "NAM P\nJMP M\nM: HLT\nEND"
  have hstatus : ((Conversion.assembleFile "p.asm" none).play
      { folder := Folder.put {} "p.asm" "NAM P\nJMP M\nM: HLT\nEND" }).2 = 0 := by
    decide +kernel
  obtain ⟨s', hsaved⟩ : ∃ s', (Conversion.assembleFile "p.asm" none).play
      { folder := Folder.put {} "p.asm" "NAM P\nJMP M\nM: HLT\nEND" } = (s', 0) :=
    ⟨_, by rw [← hstatus]⟩
  have himage : imagePath "p.asm" none = "p.mif" := by decide +kernel
  obtain ⟨hpoints, hlinking, -, hmade, hloads⟩ :=
    assembly_confined "NAM P\nJMP M\nM: HLT\nEND"
  obtain ⟨hdraft, hinside⟩ := hpoints 4 d hreached
  obtain ⟨hmemory, -⟩ := hlinking d hleads _ records _ List.prefix_rfl hlink
  obtain ⟨memory, hsame, -, hloaded⟩ := hloads _ s' "p.asm" "p.mif" none hread
    (by decide +kernel) (by rw [himage]; decide +kernel)
    (by rw [himage]; exact Folder.place_put htarget _ _) hsaved
  obtain rfl : _ = memory := Except.ok.inj (hassemble.symm.trans hsame)
  rw [himage] at hloaded
  exact ⟨d, records, s', hreached, hdraft, ⟨hmem, hinside _ hmem (by decide)⟩, hleads, hlink,
    hmemory, hassemble, (hmade _ hassemble).2, hsaved, hloaded⟩

end

end TrnComputer
