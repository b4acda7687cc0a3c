import TrnComputer.CommandLine.Conversion
import TrnComputer.CommandLine.Program
import TrnComputer.Proofs.Image.RoundTrip

/-! # Programs in files

* `Place.walk_file`: a path to a file leads to it also when files have been added.
* `Folder.read_put`: a file that has been put in holds its text.
* `assembleFile_saves`: assembling a file puts the image of its memory into the folder.
* `loadProgram_source`, `loadProgram_image`: the memory of a program in a file.
-/

namespace TrnComputer
set_option autoImplicit false

/-! ## Folders -/

namespace Place

theorem beyond_ne_file {fault : FileFault} {rest : List (List Char)} {name : String} :
    beyond fault rest ≠ .file name := by
  unfold beyond
  split <;> simp

theorem entry_working (has : String → Bool) (name : String) :
    Location.working.entry has name = .file ∨ Location.working.entry has name = .free := by
  rw [Location.entry]
  split
  · exact .inl rfl
  · exact .inr rfl

/-- A walk that ends at a file ends there whatever files the working folder holds. -/
theorem walk_file {has : String → Bool} (has' : String → Bool) {name : String}
    {here : Location} {parts : List (List Char)} (h : walk has here parts = .file name) :
    walk has' here parts = .file name := by
  induction parts generalizing here with
  | nil => cases h
  | cons part rest ih =>
    rw [walk] at h ⊢
    split at h
    · next hsame =>
      rw [if_pos hsame]
      exact ih h
    · next hsame =>
      rw [if_neg hsame]
      split at h
      · next houter =>
        rw [if_pos houter]
        exact ih h
      · next houter =>
        rw [if_neg houter]
        dsimp only at h ⊢
        split at h
        · exact absurd h beyond_ne_file
        · next hshort =>
          rw [if_neg hshort]
          cases here with
          | working =>
            -- A name is the last part whether or not there is a file of that name.
            have hlast : rest.isEmpty ∧ Place.file (String.ofList part) = .file name := by
              obtain hentry | hentry := entry_working has (String.ofList part)
              all_goals
                rw [hentry] at h
                dsimp only at h
                split at h
                · next hempty => exact ⟨hempty, h⟩
                · exact absurd h beyond_ne_file
            obtain hentry | hentry := entry_working has' (String.ofList part)
            all_goals
              rw [hentry]
              dsimp only
              rw [if_pos hlast.1]
              exact hlast.2
          | system address =>
            simp only [Location.entry] at h ⊢
            split at h
            · exact ih h
            · exact h
            · exact h
            · exact h

end Place

namespace Folder

variable {folder : Folder} {path name : String}

theorem lookup_replace (bytes : ByteArray) (files : List (String × ByteArray)) :
    (files.map fun file => if file.1 == name then (name, bytes) else file).lookup name =
      (files.lookup name).map fun _ => bytes := by
  induction files with
  | nil => rfl
  | cons file rest ih =>
    obtain ⟨other, old⟩ := file
    rw [List.map_cons, List.lookup_cons]
    by_cases hsame : other = name
    · rw [hsame]
      simp
    · have hfront : (other == name) = false := beq_eq_false_iff_ne.mpr hsame
      have hback : (name == other) = false := beq_eq_false_iff_ne.mpr (Ne.symm hsame)
      simp only [hfront, hback, List.lookup_cons, Bool.false_eq_true, if_false]
      exact ih

theorem bytes?_put (folder : Folder) (name text : String) :
    (folder.put name text).bytes? name = some text.toUTF8 := by
  unfold put
  split
  · next hold =>
    obtain ⟨old, hlookup⟩ := Option.isSome_iff_exists.mp hold
    rw [bytes?] at hlookup ⊢
    rw [lookup_replace, hlookup, Option.map_some]
  · next hnew =>
    have hlookup : folder.files.lookup name = none := by
      rwa [contains, bytes?, Option.not_isSome_iff_eq_none] at hnew
    rw [bytes?, List.lookup_append, hlookup]
    simp

theorem textOf_put (folder : Folder) (name text : String) :
    (folder.put name text).textOf name = .ok text := by
  have hdecoded : String.fromUTF8? text.toUTF8 = some text := by
    rw [String.fromUTF8?, String.toUTF8_eq_toByteArray, dif_pos text.isValidUTF8]
    rfl
  simp only [textOf, bytes?_put, hdecoded]

/-- A path to a file leads there also when the file has been put in. -/
theorem place_put (h : folder.place path = .file name) (other text : String) :
    (folder.put other text).place path = .file name := by
  unfold place Place.ofPath at h ⊢
  split at h
  · cases h
  · next hfilled =>
    rw [if_neg hfilled]
    split at h
    · cases h
    · next hshort =>
      rw [if_neg hshort]
      exact Place.walk_file _ h

theorem read_put (h : folder.place path = .file name) (text : String) :
    (folder.put name text).read path = .ok text := by
  rw [read, place_put h]
  exact textOf_put folder name text

end Folder

/-! ## Commands -/

section
variable {s s' : Surroundings} {path name source : String} {memory : Memory}

theorem readFile_of_file (h : s.folder.place path = .file name) :
    s.readFile path = (s, s.folder.read path) := by
  unfold Surroundings.readFile
  rw [h]

theorem writeFile_of_file (h : s.folder.place path = .file name) (text : String) :
    s.writeFile path text = ({ s with folder := s.folder.put name text }, .ok ()) := by
  unfold Surroundings.writeFile
  rw [h, Folder.write, h]

/-- What is written before does not change what is read. -/
theorem readFile_print (s : Surroundings) (text path : String) :
    (({ s with output := s.output ++ text } : Surroundings).readFile path).2 =
      (s.readFile path).2 := by
  unfold Surroundings.readFile
  dsimp only
  split <;> rfl

theorem folder_readFile (s : Surroundings) (path : String) :
    (s.readFile path).1.folder = s.folder := by
  unfold Surroundings.readFile
  split <;> rfl

/-- The memory of a program in source text. -/
theorem loadProgram_source (hsuffix : path.endsWith ".asm")
    (hread : (s.readFile path).2 = .ok source) (hassemble : assemble source = .ok memory) :
    ((loadProgram path).play s).2 = some memory := by
  unfold loadProgram
  rw [Script.play]
  simp only [hread, hsuffix, hassemble, if_pos, Script.play]

/-- The memory of a program in an image. -/
theorem loadProgram_image (hsuffix : ¬path.endsWith ".asm") {text : String}
    (hread : (s.readFile path).2 = .ok text) (hdecode : Image.decode text = .ok memory) :
    ((loadProgram path).play s).2 = some memory := by
  unfold loadProgram
  rw [Script.play]
  simp only [hread, hsuffix, Image.ofFile, hdecode]
  rfl

/-- Assembling a file with success puts the image of its memory into the folder. -/
theorem assembleFile_saves {output : Option String}
    (htarget : s.folder.place (output.getD (Path.withExtension path "mif")) = .file name)
    (h : (Conversion.assembleFile path output).play s = (s', 0)) :
    ∃ source memory, (s.readFile path).2 = .ok source ∧ assemble source = .ok memory ∧
      s'.folder = s.folder.put name (Image.render memory) := by
  simp only [Conversion.assembleFile, Script.printLine, Bind.bind, Script.bind, Script.play,
    readFile_print] at h
  split at h
  · cases h
  · next source hread =>
    split at h
    · cases h
    · next memory hassemble =>
      rw [Script.play, Script.play, writeFile_of_file (by rw [folder_readFile]; exact htarget)] at h
      cases h
      exact ⟨source, memory, hread, hassemble, by rw [folder_readFile]⟩

end

end TrnComputer
