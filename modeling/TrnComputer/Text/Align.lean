/-! # Aligning texts

A text that is shorter than a width is filled up; a longer one stays as it is. Widths count
characters.
-/

namespace TrnComputer.Text
set_option autoImplicit false

def alignRight (fill : Char) (width : Nat) (s : List Char) : List Char :=
  List.replicate (width - s.length) fill ++ s

def alignLeft (fill : Char) (width : Nat) (s : List Char) : List Char :=
  s ++ List.replicate (width - s.length) fill

theorem length_alignRight (fill : Char) (width : Nat) (s : List Char) :
    (alignRight fill width s).length = max width s.length := by
  simp [alignRight]; omega

theorem length_alignLeft (fill : Char) (width : Nat) (s : List Char) :
    (alignLeft fill width s).length = max width s.length := by
  simp [alignLeft]; omega

end TrnComputer.Text
