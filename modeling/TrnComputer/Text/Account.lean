/-! # Short accounts of values

A value with named parts is shown as its title and, in braces, its parts. A part is shown as its
name, a colon and its text, and commas stand between parts.
-/

namespace TrnComputer.Text
set_option autoImplicit false

def account (title : String) (parts : List (String × String)) : String :=
  let shown := parts.map fun (name, part) => name ++ ": " ++ part
  title ++ " \x7b " ++ String.intercalate ", " shown ++ " \x7d"

def truth (b : Bool) : String := if b then "true" else "false"

end TrnComputer.Text
