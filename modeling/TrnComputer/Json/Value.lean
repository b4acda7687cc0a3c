import TrnComputer.Json.Token

/-! # JSON values

* `JsonValue`: a value. The fields of an object keep their order and may repeat.
* `JsonValue.read?`: the value that a text holds, with nothing else around it.

Reading takes one token after the other. What is open is kept in frames, the innermost first.
-/

namespace TrnComputer
set_option autoImplicit false

/-- A value. A number or a string may be known by its kind alone. -/
inductive JsonValue
  | null
  | truth (value : Bool)
  | number (digits? : Option Nat)
  | string (text? : Option String)
  | list (items : List JsonValue)
  | object (fields : List (Option String × JsonValue))
  deriving Repr

namespace JsonValue

/-- A list or an object that is open, with what it has so far, the last first. -/
inductive Frame
  | list (items : List JsonValue)
  | object (fields : List (Option String × JsonValue)) (key : Option String)

/-- What must come next. -/
inductive Expectation
  | value (frames : List Frame)
  /-- The first item of a list, or its end. -/
  | firstItem (frames : List Frame)
  /-- The first key of an object, or its end. -/
  | firstKey (frames : List Frame)
  | key (fields : List (Option String × JsonValue)) (frames : List Frame)
  | colon (fields : List (Option String × JsonValue)) (key : Option String) (frames : List Frame)
  /-- A comma or the end of the innermost list or object. -/
  | comma (inner : Frame) (frames : List Frame)
  /-- The end of the text. -/
  | nothing (value : JsonValue)

/-- What comes after a value. -/
def afterValue (v : JsonValue) : List Frame → Expectation
  | [] => .nothing v
  | .list items :: frames => .comma (.list (v :: items)) frames
  | .object fields key :: frames => .comma (.object ((key, v) :: fields) key) frames

def Frame.close : Frame → JsonValue
  | list items => .list items.reverse
  | object fields _ => .object fields.reverse

def beginValue (frames : List Frame) : JsonToken → Option Expectation
  | .null => some (afterValue null frames)
  | .truth b => some (afterValue (truth b) frames)
  | .number n => some (afterValue (number n) frames)
  | .string s => some (afterValue (string s) frames)
  | .openList => some (.firstItem frames)
  | .openObject => some (.firstKey frames)
  | _ => none

def take (token : JsonToken) : Expectation → Option Expectation
  | .value frames => beginValue frames token
  | .firstItem frames =>
    if token = .closeList then some (afterValue (list []) frames)
    else beginValue (.list [] :: frames) token
  | .firstKey frames =>
    match token with
    | .closeObject => some (afterValue (object []) frames)
    | .string key => some (.colon [] key frames)
    | _ => none
  | .key fields frames =>
    match token with
    | .string key => some (.colon fields key frames)
    | _ => none
  | .colon fields key frames =>
    if token = .colon then some (.value (.object fields key :: frames)) else none
  | .comma inner frames =>
    match token, inner with
    | .comma, .list items => some (.value (.list items :: frames))
    | .comma, .object fields _ => some (.key fields frames)
    | .closeList, .list items => some (afterValue (Frame.list items).close frames)
    | .closeObject, .object fields key => some (afterValue (Frame.object fields key).close frames)
    | _, _ => none
  | .nothing _ => none

def takeAll (expected : Expectation) : List JsonToken → Option Expectation
  | [] => some expected
  | token :: rest =>
    match take token expected with
    | none => none
    | some expected => takeAll expected rest

def read? (text : String) : Option JsonValue :=
  match JsonToken.readAll? text.toList with
  | none => none
  | some tokens =>
    match takeAll (.value []) tokens with
    | some (.nothing v) => some v
    | _ => none

/-- The text of an object with scalar fields, each on a line of its own and indented by two. At
least one field is given, with its value already written. -/
def renderFields (fields : List (String × String)) : String :=
  let written := fields.map fun (name, value) => "  \"" ++ name ++ "\": " ++ value
  "\x7b\n" ++ String.intercalate ",\n" written ++ "\n\x7d"

end JsonValue

end TrnComputer
