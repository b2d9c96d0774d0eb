import LookML.Json.Basic
import LookML.Json.Number
import LookML.Json.Text

/-!
# Reading JSON — strictly

Nothing but white space may follow the value, commas stand between members only, and arrays and
objects are nested at most `maxNesting` deep.  A repeated key keeps its first place and its last
value.
-/

namespace LookML.Json

/-- How deep arrays and objects may be nested. -/
def maxNesting : Nat := 127

/-- Whether `c` is white space in JSON. -/
def isSpace (c : Char) : Bool :=
  c == ' ' || c == '\n' || c == '\t' || c == '\r'

/-- Passes over white space. -/
def skip (text : List Char) : List Char :=
  text.dropWhile isSpace

/-- A reader takes its part off the front of a text, or refuses the text. -/
abbrev Reader (α : Type) : Type :=
  List Char → Option (α × List Char)

/-- Reads a value that holds no others. -/
def scalar : Reader Json
  | 'n' :: 'u' :: 'l' :: 'l' :: rest => some (.null, rest)
  | 't' :: 'r' :: 'u' :: 'e' :: rest => some (.boolean true, rest)
  | 'f' :: 'a' :: 'l' :: 's' :: 'e' :: rest => some (.boolean false, rest)
  | '"' :: rest => (string? rest).map fun (text, rest) => (.string text, rest)
  | text =>
    (number? text).map fun rest =>
      (.number (String.ofList (text.take (text.length - rest.length))), rest)

/-- Reads members with commas between them up to `close`; the first member comes next. -/
def members {α : Type} (close : Char) (member : Reader α) : Nat → Reader (List α)
  | 0, _ => none
  | fuel + 1, text =>
    match member (skip text) with
    | none => none
    | some (first, rest) =>
      match skip rest with
      | ',' :: rest =>
        (members close member fuel rest).map fun (more, rest) => (first :: more, rest)
      | c :: rest => if c = close then some ([first], rest) else none
      | [] => none

/-- Reads members up to `close`, perhaps none. -/
def group {α : Type} (close : Char) (member : Reader α) : Reader (List α) := fun text =>
  match skip text with
  | [] => none
  | c :: rest =>
    if c = close then some ([], rest) else members close member (text.length + 1) (c :: rest)

/-- Reads a key, a colon and a value. -/
def field (value : Reader Json) : Reader (String × Json)
  | '"' :: rest =>
    match string? rest with
    | none => none
    | some (key, rest) =>
      match skip rest with
      | ':' :: rest => (value (skip rest)).map fun (item, rest) => ((key, item), rest)
      | _ => none
  | _ => none

/-- Reads a value with at most so many arrays and objects inside each other. -/
def valueWithin : Nat → Reader Json
  | 0, text =>
    match text with
    | '[' :: _ | '{' :: _ => none
    | text => scalar text
  | depth + 1, text =>
    match text with
    | '[' :: rest =>
      (group ']' (valueWithin depth) rest).map fun (items, rest) => (.array items, rest)
    | '{' :: rest =>
      (group '}' (field (valueWithin depth)) rest).map fun (fields, rest) =>
        (.object (.ofList fields), rest)
    | text => scalar text

/-- The JSON value that a text stands for. -/
def read? (text : String) : Option Json :=
  match valueWithin maxNesting (skip text.toList) with
  | some (value, rest) => if (skip rest).isEmpty then some value else none
  | none => none

end LookML.Json
