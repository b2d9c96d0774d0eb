import LookML.Json.Basic
import LookML.Json.Text

/-!
# Writing JSON — without any space, or a member to a line
-/

namespace LookML.Json

/-- Parts with a text between them. -/
def joinWith (between : String) : List String → String
  | [] => ""
  | [part] => part
  | part :: parts => part ++ between ++ joinWith between parts

/-! ## On one line -/

mutual

/-- A value without any space. -/
def compact : Json → String
  | null => "null"
  | boolean value => if value then "true" else "false"
  | number text => text
  | string text => quote text
  | array items => "[" ++ joinWith "," (compactItems items) ++ "]"
  | object ⟨fields⟩ => "\x7b" ++ joinWith "," (compactFields fields) ++ "\x7d"

def compactItems : List Json → List String
  | [] => []
  | item :: items => item.compact :: compactItems items

def compactFields : List (String × Json) → List String
  | [] => []
  | (key, value) :: fields => (quote key ++ ":" ++ value.compact) :: compactFields fields

end

/-! ## A member to a line -/

/-- A line break and the indent of a level, two spaces each. -/
def newline (level : Nat) : String :=
  "\n" ++ String.ofList (List.replicate (2 * level) ' ')

/-- Members between brackets, each on a line of its own one level deeper. -/
def lines (level : Nat) (opening closing : String) (members : List String) : String :=
  if members.isEmpty then opening ++ closing
  else
    opening ++ newline (level + 1) ++ joinWith ("," ++ newline (level + 1)) members ++
      newline level ++ closing

mutual

/-- A value with a member to a line. -/
def pretty (level : Nat) : Json → String
  | null => "null"
  | boolean value => if value then "true" else "false"
  | number text => text
  | string text => quote text
  | array items => lines level "[" "]" (prettyItems (level + 1) items)
  | object ⟨fields⟩ => lines level "\x7b" "\x7d" (prettyFields (level + 1) fields)

def prettyItems (level : Nat) : List Json → List String
  | [] => []
  | item :: items => item.pretty level :: prettyItems level items

def prettyFields (level : Nat) : List (String × Json) → List String
  | [] => []
  | (key, value) :: fields => (quote key ++ ": " ++ value.pretty level) :: prettyFields level fields

end

end LookML.Json
