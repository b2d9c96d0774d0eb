/-!
# Escaped text — the body of a quoted literal

Between quotes, a backslash stands before every quote and every backslash of the text.
-/

namespace LookML.Text

/-- The characters that take a backslash in a quoted literal. -/
def needsEscape (c : Char) : Bool :=
  c == '\\' || c == '"'

/-- `text` with a backslash before each quote and each backslash. -/
def escapeChars : List Char → List Char
  | [] => []
  | c :: rest => if needsEscape c then '\\' :: c :: escapeChars rest else c :: escapeChars rest

/-- The body of the quoted literal that stands for `text`. -/
def escape (text : String) : String :=
  String.ofList (escapeChars text.toList)

end LookML.Text
