import LookML.Text.Blank
import LookML.Text.Escape
import LookML.Token.Basic

/-!
# Leaves — the written parts of a syntax tree

A leaf is a value with the trivia around it.  Its form says how the value is written: as a word,
in quotes, as an expression, or as a fixed mark.  Printing every leaf of a parsed tree in order
gives back the source.
-/

namespace LookML

/-- How the value of a leaf is written. -/
inductive Form where
  /-- As it is. -/
  | word
  /-- In quotes; without a raw text, the value is escaped. -/
  | quoted (raw? : Option String)
  /-- Between its blank margins, with `;;` after it. -/
  | expression (left right : String)
  | mark (mark : Mark)
deriving DecidableEq, Repr

/-- The fixed text of a form, if it has one. -/
def Form.symbol? : Form → Option String
  | .mark m => some m.symbol
  | _ => none

/-- A value with the trivia around it. -/
structure Leaf where
  form : Form
  /-- What the leaf means: the word, the unescaped text, or the trimmed expression. -/
  value : String
  /-- The trivia written before the value. -/
  before : String := ""
  /-- The trivia written after the value. -/
  after : String := ""
  /-- The line of the source that the value starts on, if it was read from one. -/
  line? : Option Nat := none
deriving DecidableEq, Repr

namespace Leaf

/-! ## Making leaves -/

/-- An unquoted literal. -/
def word (value : String) : Leaf :=
  { form := .word, value }

/-- A quoted literal that is escaped when it is written. -/
def quoted (value : String) : Leaf :=
  { form := .quoted none, value }

/-- A quoted literal with its text as the source has it. -/
def quotedRaw (value raw : String) : Leaf :=
  { form := .quoted (some raw), value }

/-- An expression with one space before `;;`. -/
def expression (value : String) : Leaf :=
  { form := .expression "" " ", value }

/-- An expression as the source has it: its blank margins are kept apart from the value. -/
def expressionOf (text : String) : Leaf :=
  let chars := text.toList
  let core := chars.dropWhile Text.isBlank
  { form := .expression (String.ofList (chars.takeWhile Text.isBlank))
      (String.ofList (Text.takeTrailing Text.isBlank core))
    value := String.ofList (Text.dropTrailing Text.isBlank core) }

def mark (m : Mark) : Leaf :=
  { form := .mark m, value := m.symbol }

/-- A colon with a space after it. -/
def colon : Leaf :=
  { mark .colon with after := " " }

def isExpression (leaf : Leaf) : Bool :=
  leaf.form matches .expression ..

def isQuoted (leaf : Leaf) : Bool :=
  leaf.form matches .quoted _

/-! ## Writing leaves -/

/-- The value as it is written, without trivia. -/
def written (leaf : Leaf) : String :=
  match leaf.form with
  | .word => leaf.value
  | .quoted (some raw) => "\"" ++ raw ++ "\""
  | .quoted none => "\"" ++ Text.escape leaf.value ++ "\""
  | .expression left right => left ++ leaf.value ++ right ++ ";;"
  | .mark m => m.symbol

/-- The value as it is written, with its trivia. -/
def print (leaf : Leaf) : String :=
  leaf.before ++ leaf.written ++ leaf.after

/-- An expression is written as the source has it. -/
theorem written_expressionOf (text : String) : (expressionOf text).written = text ++ ";;" := by
  apply String.toList_inj.mp
  simp only [written, expressionOf, String.toList_append, String.toList_ofList]
  rw [List.append_assoc (List.takeWhile _ _), Text.dropTrailing_append_takeTrailing,
    List.takeWhile_append_dropWhile]

end Leaf

end LookML
