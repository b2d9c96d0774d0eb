import LookML.Syntax.Tree
import LookML.Text.Quoted

/-!
# Outlines — a syntax tree for reading

An outline writes a tree of named parts with a part to a line, four spaces deeper than the part
around it, and a comma after each.
-/

namespace LookML

/-- A tree of named parts. -/
inductive Outline where
  /-- A text that stands for itself. -/
  | text (text : String)
  /-- A name with named parts. -/
  | record (name : String) (fields : List (String × Outline))
  /-- A name with parts in order. -/
  | variant (name : String) (parts : List Outline)
  /-- Parts in order. -/
  | row (parts : List Outline)

namespace Outline

/-- A line break and the indent of a level. -/
def newline (level : Nat) : String :=
  "\n" ++ String.ofList (List.replicate (4 * level) ' ')

/-- Members between brackets, each on a line of its own one level deeper. -/
def lines (level : Nat) (opening closing : String) (members : List String) : String :=
  if members.isEmpty then opening ++ closing
  else
    opening ++ String.join (members.map fun member => newline (level + 1) ++ member ++ ",") ++
      newline level ++ closing

mutual

/-- An outline at a level. -/
def render (level : Nat) : Outline → String
  | text t => t
  | record name fields => lines level (name ++ " \x7b") "\x7d" (renderFields (level + 1) fields)
  | variant name parts => lines level (name ++ "(") ")" (renderParts (level + 1) parts)
  | row parts => lines level "[" "]" (renderParts (level + 1) parts)

def renderFields (level : Nat) : List (String × Outline) → List String
  | [] => []
  | (name, part) :: fields => (name ++ ": " ++ part.render level) :: renderFields level fields

def renderParts (level : Nat) : List Outline → List String
  | [] => []
  | part :: parts => part.render level :: renderParts level parts

end

/-! ## The parts of a syntax tree -/

/-- A text in quotes. -/
def quoted (text : String) : Outline :=
  .text (Text.quoted text)

/-- A part that may be missing. -/
def optional (part? : Option Outline) : Outline :=
  match part? with
  | some part => .variant "Some" [part]
  | none => .text "None"

def flag (value : Bool) : Outline :=
  .text (if value then "true" else "false")

def mark : Mark → String
  | .colon => "Colon"
  | .comma => "Comma"
  | .braceOpen => "BraceOpen"
  | .braceClose => "BraceClose"
  | .bracketOpen => "BracketOpen"
  | .bracketClose => "BracketClose"

def form : Form → Outline
  | .word => .text "Literal"
  | .quoted raw? => .record "Quoted" [("raw", optional (raw?.map quoted))]
  | .expression left right =>
    .record "Expression" [("expr_prefix", quoted left), ("expr_suffix", quoted right)]
  | .mark m => .text (mark m)

def leaf (leaf : Leaf) : Outline :=
  .record "SyntaxToken"
    [("kind", form leaf.form), ("value", quoted leaf.value), ("prefix", quoted leaf.before),
      ("suffix", quoted leaf.after),
      ("line", optional (leaf.line?.map fun line => .text (toString line)))]

def pair (pair : Pair) : Outline :=
  .record "Pair"
    [("key", leaf pair.key), ("colon", leaf pair.colon), ("value", leaf pair.value)]

def entries : Entries → Outline
  | .values vs => .variant "Values" [.row (vs.map leaf)]
  | .pairs ps => .variant "Pairs" [.row (ps.map pair)]

def listing (l : Listing) : Outline :=
  .record "List"
    [("key", leaf l.key), ("colon", leaf l.colon), ("open", leaf l.opening),
      ("leading_comma", optional (l.leading?.map leaf)), ("items", entries l.entries),
      ("separators", .row (l.separators.map leaf)),
      ("trailing_comma", optional (l.trailing?.map leaf)), ("close", leaf l.closing)]

mutual

def block : Block → Outline
  | ⟨key, colon, name?, opening, inner, closing⟩ =>
    .record "Block"
      [("kind", leaf key), ("colon", leaf colon), ("name", optional (name?.map leaf)),
        ("open", leaf opening), ("container", container inner), ("close", leaf closing)]

def container : Container → Outline
  | ⟨content, topLevel⟩ =>
    .record "Container" [("items", .row (items content)), ("top_level", flag topLevel)]

def items : List Item → List Outline
  | [] => []
  | first :: rest => item first :: items rest

def item : Item → Outline
  | .pair p => .variant "Pair" [pair p]
  | .listing l => .variant "List" [listing l]
  | .block b => .variant "Block" [block b]

end

def document (d : Document) : Outline :=
  .record "Document"
    [("container", container d.container), ("prefix", quoted d.before),
      ("suffix", quoted d.after)]

end Outline

/-- A document for reading. -/
def Document.outline (document : Document) : String :=
  (Outline.document document).render 0

end LookML
