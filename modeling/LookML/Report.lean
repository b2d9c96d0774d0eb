import LookML.ParseError
import LookML.Text.Blank

/-!
# Reports — a parse error shown in its source

A report names the place of an error, shows the row of the source with that place underlined, and
labels it; some errors come with a help.  The place is a whole line of the source, without its
line break.
-/

namespace LookML

/-! ## What a report says -/

namespace ParseError

/-- The heading of a report. -/
def title : ParseError → String
  | lexical (.unterminatedString _) => "unterminated string"
  | lexical (.unterminatedExpression _) => "unterminated expression block"
  | grammatical _ => "syntax error"
  | duplicate _ => "duplicate key"

/-- What is said of the place. -/
def label : ParseError → String
  | lexical (.unterminatedString _) => "string starts here"
  | lexical (.unterminatedExpression _) => "expression starts here"
  | grammatical e => e.fault.message
  | duplicate e => "`" ++ e.key ++ "` is repeated here"

/-- What may help. -/
def help? : ParseError → Option String
  | lexical (.unterminatedString _) => some "add a closing '\"'"
  | lexical (.unterminatedExpression _) => some "end the expression with ';;'"
  | grammatical _ => none
  | duplicate _ =>
    some "only pluralizable keys such as `dimension` may repeat inside a block"

end ParseError

namespace Report

/-! ## Places -/

/-- A range of characters, the last not included. -/
structure Span where
  start : Nat
  stop : Nat
deriving DecidableEq, Repr

/-- The characters of `text` up to and including each line feed; what is left after the last one
is a piece of its own unless it is empty. -/
def pieces : List Char → List (List Char)
  | [] => []
  | c :: rest =>
    if c = '\n' then [c] :: pieces rest
    else
      match pieces rest with
      | [] => [[c]]
      | first :: more => (c :: first) :: more

/-- Whether `c` belongs to a line break. -/
def isBreak (c : Char) : Bool :=
  c == '\n' || c == '\r'

/-- The place of the piece with a number, counted from 1, of pieces that start at `start`. -/
def placeOf (start : Nat) : List (List Char) → Nat → Span
  | piece :: _, 1 => ⟨start, start + (Text.dropTrailing isBreak piece).length⟩
  | piece :: rest, line => placeOf (start + piece.length) rest (line - 1)
  | [], _ => ⟨start, start⟩

/-- The place of a line of a source; a line past its end is the empty place there. -/
def lineSpan (source : String) (line : Nat) : Span :=
  placeOf 0 (pieces source.toList) line

/-! ## Rows -/

/-- A row of a source: its number from 1, where it starts, and its text without the white space
and the line break at its end. -/
structure Row where
  number : Nat
  start : Nat
  text : List Char
deriving DecidableEq, Repr

/-- The last of `rows` that starts at or before a place, `row` if none does. -/
def rowAt (row : Row) (start : Nat) : List (List Char) → Nat → Row
  | [], _ => row
  | piece :: rest, place =>
    if start ≤ place then
      rowAt ⟨row.number + 1, start, Text.dropTrailing Text.isBlank piece⟩ (start + piece.length)
        rest place
    else row

/-- The row of a source that a place is in. -/
def rowOf (source : String) (place : Nat) : Row :=
  match pieces source.toList with
  | [] => ⟨1, 0, []⟩
  | first :: rest =>
    rowAt ⟨1, 0, Text.dropTrailing Text.isBlank first⟩ first.length rest place

/-- How wide the character at an index of a row is shown: a tab reaches to the next multiple of
four, by its index. -/
def width (index : Nat) (c : Char) : Nat :=
  if c = '\t' then 4 - index % 4 else 1

/-- A row as it is shown, its first character at an index: every blank is shown as spaces. -/
def shown (index : Nat) : List Char → List Char
  | [] => []
  | c :: rest =>
    (if Text.isBlank c then List.replicate (width index c) ' ' else [c]) ++ shown (index + 1) rest

/-- The width of the first `count` characters of a row that starts at an index.  What is past the
end of the row counts one each. -/
def column (index count : Nat) : List Char → Nat
  | [] => count
  | c :: rest =>
    match count with
    | 0 => 0
    | count + 1 => width index c + column (index + 1) count rest

/-! ## Drawing -/

/-- So many times the same character. -/
def fill (count : Nat) (c : Char) : String :=
  String.ofList (List.replicate count c)

/-- The underline and the arrow to the label. -/
structure Marker where
  underline : String
  arrow : String
deriving DecidableEq, Repr

def markerOf (row : Row) (place : Span) : Marker :=
  if place.start < place.stop then
    let middle := column 0 ((place.stop - place.start) / 2) row.text
    let stop := column 0 (place.stop - row.start) row.text
    { underline := fill middle '─' ++ "┬" ++ fill (stop - middle - 1) '─' ++ "  "
      arrow := fill middle ' ' ++ "╰" ++ fill (stop - middle + 1) '─' ++ " " }
  else
    let spot := column 0 (place.start - row.start) row.text
    { underline := fill spot ' ' ++ "│ "
      arrow := fill spot ' ' ++ "╰─ " }

/-- A report, line by line, on an error at a place of a source. -/
def draw (title label : String) (help? : Option String) (name source : String) (place : Span) :
    List String :=
  let row := rowOf source place.start
  let number := toString row.number
  let margin := fill (number.length + 2) ' '
  let marker := markerOf row place
  let position := name ++ ":" ++ number ++ ":" ++ toString (place.start - row.start + 1)
  ["Error: " ++ title,
    margin ++ "╭─[ " ++ position ++ " ]",
    margin ++ "│",
    " " ++ number ++ " │ " ++ String.ofList (shown 0 row.text),
    margin ++ "│ " ++ marker.underline,
    margin ++ "│ " ++ marker.arrow ++ label] ++
  (match help? with
    | some help => [margin ++ "│ ", margin ++ "│ Help: " ++ help]
    | none => []) ++
  [fill (number.length + 2) '─' ++ "╯"]

end Report

/-- The report on an error in a source with a file name. -/
def ParseError.report (e : ParseError) (name source : String) : String :=
  let place := Report.lineSpan source (e.line?.getD 1)
  String.join
    ((Report.draw e.title e.label e.help? name source place).map fun line => line ++ "\n")

end LookML
