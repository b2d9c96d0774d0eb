import LookML.Token.Scan

/-!
# Cursor — stepping through a source by hand

A cursor stands somewhere in a source.  It can be moved by characters, which leaves its line as it
is, or by whole pieces, which counts the line feeds they hold.  Where a piece is unfinished the
cursor ends up at the end of the source.
-/

namespace LookML.Token

/-- A place in a source: the text from there on, its line, and its distance from the start in
bytes of UTF-8. -/
structure Cursor where
  rest : List Char
  line : Nat := 1
  position : Nat := 0
deriving DecidableEq, Repr

namespace Cursor

def ofSource (source : String) : Cursor :=
  { rest := source.toList }

def atEnd (cursor : Cursor) : Bool :=
  cursor.rest.isEmpty

/-- The number of bytes of UTF-8 in `text`. -/
def byteLength (text : List Char) : Nat :=
  (String.ofList text).utf8ByteSize

/-- Moves past `taken`, with `left` to come; the line stays. -/
def past (cursor : Cursor) (taken left : List Char) : Cursor :=
  { cursor with rest := left, position := cursor.position + byteLength taken }

/-- Moves past `taken`, with `left` to come, and counts the line feeds. -/
def pastLines (cursor : Cursor) (taken left : List Char) : Cursor :=
  { cursor.past taken left with line := cursor.line + lineFeeds taken }

/-- Moves to the end of the source, and counts the line feeds on the way. -/
def toEnd (cursor : Cursor) : Cursor :=
  cursor.pastLines cursor.rest []

/-! ## By characters -/

def peek? (cursor : Cursor) : Option Char :=
  cursor.rest.head?

/-- The next `n` characters, fewer near the end. -/
def peekMany (cursor : Cursor) (n : Nat) : String :=
  String.ofList (cursor.rest.take n)

/-- Moves past the next `n` characters. -/
def advance (cursor : Cursor) (n : Nat) : Cursor :=
  cursor.past (cursor.rest.take n) (cursor.rest.drop n)

def read? (cursor : Cursor) : Option Char × Cursor :=
  (cursor.peek?, cursor.advance 1)

/-- Reads the next `n` characters, fewer near the end. -/
def readMany (cursor : Cursor) (n : Nat) : String × Cursor :=
  (cursor.peekMany n, cursor.advance n)

/-! ## By pieces -/

/-- Reads the line breaks or, where there is none, the white space that comes next. -/
def whitespace (cursor : Cursor) : Token × Cursor :=
  if startsBreak cursor.rest then
    let (taken, left) := breaks cursor.rest
    (⟨.breaks (String.ofList taken), cursor.line⟩, cursor.pastLines taken left)
  else
    let (taken, left) := blanks cursor.rest
    (⟨.blanks (String.ofList taken), cursor.line⟩, cursor.past taken left)

/-- Reads a comment up to the end of its line; the hash sign may be missing. -/
def comment (cursor : Cursor) : Token × Cursor :=
  let start := if cursor.peek? = some '#' then cursor.advance 1 else cursor
  let (taken, left) := Token.comment start.rest
  (⟨.comment (String.ofList taken), cursor.line⟩, start.past taken left)

/-- Reads an unquoted literal.  Its first character may be any. -/
def word (cursor : Cursor) : Token × Cursor :=
  let (taken, left) := wordTail cursor.rest.tail
  let text := cursor.rest.take 1 ++ taken
  (⟨.word (String.ofList text), cursor.line⟩, cursor.past text left)

/-- Reads an expression up to its end. -/
def expression (cursor : Cursor) : Except LexError Token × Cursor :=
  match expression? cursor.rest with
  | none => (.error (.unterminatedExpression cursor.line), cursor.toEnd)
  | some (taken, left) =>
    (.ok ⟨.expression (String.ofList taken), cursor.line⟩, cursor.pastLines taken left)

/-- Reads a quoted literal whose opening quote was read before, with its closing quote. -/
def quoted (cursor : Cursor) : Except LexError Token × Cursor :=
  match quoted? cursor.rest with
  | none => (.error (.unterminatedString cursor.line), cursor.toEnd)
  | some span =>
    (.ok ⟨.quoted (String.ofList span.raw) (String.ofList span.text), cursor.line⟩,
      cursor.pastLines (span.raw ++ ['"']) span.left)

/-- Scans all that follows; the cursor stays. -/
def scan (cursor : Cursor) : Scan :=
  .ofText cursor.line cursor.rest

end Cursor

end LookML.Token
