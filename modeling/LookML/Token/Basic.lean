import LookML.Text.Blank

/-!
# Tokens — the pieces of a LookML source

A lexeme is a piece of source together with the text it carries; a token is a lexeme and the line
it starts on.  The tokens of a source stand between a start and an end token, which carry no text.
-/

namespace LookML

/-! ## Marks -/

/-- The characters that give a source its structure. -/
inductive Mark where
  | colon
  | comma
  | braceOpen
  | braceClose
  | bracketOpen
  | bracketClose
deriving DecidableEq, Repr

/-- How a mark is written. -/
def Mark.symbol : Mark → String
  | .colon => ":"
  | .comma => ","
  | .braceOpen => "\x7b"
  | .braceClose => "\x7d"
  | .bracketOpen => "["
  | .bracketClose => "]"

/-! ## Lexemes -/

/-- A piece of source with the text it carries. -/
inductive Lexeme where
  | streamStart
  | streamEnd
  /-- Spaces, tabs and carriage returns that belong to no line break. -/
  | blanks (text : String)
  /-- One or more line breaks in a row. -/
  | breaks (text : String)
  /-- A comment, without the hash sign before it. -/
  | comment (text : String)
  | word (text : String)
  /-- A quoted literal: what stands between the quotes, and the text it means. -/
  | quoted (raw text : String)
  /-- The raw text after an expression key. -/
  | expression (text : String)
  | expressionEnd
  | mark (mark : Mark)
deriving DecidableEq, Repr

namespace Lexeme

/-- The lexeme that a single character stands for. -/
def ofChar? : Char → Option Lexeme
  | '{' => some (.mark .braceOpen)
  | '}' => some (.mark .braceClose)
  | '[' => some (.mark .bracketOpen)
  | ']' => some (.mark .bracketClose)
  | ',' => some (.mark .comma)
  | ':' => some (.mark .colon)
  | ';' => some .expressionEnd
  | _ => none

/-- Whether a lexeme carries no meaning: white space, line breaks and comments. -/
def isTrivia : Lexeme → Bool
  | blanks _ | breaks _ | comment _ => true
  | _ => false

/-- Whether a lexeme is trivia that may end a line: line breaks and comments. -/
def isLineTrivia : Lexeme → Bool
  | breaks _ | comment _ => true
  | _ => false

/-- The text a lexeme carries, a quoted literal its meaning. -/
def value? : Lexeme → Option String
  | blanks text | breaks text | comment text | word text | expression text => some text
  | quoted _ text => some text
  | streamStart | streamEnd | expressionEnd | mark _ => none

/-- The source that a lexeme stands for. -/
def source : Lexeme → String
  | streamStart | streamEnd => ""
  | blanks text | breaks text | word text | expression text => text
  | comment text => "#" ++ text
  | quoted raw _ => "\"" ++ raw ++ "\""
  | expressionEnd => ";;"
  | mark m => m.symbol

/-- What a lexeme is called in a message. -/
def name : Lexeme → String
  | streamStart => "stream start"
  | streamEnd => "end of stream"
  | blanks _ => "whitespace"
  | breaks _ => "newline"
  | comment _ => "comment"
  | word _ => "literal"
  | quoted _ _ => "quoted literal"
  | expression _ => "expression block"
  | expressionEnd => "';;'"
  | mark m => "'" ++ m.symbol ++ "'"

/-- A lexeme in a message: its name and, if it is a value, its text. -/
def describe : Lexeme → String
  | word text => (word text).name ++ " '" ++ Text.trim text ++ "'"
  | expression text => (expression text).name ++ " '" ++ Text.trim text ++ "'"
  | quoted raw text => (quoted raw text).name ++ " \"" ++ raw ++ "\""
  | other => other.name

/-- Trivia that may end a line is trivia. -/
theorem isTrivia_of_isLineTrivia {l : Lexeme} (h : l.isLineTrivia = true) :
    l.isTrivia = true := by
  cases l <;> simp_all [isLineTrivia, isTrivia]

end Lexeme

/-! ## Tokens -/

/-- A lexeme and the line it starts on, counted from 1. -/
structure Token where
  lexeme : Lexeme
  line : Nat
deriving DecidableEq, Repr

namespace Token

def value? (token : Token) : Option String :=
  token.lexeme.value?

def source (token : Token) : String :=
  token.lexeme.source

def isTrivia (token : Token) : Bool :=
  token.lexeme.isTrivia

/-- The source that a run of tokens stands for. -/
def sourceAll (tokens : List Token) : String :=
  String.join (tokens.map source)

end Token

end LookML
