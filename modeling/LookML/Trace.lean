import LookML.Load
import LookML.Text.Quoted

/-!
# Traces — the events of loading and dumping

An event has a level, a text and fields.  Loading tells of each token, of the rules that the
parser tries, and of keys declared again; dumping tells of lists written as siblings.
-/

namespace LookML

/-! ## Events -/

/-- How much an event matters. -/
inductive Level where
  | trace
  | debug
  | warn
deriving DecidableEq, Repr

def Level.name : Level → String
  | trace => "TRACE"
  | debug => "DEBUG"
  | warn => "WARN"

/-- Something that happened. -/
structure Event where
  level : Level
  message : String
  fields : List (String × String) := []
deriving DecidableEq, Repr

/-! ## Tokens -/

def Mark.label : Mark → String
  | colon => "Colon"
  | comma => "Comma"
  | braceOpen => "BlockStart"
  | braceClose => "BlockEnd"
  | bracketOpen => "ListStart"
  | bracketClose => "ListEnd"

def Lexeme.label : Lexeme → String
  | streamStart => "StreamStart"
  | streamEnd => "StreamEnd"
  | blanks _ => "Whitespace"
  | breaks _ => "Newline"
  | comment _ => "Comment"
  | word _ => "Literal"
  | quoted _ _ => "QuotedLiteral"
  | expression _ => "ExpressionBlock"
  | expressionEnd => "ExpressionBlockEnd"
  | mark m => m.label

/-- A lexeme in an event, with the text it carries. -/
def Lexeme.outline : Lexeme → String
  | quoted raw text =>
    (quoted raw text).label ++ " \x7b raw: " ++ Text.quoted raw ++ ", unescaped: " ++
      Text.quoted text ++ " \x7d"
  | lexeme =>
    match lexeme.value? with
    | some text => lexeme.label ++ "(" ++ Text.quoted text ++ ")"
    | none => lexeme.label

namespace Event

/-- A token is scanned. -/
def ofToken (token : Token) : Event :=
  { level := .trace
    message := "Token " ++ token.lexeme.outline ++ s!" on line {token.line}" }

/-! ## Rules -/

/-- A rule at a token, indented by how deep it is. -/
def ofRule (rule action : String) (depth index : Nat) : Event :=
  { level := .trace
    message := String.ofList (List.replicate (2 * depth) ' ') ++ rule ++ action ++ toString index }

/-- Something happens in a parser. -/
def ofEntry : Parser.Entry → Event
  | .started tokens =>
    { level := .debug, message := "parsing document", fields := [("tokens", toString tokens)] }
  | .finished items =>
    { level := .debug, message := "parsed document", fields := [("items", toString items)] }
  | .entered rule depth index => ofRule rule " at token " depth index
  | .rewound rule depth index => ofRule rule " rewinds to token " depth index

/-! ## Plain data -/

/-- A key is declared again at the root. -/
def ofWarning (key : String) : Event :=
  { level := .warn
    message := "multiple declarations of top-level key found, using the last-declared value"
    fields := [("key", key)] }

/-- A list is written as siblings. -/
def ofExpansion (expansion : Builder.Expansion) : Event :=
  { level := .trace
    message := "expanding plural key"
    fields := [("key", expansion.key), ("singular", expansion.singular),
      ("count", toString expansion.count)] }

end Event

def Loaded.events (loaded : Loaded) : List Event :=
  loaded.parsed.tokens.map Event.ofToken ++ loaded.parsed.log.map Event.ofEntry ++
    loaded.warnings.map Event.ofWarning

end LookML
