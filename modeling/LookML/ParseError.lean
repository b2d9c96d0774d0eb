import LookML.Syntax.Tree
import LookML.Token.Scan

/-!
# Parse errors — why a source has no syntax tree

A source can fail to scan, its tokens can fail to form a document, or a container can repeat a
key.  Every error but the last knows its line.
-/

namespace LookML

/-- What is wrong with a sequence of tokens. -/
inductive Fault where
  /-- The tokens end inside a list or before a value. -/
  | endOfStream
  /-- A token with no text of its own was read as a value. -/
  | noValue (found : String)
  /-- No item starts here. -/
  | noItem (found : String)
  /-- Something follows the document. -/
  | leftOver (found : String)
  /-- An expression is not followed by its end. -/
  | openExpression
  /-- Two entries of a list have no comma between them. -/
  | missingComma
  /-- A list has something that is no entry. -/
  | missingEntry
  /-- A list of pairs has a plain value. -/
  | pairExpected
  /-- A list of plain values has a pair. -/
  | valueExpected
  /-- An entry of a list is an expression. -/
  | expressionInList
  /-- A fault in the caller's own words. -/
  | other (text : String)
deriving DecidableEq, Repr

/-- The text of a fault, without its line. -/
def Fault.message : Fault → String
  | endOfStream => "Unexpected end of stream"
  | noValue found => "Token " ++ found ++ " does not have a consumable value"
  | noItem found => "Unable to find a matching expression for " ++ found
  | leftOver found => "Unexpected " ++ found
  | openExpression => "Expected an expression block end"
  | missingComma => "Expected a comma between list values"
  | missingEntry => "Expected a value or key-value pair"
  | pairExpected => "Expected all list items to be key-value pairs"
  | valueExpected => "Expected all list items to be values"
  | expressionInList => "Cannot use an expression block in a list"
  | other text => text

/-- A fault and the line it was met on. -/
structure SyntaxError where
  fault : Fault
  line : Nat
deriving DecidableEq, Repr

def SyntaxError.message (e : SyntaxError) : String :=
  e.fault.message ++ s!" on line {e.line}"

/-- Why a source has no syntax tree. -/
inductive ParseError where
  | lexical (error : LexError)
  | grammatical (error : SyntaxError)
  | duplicate (error : DuplicateKey)
deriving DecidableEq, Repr

namespace ParseError

/-- The line an error points at, if it is known. -/
def line? : ParseError → Option Nat
  | lexical e => some e.line
  | grammatical e => some e.line
  | duplicate e => e.line?

def message : ParseError → String
  | lexical e => e.message
  | grammatical e => e.message
  | duplicate e => e.message

end ParseError

end LookML
