import LookML.Build.Document
import LookML.Parse
import LookML.Projection
import LookML.Syntax.Print

/-!
# Loading and dumping — from source to plain data and back
-/

namespace LookML

/-- Why loading or dumping fails. -/
inductive Error where
  | parse (error : ParseError)
  | projection (error : ProjectionError)
  | build (error : BuildError)
deriving DecidableEq, Repr

def Error.message : Error → String
  | parse e => e.message
  | projection e => e.message
  | build e => e.message

/-- What loading a source gives, and what happened on the way. -/
structure Loaded where
  parsed : Parsed
  /-- The keys declared more than once at the root. -/
  warnings : List String
  result : Except Error Value

/-- Loads a source and keeps what happened on the way. -/
def loadLogged (source : String) : Loaded :=
  let parsed := parseLogged source
  match parsed.result with
  | .error e => { parsed, warnings := [], result := .error (.parse e) }
  | .ok document =>
    let (result, warnings) := document.project
    { parsed, warnings, result := result.mapError .projection }

/-- The plain data of a source. -/
def load (source : String) : Except Error Value :=
  (loadLogged source).result

/-- The source for plain data, and the lists written as siblings. -/
def dumpLogged (layout : Layout) (value : Value) :
    Except Error String × List Builder.Expansion :=
  let (result, expansions) := value.build layout
  ((result.map Document.print).mapError .build, expansions)

/-- The source for plain data in a given layout. -/
def dumpWith (layout : Layout) (value : Value) : Except Error String :=
  (dumpLogged layout value).1

def dump (value : Value) : Except Error String :=
  dumpWith {} value

end LookML
