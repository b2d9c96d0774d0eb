import LookML.Syntax.Tree
import LookML.Value.Basic

/-!
# Layout — where and how a built tree is written

A tree is laid out as it is built: an item to a line, a blank line next to each block, and long
lists an entry to a line.  A place knows the level of an item and the key around it; the state
knows what was written last there.
-/

namespace LookML

/-! ## Layouts and errors -/

/-- How a built tree is laid out. -/
structure Layout where
  indent : String := "  "
  /-- Lists of more entries have an entry to a line. -/
  listThreshold : Nat := 5
deriving DecidableEq, Repr

/-- Why plain data has no syntax tree. -/
inductive BuildError where
  /-- The root is no object. -/
  | rootNotObject (kind : String)
  /-- A value has no written form where it stands. -/
  | unsupported (key kind : String)
  /-- A key, a name or an expression would not read back as it is. -/
  | unwritable (key text : String)
  /-- A block would repeat a key. -/
  | duplicate (error : DuplicateKey)
deriving DecidableEq, Repr

def BuildError.message : BuildError → String
  | rootNotObject kind => "expected an object at the root, found a " ++ kind
  | unsupported key kind => "cannot write a " ++ kind ++ " value for key \"" ++ key ++ "\""
  | unwritable key text => "cannot write \"" ++ text ++ "\" for key \"" ++ key ++ "\""
  | duplicate e => e.message

/-! ## Places and progress -/

namespace Builder

/-- What was written last at the level in progress. -/
inductive Previous where
  | start
  | opened
  | pair
  | list
  | block
deriving DecidableEq, Repr

/-- A list that was written as siblings. -/
structure Expansion where
  key : String
  singular : String
  count : Nat
deriving DecidableEq, Repr

structure State where
  previous : Previous := .start
  /-- The lists written as siblings, latest first. -/
  expansions : List Expansion := []
deriving DecidableEq, Repr

abbrev Building (α : Type) : Type :=
  ExceptT BuildError (StateM State) α

/-- Remembers what was written last. -/
def wrote (previous : Previous) : Building Unit :=
  modify fun state => { state with previous }

/-- Where an item is written: the key of the block or list around it, and its level. -/
structure Place where
  layout : Layout
  parent? : Option String := none
  level : Nat := 0
deriving DecidableEq, Repr

namespace Place

/-- A line break and the indent of the level. -/
def newline (place : Place) : String :=
  "\n" ++ String.join (List.replicate place.level place.layout.indent)

/-- What stands before a pair or a list. -/
def beforeItem (place : Place) : Previous → String
  | .start => ""
  | .block => "\n" ++ place.newline
  | .opened | .pair | .list => place.newline

def beforeBlock (place : Place) : Previous → String
  | .start => ""
  | .opened => place.newline
  | .block | .pair | .list => "\n" ++ place.newline

/-- The place inside a block or a list under `key`. -/
def inside (place : Place) (key : String) : Place :=
  { place with parent? := some key, level := place.level + 1 }

/-- Whether values of `key` are quoted because they filter a field. -/
def quotes (place : Place) (key : String) : Bool :=
  place.parent? == some "filters" && key != "field"

/-- Whether the block around is an access grant, in either spelling. -/
def inAccessGrant (place : Place) : Bool :=
  match place.parent? with
  | some parent => Text.dropTrailing (· == 's') parent.toList == "access_grant".toList
  | none => false

/-- Whether a list under `key` stands for siblings.  An access grant keeps its allowed values as a
list, and a query expands nothing but its filters. -/
def expands (place : Place) (key : String) : Bool :=
  let singular := Keys.singularize key
  Keys.isPlural singular &&
    !(singular == "allowed_value" && place.inAccessGrant) &&
    !(place.parent? == some "query" && singular != "filters")

end Place

end Builder

end LookML
