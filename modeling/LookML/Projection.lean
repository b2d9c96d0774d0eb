import LookML.Syntax.Tree
import LookML.Value.Basic

/-!
# Projection — a syntax tree as plain data

A container becomes an object with a slot per key.  Items with a plural key are gathered in a
list, in the slot of the plural spelling; any other key has a slot of its own.  A slot that is
taken is an error, except that at the root the last declaration of a key stays, with a warning.
The name of a block becomes its field `name`.
-/

namespace LookML

/-- A slot of an object is taken. -/
structure ProjectionError where
  key : String
  /-- The line of the item that finds it taken, if it is known. -/
  line? : Option Nat
deriving DecidableEq, Repr

def ProjectionError.message (e : ProjectionError) : String :=
  "key \"" ++ e.key ++ "\" already exists in tree and would overwrite the existing value" ++
    match e.line? with
    | some line => s!" (line {line})"
    | none => ""

/-- The state of a projection, which may go on from one tree to the next. -/
structure Projector where
  /-- The number of containers being projected. -/
  depth : Nat := 0
  /-- The keys declared more than once at the root, latest first. -/
  warnings : List String := []
deriving DecidableEq, Repr

abbrev Projecting (α : Type) : Type :=
  ExceptT ProjectionError (StateM Projector) α

namespace Projector

/-- Runs a projection one container deeper, and comes back however it ends. -/
def nested {α : Type} (body : Projecting α) : Projecting α :=
  ExceptT.mk fun state =>
    let (result, after) := body.run { state with depth := state.depth + 1 }
    (result, { after with depth := after.depth - 1 })

/-- Warns of a key that is declared again. -/
def warn (key : String) : Projecting Unit :=
  modify fun state => { state with warnings := key :: state.warnings }

/-- The object with `value` added to the list in a slot.  `none` if something else is there. -/
def gather (target : Object Value) (slot : String) (value : Value) : Option (Object Value) :=
  match target.get? slot with
  | some (.list values) => some (target.set slot (.list (values ++ [value])))
  | some _ => none
  | none => some (target.insert slot (.list [value]))

/-- Puts the value of an item with `key` into its slot. -/
def merge (target : Object Value) (key : String) (value : Value) (line? : Option Nat) :
    Projecting (Object Value) := do
  if Keys.isPlural key then
    match gather target (Keys.pluralize key) value with
    | some target => return target
    | none => throw ⟨Keys.pluralize key, line?⟩
  else if target.contains key then
    if (← get).depth = 1 then
      warn key
      return target.insert key value
    else
      throw ⟨key, line?⟩
  else
    return target.insert key value

/-- A leaf as plain data. -/
def leaf (leaf : Leaf) : Value :=
  .string leaf.value

def pair (pair : Pair) : String × Value :=
  (pair.key.value, leaf pair.value)

def entries : Entries → List Value
  | .values vs => vs.map leaf
  | .pairs ps => ps.map fun p => Value.single (pair p).1 (pair p).2

def listing (listing : Listing) : String × Value :=
  (listing.key.value, .list (entries listing.entries))

/-- The fields of a block, with its name among them. -/
def named (name? : Option Leaf) (fields : Object Value) : Object Value :=
  match name? with
  | some name => fields.insert "name" (leaf name)
  | none => fields

mutual

def block : Block → Projecting (String × Value)
  | ⟨key, _, name?, _, inner, _⟩ => do
    let fields ← container inner
    return (key.value, .object (named name? fields))

def container : Container → Projecting (Object Value)
  | ⟨[], _⟩ => return {}
  | ⟨first :: rest, _⟩ => nested do
    let (key, value) ← item first
    let target ← merge {} key value first.line?
    items target rest

/-- The object with a row of items merged into it. -/
def items (target : Object Value) : List Item → Projecting (Object Value)
  | [] => return target
  | first :: rest => do
    let (key, value) ← item first
    let target ← merge target key value first.line?
    items target rest

def item : Item → Projecting (String × Value)
  | .pair p => return pair p
  | .listing l => return listing l
  | .block b => block b

end

def document (d : Document) : Projecting (Object Value) :=
  container d.container

end Projector

/-- A document as plain data, and the keys declared more than once at the root. -/
def Document.project (document : Document) : Except ProjectionError Value × List String :=
  let (result, after) := (Projector.document document).run.run {}
  (result.map .object, after.warnings.reverse)

end LookML
