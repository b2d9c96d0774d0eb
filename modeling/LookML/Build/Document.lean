import LookML.Build.Listing

/-!
# Built documents — plain data as a syntax tree

A text becomes a pair, an object a block, a list a bracketed list.  A list under a plural spelling
becomes a row of siblings under the single key instead, unless the block around it takes it
literally.
-/

namespace LookML

namespace Builder

/-! ## Blocks -/

/-- The checked container of a block. -/
def checked (items : List Item) : Building Container :=
  match Container.of items false with
  | .ok container => return container
  | .error e => throw (.duplicate e)

def laidOut (place : Place) (previous : Previous) (key : Leaf) (name? : Option Leaf)
    (container : Container) : Block :=
  { key := { key with before := place.beforeBlock previous }
    colon := .colon
    name?
    opening := { Leaf.mark .braceOpen with before := if name?.isSome then " " else "" }
    container
    closing :=
      { Leaf.mark .braceClose with
        before := if container.items.isEmpty then "" else place.newline } }

def nameLeaf? (key : String) : Option String → Building (Option Leaf)
  | some name => some <$> keyLeaf key name
  | none => return none

/-- A block under a key around the items that `content` makes. -/
def blockAround (place : Place) (key : String) (name? : Option String)
    (content : Place → Building (List Item)) : Building Block := do
  let leaf ← keyLeaf key key
  let nameLeaf? ← nameLeaf? key name?
  let previous := (← get).previous
  wrote .opened
  let items ← content (place.inside key)
  let container ← checked items
  wrote .block
  return laidOut place previous leaf nameLeaf? container

/-- The name that the fields of a block under `key` give it. -/
def nameOf? (key : String) (fields : Object Value) : Option String :=
  if Keys.hasNameField key then none else (fields.get? "name").bind Value.string?

/-- Notes a list that is written as siblings. -/
def noteExpansion (key : String) (values : List Value) : Building Unit :=
  modify fun state =>
    { state with
      expansions := ⟨key, Keys.singularize key, values.length⟩ :: state.expansions }

/-- How gathered filters are written. -/
inductive FilterForm where
  /-- As blocks, each with a name or with the field that it filters. -/
  | blocks (named : Bool)
  /-- As the pairs of one list. -/
  | pairs
  /-- As lists and pairs side by side. -/
  | loose
deriving DecidableEq, Repr

/-- The form of gathered filters, which the first of them decides. -/
def filterForm (values : List Value) : FilterForm :=
  match values.head?.bind Value.object? with
  | some first =>
    if first.contains "name" then .blocks true
    else if first.contains "field" then .blocks false
    else .pairs
  | none => .loose

/-- Lists and texts under `filters`, each an item of its own. -/
def looseFilters (place : Place) : List Value → Building (List Item)
  | [] => return []
  | .list values :: rest => do
    let first ← listing place "filters" values
    let more ← looseFilters place rest
    return .listing first :: more
  | .string text :: rest => do
    let first ← pair place "filters" text
    let more ← looseFilters place rest
    return .pair first :: more
  | .object _ :: _ => throw (.unsupported "filters" "object")

/-! ## Everything -/

mutual

/-- The items for the fields of a block, without its name where that is written as such. -/
def members (place : Place) (skipName : Bool) : List (String × Value) → Building (List Item)
  | [] => return []
  | (key, value) :: rest => do
    let first ← if skipName && key == "name" then pure [] else member place key value
    let more ← members place skipName rest
    return first ++ more

def member (place : Place) (key : String) : Value → Building (List Item)
  | .string text => do
    return [.pair (← pair place key text)]
  | .list values => do
    if place.expands key then
      noteExpansion key values
      if Keys.singularize key ≠ "filters" then siblings place (Keys.singularize key) values
      else
        match filterForm values with
        | .blocks named => filterBlocks place named values
        | .pairs => return [.listing (← listing place "filters" values)]
        | .loose => looseFilters place values
    else
      return [.listing (← listing place key values)]
  | .object ⟨fields⟩ => do
    let name? := nameOf? key ⟨fields⟩
    return [.block (← blockAround place key name? fun inner => members inner name?.isSome fields)]

/-- The items for values that stand side by side under one key. -/
def siblings (place : Place) (key : String) : List Value → Building (List Item)
  | [] => return []
  | value :: rest => do
    let first ← member place key value
    let more ← siblings place key rest
    return first ++ more

/-- The blocks for gathered filters, with names or with the fields they filter. -/
def filterBlocks (place : Place) (named : Bool) : List Value → Building (List Item)
  | [] => return []
  | .object ⟨fields⟩ :: rest => do
    let key := if named then "filter" else "filters"
    let name? := if named then ((⟨fields⟩ : Object Value).get? "name").bind Value.string? else none
    let first ← blockAround place key name? fun inner => members inner name?.isSome fields
    let more ← filterBlocks place named rest
    return .block first :: more
  | other :: _ => throw (.unsupported "filters" other.kind)

end

/-- A document for plain data, which has to be an object. -/
def document (layout : Layout) : Value → Building Document
  | .object fields => do
    let items ← members { layout } false fields.entries
    return { container := ⟨items, true⟩ }
  | other => throw (.rootNotObject other.kind)

end Builder

/-- The document for plain data, and the lists written as siblings. -/
def Value.build (layout : Layout) (value : Value) :
    Except BuildError Document × List Builder.Expansion :=
  let (result, after) := (Builder.document layout value).run.run {}
  (result, after.expansions.reverse)

end LookML
