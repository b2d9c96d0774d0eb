import LookML.Syntax.Tree

/-!
# Paths — where each value of a syntax tree stands

A path is the keys from the root to a value, each behind a slash.  A value is listed as its path,
an equals sign and its text; a block adds its own path and, if it is named, its name.
-/

namespace LookML

/-- The path of `key` under `path`. -/
def underKey (path key : String) : String :=
  path ++ "/" ++ key

/-- The entry of a leaf under `path`. -/
def Leaf.path (path : String) (leaf : Leaf) : String :=
  path ++ "=" ++ leaf.value

def Pair.path (path : String) (pair : Pair) : String :=
  pair.value.path (underKey path pair.key.value)

def Listing.paths (path : String) (listing : Listing) : List String :=
  match listing.entries with
  | .values vs => vs.map (Leaf.path (underKey path listing.key.value))
  | .pairs ps => ps.map (Pair.path (underKey path listing.key.value))

mutual

def Block.paths (path : String) : Block → List String
  | ⟨key, _, name?, _, container, _⟩ =>
    let own := underKey path key.value
    [own] ++ (name?.map (Leaf.path own)).toList ++ container.paths own

def Container.paths (path : String) : Container → List String
  | ⟨items, _⟩ => Item.pathsAll path items

def Item.pathsAll (path : String) : List Item → List String
  | [] => []
  | item :: items => item.paths path ++ Item.pathsAll path items

def Item.paths (path : String) : Item → List String
  | .pair pair => [pair.path path]
  | .listing listing => listing.paths path
  | .block block => block.paths path

end

def Document.paths (document : Document) : List String :=
  document.container.paths ""

end LookML
