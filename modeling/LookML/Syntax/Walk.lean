import LookML.Syntax.Tree

/-!
# Walks — every part of a syntax tree, in order

A walk lists the parts of a tree in the order in which they are written, each part before the
parts it is made of.  The leaves of a walk are the written tokens of the tree.
-/

namespace LookML

/-- A part of a syntax tree. -/
inductive Part where
  | document (document : Document)
  | container (container : Container)
  | block (block : Block)
  | listing (listing : Listing)
  | pair (pair : Pair)
  | leaf (leaf : Leaf)

namespace Part

def leaf? : Part → Option Leaf
  | leaf l => some l
  | _ => none

def isBlock : Part → Bool
  | block _ => true
  | _ => false

def isListing : Part → Bool
  | listing _ => true
  | _ => false

def isPair : Part → Bool
  | pair _ => true
  | _ => false

def ofLeaf? : Option Leaf → List Part
  | some l => [leaf l]
  | none => []

end Part

def Pair.walk (pair : Pair) : List Part :=
  [.pair pair, .leaf pair.key, .leaf pair.colon, .leaf pair.value]

namespace Entries

def walkEach : Entries → List (List Part)
  | values vs => vs.map fun leaf => [.leaf leaf]
  | pairs ps => ps.map Pair.walk

/-- The parts of the entries after the first, each behind its separator; a missing one is passed
over. -/
def walkRest : List Leaf → List (List Part) → List Part
  | _, [] => []
  | [], entry :: entries => entry ++ walkRest [] entries
  | comma :: commas, entry :: entries => .leaf comma :: (entry ++ walkRest commas entries)

/-- The parts of the entries with their separators between them. -/
def walkJoined (separators : List Leaf) : List (List Part) → List Part
  | [] => []
  | entry :: entries => entry ++ walkRest separators entries

end Entries

def Listing.walk (listing : Listing) : List Part :=
  [.listing listing, .leaf listing.key, .leaf listing.colon, .leaf listing.opening] ++
    Part.ofLeaf? listing.leading? ++
    Entries.walkJoined listing.separators listing.entries.walkEach ++
    Part.ofLeaf? listing.trailing? ++ [.leaf listing.closing]

mutual

def Block.walk : Block → List Part
  | ⟨key, colon, name?, opening, container, closing⟩ =>
    [.block ⟨key, colon, name?, opening, container, closing⟩, .leaf key, .leaf colon] ++
      Part.ofLeaf? name? ++ [.leaf opening] ++ container.walk ++ [.leaf closing]

def Container.walk : Container → List Part
  | ⟨items, topLevel⟩ => .container ⟨items, topLevel⟩ :: Item.walkAll items

def Item.walkAll : List Item → List Part
  | [] => []
  | item :: items => item.walk ++ Item.walkAll items

def Item.walk : Item → List Part
  | .pair pair => pair.walk
  | .listing listing => listing.walk
  | .block block => block.walk

end

def Document.walk (document : Document) : List Part :=
  .document document :: document.container.walk

/-- The leaves of a document, in the order in which they are written. -/
def Document.leaves (document : Document) : List Leaf :=
  document.walk.filterMap Part.leaf?

/-! ## Nesting -/

mutual

/-- How deep containers are nested in a container, itself included. -/
def Container.nesting : Container → Nat
  | ⟨items, _⟩ => Item.nestingAll items + 1

def Item.nestingAll : List Item → Nat
  | [] => 0
  | item :: items => max item.nesting (Item.nestingAll items)

def Item.nesting : Item → Nat
  | .pair _ | .listing _ => 0
  | .block ⟨_, _, _, _, container, _⟩ => container.nesting

end

end LookML
