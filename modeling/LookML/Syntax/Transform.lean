import LookML.Syntax.Tree

/-!
# Transforms — a syntax tree changed leaf by leaf

A transform says what becomes of each leaf, and of each pair before its leaves.  The tree around
them keeps its shape, and every container is checked again for repeated keys.  A transform may
carry a state, so the order counts: a list yields its entries first, then its key, colon, opening,
leading comma, separators, trailing comma and closing; all else goes in the order of writing.
-/

namespace LookML

/-- What becomes of leaves and pairs. -/
structure Transform (m : Type → Type) where
  /-- What a leaf becomes. -/
  leaf : Leaf → m Leaf
  /-- What a pair becomes before its leaves do. -/
  pair : Pair → m Pair

/-- A tree in the making, which a repeated key stops. -/
abbrev Rebuild (m : Type → Type) (α : Type) : Type :=
  ExceptT DuplicateKey m α

namespace Transform

/-- The transform that applies `f` to every leaf. -/
def ofLeaf {m : Type → Type} [Monad m] (f : Leaf → m Leaf) : Transform m :=
  { leaf := f, pair := pure }

variable {m : Type → Type} [Monad m] (t : Transform m)

def onLeaf? : Option Leaf → m (Option Leaf)
  | some leaf => do
    let leaf ← t.leaf leaf
    return some leaf
  | none => return none

def onLeaves : List Leaf → m (List Leaf)
  | [] => return []
  | leaf :: rest => do
    let leaf ← t.leaf leaf
    let rest ← onLeaves rest
    return leaf :: rest

def onPair (pair : Pair) : m Pair := do
  let pair ← t.pair pair
  let key ← t.leaf pair.key
  let colon ← t.leaf pair.colon
  let value ← t.leaf pair.value
  return { key, colon, value }

def onPairs : List Pair → m (List Pair)
  | [] => return []
  | pair :: rest => do
    let pair ← t.onPair pair
    let rest ← onPairs rest
    return pair :: rest

def onEntries : Entries → m Entries
  | .values vs => do
    let vs ← t.onLeaves vs
    return .values vs
  | .pairs ps => do
    let ps ← t.onPairs ps
    return .pairs ps

def onListing (listing : Listing) : m Listing := do
  let entries ← t.onEntries listing.entries
  let key ← t.leaf listing.key
  let colon ← t.leaf listing.colon
  let opening ← t.leaf listing.opening
  let leading? ← t.onLeaf? listing.leading?
  let separators ← t.onLeaves listing.separators
  let trailing? ← t.onLeaf? listing.trailing?
  let closing ← t.leaf listing.closing
  return { key, colon, opening, leading?, entries, separators, trailing?, closing }

mutual

def onBlock : Block → Rebuild m Block
  | ⟨key, colon, name?, opening, inner, closing⟩ => do
    let key ← t.leaf key
    let colon ← t.leaf colon
    let name? ← t.onLeaf? name?
    let opening ← t.leaf opening
    let inner ← onContainer inner
    let closing ← t.leaf closing
    return { key, colon, name?, opening, container := inner, closing }

def onContainer : Container → Rebuild m Container
  | ⟨items, topLevel⟩ => do
    let items ← onItems items
    ExceptT.mk (pure (Container.of items topLevel))

def onItems : List Item → Rebuild m (List Item)
  | [] => return []
  | item :: rest => do
    let item ← onItem item
    let rest ← onItems rest
    return item :: rest

def onItem : Item → Rebuild m Item
  | .pair p => do
    let p ← t.onPair p
    return .pair p
  | .listing l => do
    let l ← t.onListing l
    return .listing l
  | .block b => do
    let b ← onBlock b
    return .block b

end

def onDocument (document : Document) : Rebuild m Document := do
  let container ← t.onContainer document.container
  return { document with container }

end Transform

/-- A document with `f` applied to every leaf. -/
def Document.mapLeaves (f : Leaf → Leaf) (document : Document) : Except DuplicateKey Document :=
  ((Transform.ofLeaf f : Transform Id).onDocument document).run

end LookML
