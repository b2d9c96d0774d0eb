import LookML.Keys
import LookML.Syntax.Leaf

/-!
# Syntax trees — what a LookML source is made of

A document is a container of items.  An item is a pair of a key and a value, a bracketed list
under a key, or a braced block with a container of its own.  Below the root, a key may stand twice
in one container only if it is a plural key; `Container.of` is the check.
-/

namespace LookML

/-! ## Pairs and lists -/

/-- A key and its value: `hidden: yes`. -/
structure Pair where
  key : Leaf
  colon : Leaf := .colon
  value : Leaf
deriving DecidableEq, Repr

/-- The entries of a list: plain values or pairs, never both. -/
inductive Entries where
  | values (values : List Leaf)
  | pairs (pairs : List Pair)
deriving DecidableEq, Repr

namespace Entries

def length : Entries → Nat
  | values vs => vs.length
  | pairs ps => ps.length

def isEmpty (entries : Entries) : Bool :=
  entries.length == 0

end Entries

/-- A bracketed list under a key: `fields: [a, b]`. -/
structure Listing where
  key : Leaf
  colon : Leaf := .colon
  opening : Leaf := .mark .bracketOpen
  /-- The comma directly after the opening bracket. -/
  leading? : Option Leaf := none
  entries : Entries
  /-- The commas between entries. -/
  separators : List Leaf
  /-- The comma directly before the closing bracket. -/
  trailing? : Option Leaf := none
  closing : Leaf := .mark .bracketClose
deriving DecidableEq, Repr

namespace Listing

/-- The commas that part `count` entries on one line. -/
def commas (count : Nat) : List Leaf :=
  List.replicate (count - 1) { Leaf.mark .comma with after := " " }

/-- A list on one line. -/
def inline (key : Leaf) (entries : Entries) : Listing :=
  { key, entries, separators := commas entries.length }

end Listing

/-! ## Blocks, containers, items -/

mutual

/-- A braced block under a key: `dimension: id { ... }`. -/
structure Block where
  key : Leaf
  colon : Leaf
  /-- The name of the block, which a block such as `link: { ... }` does not have. -/
  name? : Option Leaf
  opening : Leaf
  container : Container
  closing : Leaf

/-- Items in a row. -/
structure Container where
  items : List Item
  /-- Whether this is the container of a document. -/
  topLevel : Bool

/-- What a container holds. -/
inductive Item where
  | pair (pair : Pair)
  | listing (listing : Listing)
  | block (block : Block)

end

/-- A whole source, with the trivia around its items. -/
structure Document where
  container : Container
  before : String := ""
  after : String := ""

/-- A block with plain punctuation. -/
def Block.plain (key : Leaf) (name? : Option Leaf) (container : Container) : Block :=
  { key, colon := .colon, name?, opening := .mark .braceOpen, container,
    closing := .mark .braceClose }

namespace Item

/-- The leaf that introduces an item. -/
def keyLeaf : Item → Leaf
  | pair p => p.key
  | listing l => l.key
  | block b => b.key

def key (item : Item) : String :=
  item.keyLeaf.value

/-- The line of an item, which is that of its key. -/
def line? (item : Item) : Option Nat :=
  item.keyLeaf.line?

end Item

/-! ## Repeated keys -/

/-- A key stands twice in one container and may not. -/
structure DuplicateKey where
  key : String
  /-- The line of the repetition, if it is known. -/
  line? : Option Nat
deriving DecidableEq, Repr

def DuplicateKey.message (e : DuplicateKey) : String :=
  "key \"" ++ e.key ++ "\" already exists in this block" ++
    match e.line? with
    | some line => s!" (line {line})"
    | none => ""

namespace Container

/-- The first of `items` whose key is no plural key and is among `seen` or the keys before it. -/
def firstRepeat? (seen : List String) : List Item → Option Item
  | [] => none
  | item :: rest =>
    if seen.contains item.key && !Keys.isPlural item.key then some item
    else firstRepeat? (item.key :: seen) rest

/-- The container of `items`, in which only the root may repeat any key. -/
def of (items : List Item) (topLevel : Bool) : Except DuplicateKey Container :=
  if topLevel then .ok ⟨items, true⟩
  else
    match firstRepeat? [] items with
    | some item => .error ⟨item.key, item.line?⟩
    | none => .ok ⟨items, false⟩

/-- The line of a container, which is that of its first item. -/
def line? (container : Container) : Option Nat :=
  container.items.head?.bind Item.line?

/-- A checked container holds the given items. -/
theorem items_of {items : List Item} {topLevel : Bool} {c : Container}
    (h : of items topLevel = .ok c) : c.items = items := by
  unfold of at h
  split at h
  · exact (Except.ok.inj h) ▸ rfl
  · split at h
    · simp at h
    · exact (Except.ok.inj h) ▸ rfl

/-- A checked container is at the top level exactly when it was asked to be. -/
theorem topLevel_of {items : List Item} {topLevel : Bool} {c : Container}
    (h : of items topLevel = .ok c) : c.topLevel = topLevel := by
  unfold of at h
  split at h
  · rename_i ht
    exact (Except.ok.inj h) ▸ ht.symm
  · rename_i ht
    split at h
    · simp at h
    · exact (Except.ok.inj h) ▸ (Bool.eq_false_iff.mpr ht).symm

end Container

end LookML
