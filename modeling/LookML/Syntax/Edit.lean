import LookML.Syntax.Transform

/-!
# Edits — simple changes to every leaf of a tree

An edit is a batch of changes made in one pass: keys and values renamed, raw texts and trivia
dropped, one value replaced, leaves numbered in the order of the pass.
-/

namespace LookML

/-- A batch of changes. -/
structure Edit where
  /-- Values and what they become; the first entry for a value counts. -/
  renames : List (String × String) := []
  /-- Whether quoted literals lose their raw text. -/
  dropRaw : Bool := false
  /-- Whether leaves lose their trivia and their line. -/
  dropTrivia : Bool := false
  /-- Whether each leaf gets its number written after it. -/
  number : Bool := false
  /-- A key and the word that becomes the value of its pairs. -/
  revalue? : Option (String × String) := none
deriving Repr

namespace Edit

def renameLeaf (edit : Edit) (leaf : Leaf) : Leaf :=
  match edit.renames.lookup leaf.value with
  | some value => { leaf with value }
  | none => leaf

def unrawLeaf (leaf : Leaf) : Leaf :=
  if leaf.isQuoted then { leaf with form := .quoted none } else leaf

def bareLeaf (leaf : Leaf) : Leaf :=
  { leaf with before := "", after := "", line? := none }

/-- The changes to one leaf.  The state is the number of leaves before it. -/
def leaf (edit : Edit) (leaf : Leaf) : StateM Nat Leaf := fun count =>
  let leaf := edit.renameLeaf leaf
  let leaf := if edit.dropRaw then unrawLeaf leaf else leaf
  let leaf := if edit.dropTrivia then bareLeaf leaf else leaf
  let leaf := if edit.number then { leaf with after := leaf.after ++ s!"<{count}>" } else leaf
  (leaf, count + 1)

/-- The change to a pair, by its key before renaming. -/
def pair (edit : Edit) (pair : Pair) : Pair :=
  match edit.revalue? with
  | some (key, value) => if pair.key.value = key then { pair with value := .word value } else pair
  | none => pair

/-- The transform that makes the changes. -/
def transform (edit : Edit) : Transform (StateM Nat) :=
  { leaf := edit.leaf, pair := fun pair => pure (edit.pair pair) }

/-- A document with the changes made. -/
def apply (edit : Edit) (document : Document) : Except DuplicateKey Document :=
  ((edit.transform.onDocument document).run.run 0).1

end Edit

end LookML
