import LookML.Proofs.Parser.Content
import LookML.Proofs.Parser.Decision
import LookML.Proofs.Scan.Reading

/-!
# Tidy trees — what a builder writes, and how it is read

A tidy tree is laid out as a builder lays it out: plain punctuation with nothing but white space
around it, keys and names that can stand unquoted, texts in a form of their own.  Its keys are in
place if no expression key stands where no expression follows.  Then the printed tree is scanned
as the phrases of `Item.reading`, which say what the tree says.
-/

namespace LookML

/-! ## Tidy leaves -/

namespace Leaf

/-- A leaf with white space before it and nothing after it. -/
structure IsLaidOut (leaf : Leaf) : Prop where
  before : ∀ c ∈ leaf.before.toList, isLayout c = true
  after : leaf.after = ""

/-- A laid out word that can stand unquoted. -/
structure IsBare (leaf : Leaf) : Prop extends leaf.IsLaidOut where
  form : leaf.form = .word
  bare : Builder.isBareWord leaf.value = true

/-- A mark with white space around it. -/
structure IsMark (m : Mark) (leaf : Leaf) : Prop where
  form : leaf.form = .mark m
  before : ∀ c ∈ leaf.before.toList, isLayout c = true
  after : ∀ c ∈ leaf.after.toList, isLayout c = true

/-- Whether a text has the form that a builder gives it. -/
def IsWell (leaf : Leaf) : Prop :=
  match leaf.form with
  | .word => Builder.isBareWord leaf.value = true
  | .quoted none => True
  | .expression left right => left = "" ∧ right = " " ∧ Text.trim leaf.value = leaf.value ∧
      Builder.holdsExpressionEnd leaf.value.toList = false
  | _ => False

/-- A laid out text in the form that a builder gives it. -/
structure IsValue (leaf : Leaf) : Prop extends leaf.IsLaidOut where
  form : leaf.IsWell

end Leaf

/-! ## Tidy trees -/

/-- A tidy pair: an expression stands under expression keys only, a word under any other. -/
structure Pair.IsTidy (pair : Pair) : Prop where
  key : pair.key.IsBare
  colon : pair.colon = .colon
  value : pair.value.IsValue
  before : pair.value.before = ""
  expression : pair.value.isExpression = true → Keys.isExpression pair.key.value = true
  word : pair.value.form = .word → Keys.isExpression pair.key.value = false

/-- Whether the entries of a list are tidy. -/
def Entries.IsTidy : Entries → Prop
  | values vs => ∀ v ∈ vs, v.IsValue ∧ v.isExpression = false
  | pairs ps => ∀ p ∈ ps, p.IsTidy

/-- A tidy list: a comma after its entries stands only where there are some. -/
structure Listing.IsTidy (listing : Listing) : Prop where
  key : listing.key.IsBare
  colon : listing.colon = .colon
  opening : listing.opening.IsMark .bracketOpen
  leading : listing.leading? = none
  entries : listing.entries.IsTidy
  separators : ∀ comma ∈ listing.separators, comma.IsMark .comma
  trailing : ∀ comma ∈ listing.trailing?, comma.IsMark .comma ∧ listing.entries.isEmpty = false
  closing : listing.closing.IsMark .bracketClose

mutual

/-- A tidy block: its container repeats no key. -/
def Block.IsTidy : Block → Prop
  | ⟨key, colon, name?, opening, container, closing⟩ =>
    (key.IsBare ∧ colon = .colon ∧ (∀ name ∈ name?, name.IsBare) ∧ opening.IsMark .braceOpen ∧
      closing.IsMark .braceClose) ∧ Container.firstRepeat? [] container.items = none ∧
      container.IsTidy

def Container.IsTidy : Container → Prop
  | ⟨items, _⟩ => Item.AllTidy items

/-- Tidy items in a row: white space parts each from the one before it. -/
def Item.AllTidy : List Item → Prop
  | [] => True
  | item :: items => item.IsTidy ∧ (∀ next ∈ items.head?, next.keyLeaf.before ≠ "") ∧
      Item.AllTidy items

def Item.IsTidy : Item → Prop
  | .pair pair => pair.IsTidy
  | .listing listing => listing.IsTidy
  | .block block => block.IsTidy

end

/-- A tidy document is a tidy container with nothing around it. -/
structure Document.IsTidy (document : Document) : Prop where
  container : document.container.IsTidy
  before : document.before = ""
  after : document.after = ""

/-! ## Keys in place -/

/-- Whether the key of a pair is no expression key, or the pair has an expression. -/
def Pair.InPlace (pair : Pair) : Prop :=
  Keys.isExpression pair.key.value = true → pair.value.isExpression = true

/-- Whether no key of the entries of a list is an expression key. -/
def Entries.InPlace : Entries → Prop
  | values _ => True
  | pairs ps => ∀ p ∈ ps, Keys.isExpression p.key.value = false

/-- Whether no key of a list is an expression key. -/
def Listing.InPlace (listing : Listing) : Prop :=
  Keys.isExpression listing.key.value = false ∧ listing.entries.InPlace

mutual

def Block.InPlace : Block → Prop
  | ⟨key, _, _, _, container, _⟩ => Keys.isExpression key.value = false ∧ container.InPlace

def Container.InPlace : Container → Prop
  | ⟨items, _⟩ => Item.AllInPlace items

def Item.AllInPlace : List Item → Prop
  | [] => True
  | item :: items => item.InPlace ∧ Item.AllInPlace items

def Item.InPlace : Item → Prop
  | .pair pair => pair.InPlace
  | .listing listing => listing.InPlace
  | .block block => block.InPlace

end

/-- Whether every expression key of a document is the key of a pair that is an item and has an
expression. -/
def Document.KeysInPlace (document : Document) : Prop :=
  document.container.InPlace

end LookML
