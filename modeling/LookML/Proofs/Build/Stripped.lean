import LookML.Proofs.Build.Tidy
import LookML.Proofs.Projection.Sketch
import LookML.Proofs.Respelling.Tree

/-!
# Stripped trees — a syntax tree without its layout

Stripping takes the trivia off every leaf, and its commas off every list, as how many there are
depends on how the list is written.  Nothing else goes: a stripped tree says what the tree says,
its keys are in place if those of the tree are, and its containers repeat the same keys.
-/

namespace LookML

/-- A leaf with nothing around it. -/
def Leaf.stripped (leaf : Leaf) : Leaf :=
  { leaf with before := "", after := "" }

/-- A list with nothing around its leaves, and without its commas. -/
def Listing.stripped (listing : Listing) : Listing :=
  { key := listing.key.stripped
    colon := listing.colon.stripped
    opening := listing.opening.stripped
    entries := listing.entries.map Leaf.stripped
    separators := []
    closing := listing.closing.stripped }

mutual

def Block.stripped : Block → Block
  | ⟨key, colon, name?, opening, container, closing⟩ =>
    ⟨key.stripped, colon.stripped, name?.map Leaf.stripped, opening.stripped, container.stripped,
      closing.stripped⟩

def Container.stripped : Container → Container
  | ⟨items, topLevel⟩ => ⟨Item.strippedAll items, topLevel⟩

def Item.strippedAll : List Item → List Item
  | [] => []
  | item :: items => item.stripped :: Item.strippedAll items

/-- An item with nothing around its leaves, and without commas. -/
def Item.stripped : Item → Item
  | .pair pair => .pair (pair.map Leaf.stripped)
  | .listing listing => .listing listing.stripped
  | .block block => .block block.stripped

end

/-- A document without its layout. -/
def Document.stripped (document : Document) : Document :=
  { container := document.container.stripped }

/-! ## Keys -/

theorem Item.strippedAll_append (a b : List Item) :
    Item.strippedAll (a ++ b) = Item.strippedAll a ++ Item.strippedAll b := by
  induction a with
  | nil => rfl
  | cons item a ih => rw [List.cons_append, strippedAll, ih, strippedAll, List.cons_append]

theorem Item.keyLeaf_stripped (item : Item) : item.stripped.keyLeaf = item.keyLeaf.stripped := by
  rcases item with pair | listing | ⟨key, colon, name?, opening, container, closing⟩
  · rfl
  · rfl
  · simp only [stripped, Block.stripped, keyLeaf]

theorem Item.key_stripped (item : Item) : item.stripped.key = item.key := by
  rw [key, keyLeaf_stripped]
  rfl

theorem Item.line?_stripped (item : Item) : item.stripped.line? = item.line? := by
  rw [line?, keyLeaf_stripped]
  rfl

theorem Container.firstRepeat?_strippedAll (seen : List String) (items : List Item) :
    firstRepeat? seen (Item.strippedAll items) = (firstRepeat? seen items).map Item.stripped := by
  induction items generalizing seen with
  | nil => rfl
  | cons item items ih =>
    rw [Item.strippedAll, firstRepeat?, firstRepeat?, Item.key_stripped]
    split
    · rfl
    · exact ih (item.key :: seen)

/-- Stripped items are checked as the items are, with the same error. -/
theorem Container.of_strippedAll (items : List Item) :
    of (Item.strippedAll items) false = (of items false).map Container.stripped := by
  unfold of
  rw [if_neg (by simp), if_neg (by simp), firstRepeat?_strippedAll]
  cases hr : firstRepeat? [] items with
  | none => simp only [Option.map_none, Except.map, stripped]
  | some item => simp only [Option.map_some, Item.key_stripped, Item.line?_stripped, Except.map]

/-! ## What is said -/

theorem Projector.entries_stripped (es : Entries) :
    entries (es.map Leaf.stripped) = entries es := by
  cases es with
  | values vs =>
    simp only [Entries.map, entries, List.map_map]
    exact List.map_congr_left fun _ _ => rfl
  | pairs ps =>
    simp only [Entries.map, entries, List.map_map]
    exact List.map_congr_left fun _ _ => rfl

mutual

theorem Container.sketch_stripped : ∀ c : Container, c.stripped.sketch = c.sketch
  | ⟨items, _⟩ => by
    simp only [Container.stripped, Container.sketch, Item.sketchAll_stripped items]

theorem Item.sketchAll_stripped : ∀ items : List Item,
    Item.sketchAll (Item.strippedAll items) = Item.sketchAll items
  | [] => rfl
  | item :: items => by
    simp only [Item.strippedAll, Item.sketchAll, Item.sketch_stripped item,
      Item.sketchAll_stripped items]

/-- A stripped item says what the item says. -/
theorem Item.sketch_stripped : ∀ item : Item, item.stripped.sketch = item.sketch
  | .pair _ => rfl
  | .listing listing => by
    simp only [Item.stripped, Item.sketch, Listing.stripped, Projector.entries_stripped,
      Leaf.stripped]
  | .block ⟨key, colon, name?, opening, container, closing⟩ => by
    have hname : (name?.map Leaf.stripped).map Leaf.value = name?.map Leaf.value := by
      cases name? <;> rfl
    simp only [Item.stripped, Item.sketch, Block.stripped, Block.sketch, hname,
      Container.sketch_stripped container, Leaf.stripped]

end

theorem Document.sketch_stripped (d : Document) : d.stripped.sketch = d.sketch :=
  d.container.sketch_stripped

/-! ## Keys in place -/

theorem Entries.inPlace_stripped (es : Entries) :
    (es.map Leaf.stripped).InPlace ↔ es.InPlace := by
  cases es with
  | values vs => exact Iff.rfl
  | pairs ps => exact List.forall_mem_map

mutual

theorem Container.inPlace_stripped : ∀ c : Container, c.stripped.InPlace ↔ c.InPlace
  | ⟨items, _⟩ => by
    simp only [Container.stripped, Container.InPlace, Item.allInPlace_stripped items]

theorem Item.allInPlace_stripped : ∀ items : List Item,
    Item.AllInPlace (Item.strippedAll items) ↔ Item.AllInPlace items
  | [] => Iff.rfl
  | item :: items => by
    simp only [Item.strippedAll, Item.AllInPlace, Item.inPlace_stripped item,
      Item.allInPlace_stripped items]

theorem Item.inPlace_stripped : ∀ item : Item, item.stripped.InPlace ↔ item.InPlace
  | .pair _ => Iff.rfl
  | .listing listing => and_congr Iff.rfl listing.entries.inPlace_stripped
  | .block ⟨key, colon, name?, opening, container, closing⟩ => by
    simp only [Item.stripped, Item.InPlace, Block.stripped, Block.InPlace,
      Container.inPlace_stripped container, Leaf.stripped]

end

theorem Document.keysInPlace_stripped (d : Document) : d.stripped.KeysInPlace ↔ d.KeysInPlace :=
  d.container.inPlace_stripped

end LookML
