import LookML.Proofs.Respelling.Text
import LookML.Syntax.Tree

/-!
# Respelled trees — a syntax tree with every leaf changed

A tree is mapped leaf by leaf and keeps its shape.  Respelling maps the texts of each leaf; since
a respelling is injective and keeps plural keys apart from the others, a container repeats a key
exactly if the respelled one does.
-/

namespace LookML

/-! ## Maps -/

section map

variable (f : Leaf → Leaf)

def Pair.map (pair : Pair) : Pair :=
  { key := f pair.key, colon := f pair.colon, value := f pair.value }

def Entries.map : Entries → Entries
  | values vs => values (vs.map f)
  | pairs ps => pairs (ps.map (Pair.map f))

def Listing.map (listing : Listing) : Listing :=
  { key := f listing.key
    colon := f listing.colon
    opening := f listing.opening
    leading? := listing.leading?.map f
    entries := listing.entries.map f
    separators := listing.separators.map f
    trailing? := listing.trailing?.map f
    closing := f listing.closing }

mutual

def Block.map : Block → Block
  | ⟨key, colon, name?, opening, container, closing⟩ =>
    ⟨f key, f colon, name?.map f, f opening, container.map, f closing⟩

def Container.map : Container → Container
  | ⟨items, topLevel⟩ => ⟨Item.mapAll items, topLevel⟩

def Item.mapAll : List Item → List Item
  | [] => []
  | item :: items => item.map :: Item.mapAll items

/-- An item with every leaf changed. -/
def Item.map : Item → Item
  | .pair pair => .pair (pair.map f)
  | .listing listing => .listing (listing.map f)
  | .block block => .block block.map

end

theorem Item.mapAll_eq_map (items : List Item) : Item.mapAll f items = items.map (Item.map f) := by
  induction items with
  | nil => rfl
  | cons item items ih => rw [mapAll, ih, List.map_cons]

theorem Item.keyLeaf_map (item : Item) : (item.map f).keyLeaf = f item.keyLeaf := by
  rcases item with pair | listing | ⟨key, colon, name?, opening, container, closing⟩
  · rfl
  · rfl
  · simp only [Item.map, Block.map, keyLeaf]

end map

/-! ## Respelled leaves -/

namespace Respelling

variable (r : Respelling)

/-- How a value is written, its meaning given. -/
def form (value : String) : Form → Form
  | .word => .word
  | .quoted raw? => .quoted (raw?.map (r.raw · value))
  | .expression left right => .expression (r.text left) (r.text right)
  | .mark m => .mark m

/-- A leaf on the same line with its value, its raw text, its margins and its trivia respelled. -/
def leaf (leaf : Leaf) : Leaf where
  form := r.form leaf.value leaf.form
  value := r.text leaf.value
  before := r.text leaf.before
  after := r.text leaf.after
  line? := leaf.line?

def document (document : Document) : Document where
  container := document.container.map r.leaf
  before := r.text document.before
  after := r.text document.after

theorem isExpression_leaf (leaf : Leaf) : (r.leaf leaf).isExpression = leaf.isExpression := by
  obtain ⟨form, value, before, after, line?⟩ := leaf
  cases form <;> rfl

theorem leaf_expressionOf (text before after : String) (line? : Option Nat) :
    r.leaf { Leaf.expressionOf text with before, after, line? } =
      { Leaf.expressionOf (r.text text) with
        before := r.text before, after := r.text after, line? } := by
  simp only [leaf, form, Leaf.expressionOf, toList_text, takeWhile_chars, dropWhile_chars,
    dropTrailing_chars, takeTrailing_chars, text_ofList]

theorem leaf_mark (m : Mark) (before after : String) (line? : Option Nat) :
    r.leaf { Leaf.mark m with before, after, line? } =
      { Leaf.mark m with before := r.text before, after := r.text after, line? } := by
  simp [leaf, form, Leaf.mark, text_symbol]

/-! ## Respelled containers -/

theorem key_map (item : Item) : (item.map r.leaf).key = r.text item.key := by
  rw [Item.key, Item.keyLeaf_map]
  rfl

theorem line?_map (item : Item) : (item.map r.leaf).line? = item.line? := by
  rw [Item.line?, Item.keyLeaf_map]
  rfl

theorem firstRepeat?_map (seen : List String) (items : List Item) :
    Container.firstRepeat? (seen.map r.text) (Item.mapAll r.leaf items) =
      (Container.firstRepeat? seen items).map (Item.map r.leaf) := by
  induction items generalizing seen with
  | nil => rfl
  | cons item items ih =>
    have hseen : (seen.map r.text).contains (r.text item.key) = seen.contains item.key := by
      rw [Bool.eq_iff_iff, List.contains_iff_mem, List.contains_iff_mem,
        List.mem_map_of_injective r.text_injective]
    rw [Item.mapAll, Container.firstRepeat?, Container.firstRepeat?, key_map, hseen, isPlural_text]
    by_cases h : (seen.contains item.key && !Keys.isPlural item.key) = true
    · rw [if_pos h, if_pos h]
      rfl
    · rw [if_neg h, if_neg h]
      exact ih (item.key :: seen)

/-- A repeated key, respelled. -/
def duplicate (e : DuplicateKey) : DuplicateKey :=
  { e with key := r.text e.key }

theorem of_mapAll (items : List Item) (topLevel : Bool) :
    Container.of (Item.mapAll r.leaf items) topLevel =
      ((Container.of items topLevel).map (Container.map r.leaf)).mapError r.duplicate := by
  unfold Container.of
  cases topLevel with
  | true => simp [Except.map, Except.mapError, Container.map]
  | false =>
    have h := r.firstRepeat?_map [] items
    rw [List.map_nil] at h
    rw [h]
    cases Container.firstRepeat? [] items with
    | none => simp [Except.map, Except.mapError, Container.map]
    | some item => simp [Except.map, Except.mapError, duplicate, key_map, line?_map]

end Respelling

end LookML
