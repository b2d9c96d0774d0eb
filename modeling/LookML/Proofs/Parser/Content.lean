import LookML.Proofs.Parser.Lossless
import LookML.Proofs.Projection.Sketch

/-!
# Content — a parsed document says what its phrases say

A phrase keeps the text of an expression with its margins, a tree keeps the margins apart from the
value.  Where the value is the trimmed text, as it is in every document that was parsed, the phrase
of an item tells all that the item says.
-/

namespace LookML

/-! ## What a phrase says -/

/-- What a scalar means. -/
def Scalar.text : Scalar → String
  | word text => text
  | quoted _ text => text

def Datum.text : Datum → String
  | scalar s => s.text
  | expression text => Text.trim text

/-- The entries of a list as plain data. -/
def Row.plain : Row → List Value
  | values first more => (first :: more).map fun s => .string s.text
  | pairs first more => (first :: more).map fun p => Value.single p.1 (.string p.2.text)

namespace Phrase

mutual

/-- What an item says. -/
def sketch : Phrase → Sketch
  | pair key value => .pair key value.text
  | listing key _ row? => .listing key ((row?.map fun row => row.1.plain).getD [])
  | block key name? items => .block key name? (sketchAll items)

def sketchAll : List Phrase → List Sketch
  | [] => []
  | item :: items => item.sketch :: sketchAll items

end

end Phrase

/-! ## Trimmed trees -/

/-- Whether the value of a leaf is what it means as it is written. -/
def Leaf.IsTrimmed (leaf : Leaf) : Prop :=
  leaf.datum.text = leaf.value

theorem Leaf.text_scalar (leaf : Leaf) : leaf.scalar.text = leaf.value := by
  obtain ⟨form, value, before, after, line?⟩ := leaf
  rcases form with _ | (_ | raw) | _ | _ <;> rfl

theorem Leaf.isTrimmed_expressionOf (text : String) : (Leaf.expressionOf text).IsTrimmed := by
  rw [IsTrimmed, Leaf.datum_expressionOf]
  simp [Datum.text, Text.trim, Text.trimEnd, Text.trimStart, expressionOf]

mutual

def Block.IsTrimmed : Block → Prop
  | ⟨_, _, _, _, container, _⟩ => container.IsTrimmed

def Container.IsTrimmed : Container → Prop
  | ⟨items, _⟩ => Item.AllTrimmed items

def Item.AllTrimmed : List Item → Prop
  | [] => True
  | item :: items => item.IsTrimmed ∧ Item.AllTrimmed items

/-- Whether the values of the pairs in an item are what they mean. -/
def Item.IsTrimmed : Item → Prop
  | .pair pair => pair.value.IsTrimmed
  | .listing _ => True
  | .block block => block.IsTrimmed

end

theorem Entries.plain_row? (entries : Entries) :
    (entries.row?.map Row.plain).getD [] = Projector.entries entries := by
  rcases entries with vs | ps
  · rcases vs with _ | ⟨v, vs⟩
    · rfl
    · simp [row?, Row.plain, Projector.entries, Projector.leaf, Leaf.text_scalar, Function.comp_def]
  · rcases ps with _ | ⟨p, ps⟩
    · rfl
    · simp [row?, Row.plain, Projector.entries, Projector.pair, Projector.leaf, Pair.scalar,
        Leaf.text_scalar, Function.comp_def]

mutual

/-- In a trimmed tree, the phrase of an item says what the item says. -/
theorem Item.sketch_phrase : ∀ item : Item, item.IsTrimmed → item.phrase.sketch = item.sketch
  | .pair p, h => congrArg (Sketch.pair p.key.value) h
  | .listing l, _ => by
    have he := l.entries.plain_row?
    simp only [phrase, Listing.phrase, Phrase.sketch, sketch, Option.map_map, Function.comp_def]
      at he ⊢
    rw [he]
  | .block ⟨key, colon, name?, opening, ⟨items, topLevel⟩, closing⟩, h => by
    have hs := Item.sketchAll_phraseAll items h
    simp only [phrase, Block.phrase, Phrase.sketch, sketch, Block.sketch, Container.phrases,
      Container.sketch, hs]

theorem Item.sketchAll_phraseAll : ∀ items : List Item, Item.AllTrimmed items →
    Phrase.sketchAll (Item.phraseAll items) = Item.sketchAll items
  | [], _ => rfl
  | item :: items, h => by
    rw [phraseAll, Phrase.sketchAll, sketchAll, Item.sketch_phrase item h.1,
      Item.sketchAll_phraseAll items h.2]

end

theorem Document.sketch_phrases {d : Document} (h : d.container.IsTrimmed) :
    Phrase.sketchAll d.phrases = d.sketch := by
  obtain ⟨⟨items, topLevel⟩, before, after⟩ := d
  exact Item.sketchAll_phraseAll items h

/-! ## Parsed trees are trimmed -/

namespace Parser

open Production

variable {p q : Parser}

theorem isTrimmed_of_literal {leaf : Leaf} (h : literal p = .matched leaf q) :
    leaf.IsTrimmed := by
  cases literal_eq_matched h with
  | word => rfl
  | quoted => rfl
  | @expression text => exact Leaf.isTrimmed_expressionOf text

theorem isTrimmed_of_pair {pair : Pair} (h : Parser.pair p = .matched pair q) :
    pair.value.IsTrimmed := by
  obtain ⟨q, hb, -⟩ := attempt_eq_matched h
  simp only [bind_eq_matched, pure_apply, Reply.matched.injEq] at hb
  obtain ⟨kc, p₁, -, v, p₂, hv, rfl, -⟩ := hb
  obtain ⟨q', hv, -⟩ := attempt_eq_matched hv
  simp only [bind_eq_matched, pure_apply, Reply.matched.injEq] at hv
  obtain ⟨before, p₃, -, leaf, p₄, hl, rfl, -⟩ := hv
  have ht := isTrimmed_of_literal hl
  exact ht

theorem isTrimmed_of_itemOf {container : Production Container} (hs : Scripted container)
    (hc : ∀ {p q : Parser} {c : Container}, container p = .matched c q → c.IsTrimmed)
    {item : Item} (h : itemOf container p = .matched item q) : item.IsTrimmed := by
  obtain ⟨b, hb, rfl⟩ | ⟨p₁, -, ⟨pair, hp, rfl⟩ | ⟨l, -, rfl⟩⟩ := itemOf_eq_matched hs h
  · obtain ⟨q, hb, -⟩ := attempt_eq_matched hb
    simp only [bind_eq_matched, pure_apply, Reply.matched.injEq] at hb
    obtain ⟨kc, p₁, -, name?, p₂, -, opening, p₃, -, inner, p₄, hi, closing, p₅, -, rfl, -⟩ := hb
    exact hc hi
  · exact isTrimmed_of_pair hp
  · exact trivial

theorem allTrimmed_of_items {item : Production Item}
    (hi : ∀ {p q : Parser} {i : Item}, item p = .matched i q → i.IsTrimmed) {fuel : Nat}
    {list : List Item} (h : items item fuel p = .matched list q) : Item.AllTrimmed list := by
  induction fuel generalizing p list with
  | zero => simp [items, mismatch] at h
  | succ fuel ih =>
    obtain ⟨rfl, -⟩ | ⟨first, p₁, rest, hfirst, hrest, rfl⟩ := items_eq_matched h
    · exact trivial
    · exact ⟨hi hfirst, ih hrest⟩

theorem isTrimmed_of_containerWithin {fuel : Nat} {c : Container}
    (h : containerWithin fuel p = .matched c q) : c.IsTrimmed := by
  induction fuel generalizing p q c with
  | zero => simp [containerWithin, mismatch] at h
  | succ fuel ih =>
    have hs := scriptedContainerWithin fuel
    obtain ⟨list, p₁, hlist, -, hc⟩ := containerOf_eq_matched (scriptedItemOf hs) h
    obtain ⟨items, topLevel⟩ := c
    obtain rfl := Container.items_of hc
    exact allTrimmed_of_items (isTrimmed_of_itemOf hs ih) hlist

end Parser

/-- A document that was parsed is trimmed. -/
theorem isTrimmed_of_parse {source : String} {d : Document} (h : parse source = .ok d) :
    d.container.IsTrimmed := by
  obtain ⟨body, last, q, -, -, hq, -⟩ := document_of_parse h
  obtain ⟨p₁, p₂, p₃, p₄, -, -, -, hc, -⟩ :=
    Parser.document_eq_matched (Parser.rest_ofTokens _) hq
  exact Parser.isTrimmed_of_containerWithin hc

end LookML
