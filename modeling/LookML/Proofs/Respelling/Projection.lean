import LookML.Proofs.Projection.Sketch
import LookML.Proofs.Respelling.Tree

/-!
# Respelled projections — the same data with its texts respelled

A projection looks at keys only, to find their slots.  Where a respelling keeps the words of a
tree, and so its keys, the respelled tree goes into the same slots: its projection is that of the
tree with the texts respelled, or the same error, and it warns of the same keys.
-/

namespace LookML

/-! ## Values -/

namespace Object

variable {α β : Type} (f : α → β)

def mapValues (object : Object α) : Object β :=
  ⟨object.entries.map fun entry => (entry.1, f entry.2)⟩

theorem get?_mapValues (object : Object α) (key : String) :
    (object.mapValues f).get? key = (object.get? key).map f := by
  obtain ⟨entries⟩ := object
  unfold get? mapValues
  induction entries with
  | nil => rfl
  | cons entry rest ih =>
    rw [List.map_cons, List.lookup_cons, List.lookup_cons]
    cases key == entry.1 with
    | true => rfl
    | false => exact ih

theorem contains_mapValues (object : Object α) (key : String) :
    (object.mapValues f).contains key = object.contains key := by
  simp [contains, mapValues, Function.comp_def]

theorem set_mapValues (object : Object α) (key : String) (value : α) :
    (object.mapValues f).set key (f value) = (object.set key value).mapValues f := by
  obtain ⟨entries⟩ := object
  simp only [set, mapValues, mk.injEq]
  induction entries with
  | nil => rfl
  | cons entry rest ih =>
    rw [List.map_cons, setFirst, setFirst, ih]
    split <;> rfl

theorem insert_mapValues (object : Object α) (key : String) (value : α) :
    (object.mapValues f).insert key (f value) = (object.insert key value).mapValues f := by
  unfold insert
  rw [contains_mapValues, set_mapValues]
  split
  · rfl
  · simp [mapValues]

end Object

namespace Value

variable (f : String → String)

mutual

/-- A value with every text changed; its keys stay. -/
def map : Value → Value
  | string text => string (f text)
  | list items => list (mapAll items)
  | object ⟨entries⟩ => object ⟨mapEntries entries⟩

def mapAll : List Value → List Value
  | [] => []
  | value :: values => value.map :: mapAll values

def mapEntries : List (String × Value) → List (String × Value)
  | [] => []
  | (key, value) :: entries => (key, value.map) :: mapEntries entries

end

theorem mapAll_eq_map (values : List Value) : mapAll f values = values.map (map f) := by
  induction values with
  | nil => rfl
  | cons value values ih => rw [mapAll, ih, List.map_cons]

theorem map_object (fields : Object Value) :
    (object fields).map f = object (fields.mapValues (map f)) := by
  obtain ⟨entries⟩ := fields
  rw [map, Object.mapValues]
  congr 2
  induction entries with
  | nil => rfl
  | cons entry entries ih => rw [mapEntries, ih, List.map_cons]

theorem map_list (values : List Value) : (list values).map f = list (values.map (map f)) := by
  rw [map, mapAll_eq_map]

end Value

/-! ## Projections -/

namespace Projector

variable {α β γ δ : Type}

/-- From every state the second projection runs as the first, with `g` of its result. -/
def Maps (g : α → β) (x : Projecting α) (y : Projecting β) : Prop :=
  ∀ state, y.run.run state = ((x.run.run state).1.map g, (x.run.run state).2)

namespace Maps

variable {g : α → β} {h : γ → δ} {x : Projecting α} {y : Projecting β}

theorem pure (a : α) : Maps g (pure a) (pure (g a)) := fun _ => rfl

theorem throw (e : ProjectionError) : Maps g (throw e) (throw e) := fun _ => rfl

theorem bind {f : α → Projecting γ} {k : β → Projecting δ} (hx : Maps g x y)
    (hf : ∀ a, Maps h (f a) (k (g a))) : Maps h (x >>= f) (y >>= k) := by
  intro state
  rw [run_bind, run_bind, hx state]
  rcases x.run.run state with ⟨e | a, after⟩
  · rfl
  · exact hf a after

theorem bind_same {x : Projecting α} {f : α → Projecting γ} {k : α → Projecting δ}
    (hf : ∀ a, Maps h (f a) (k a)) : Maps h (x >>= f) (x >>= k) := by
  intro state
  rw [run_bind, run_bind]
  rcases x.run.run state with ⟨e | a, after⟩
  · rfl
  · exact hf a after

theorem nested (hx : Maps g x y) : Maps g (nested x) (nested y) := by
  intro state
  have hy : y.run.run { state with depth := state.depth + 1 } = _ := hx _
  rw [run_nested, run_nested, hy]

end Maps

variable (f : String → String)

/-- The fields with every text changed. -/
abbrev mapFields (fields : Object Value) : Object Value :=
  fields.mapValues (Value.map f)

theorem gather_map (target : Object Value) (slot : String) (value : Value) :
    gather (mapFields f target) slot (value.map f) =
      (gather target slot value).map (mapFields f) := by
  unfold gather
  rw [Object.get?_mapValues]
  cases target.get? slot with
  | none =>
    simp only [Option.map_none, Option.map_some, mapFields]
    rw [← Object.insert_mapValues, Value.map_list, List.map_singleton]
  | some old =>
    cases old with
    | string text => simp [Value.map]
    | object fields => simp [Value.map_object]
    | list values =>
      simp only [Option.map_some, Value.map_list, mapFields]
      rw [← Object.set_mapValues, Value.map_list, List.map_append, List.map_singleton]

theorem maps_merge (target : Object Value) (key : String) (value : Value) (line? : Option Nat) :
    Maps (mapFields f) (merge target key value line?)
      (merge (mapFields f target) key (value.map f) line?) := by
  unfold merge
  rw [gather_map, Object.contains_mapValues, Object.insert_mapValues]
  split
  · cases gather target (Keys.pluralize key) value with
    | none => exact .throw _
    | some gathered => exact .pure gathered
  · split
    · refine .bind_same fun state => ?_
      split
      · exact .bind_same fun _ => .pure _
      · exact .throw _
    · exact .pure _

/-- An entry with every text changed. -/
def mapEntry (entry : String × Value) : String × Value :=
  (entry.1, entry.2.map f)

variable (r : Respelling)

theorem leaf_leaf (l : Leaf) : leaf (r.leaf l) = (leaf l).map r.text := by
  rw [leaf, leaf, Value.map]
  rfl

theorem pair_map {p : Pair} (h : r.text p.key.value = p.key.value) :
    pair (p.map r.leaf) = mapEntry r.text (pair p) := by
  rw [pair, pair, mapEntry, ← leaf_leaf]
  exact Prod.ext h rfl

theorem entries_values (values : List Leaf) : entries (.values (values.map r.leaf)) =
    (entries (.values values)).map (Value.map r.text) := by
  simp [entries, leaf_leaf, Function.comp_def]

theorem entries_pairs {pairs : List Pair} (h : ∀ p ∈ pairs, r.text p.key.value = p.key.value) :
    entries (.pairs (pairs.map (Pair.map r.leaf))) =
      (entries (.pairs pairs)).map (Value.map r.text) := by
  simp only [entries, List.map_map]
  refine List.map_congr_left fun p hp => ?_
  simp only [Function.comp_apply, pair_map r (h p hp), mapEntry, Value.single, Value.map_object]
  rfl

theorem named_map (name? : Option Leaf) (fields : Object Value) :
    named (name?.map r.leaf) (mapFields r.text fields) = mapFields r.text (named name? fields) := by
  cases name? with
  | none => rfl
  | some name =>
    simp only [Option.map_some, named, leaf_leaf]
    exact Object.insert_mapValues _ fields "name" (leaf name)

/-! ## Trees whose words stay -/

/-- Whether a respelling keeps the words of a sentence. -/
def KeepsWords (lexemes : List Lexeme) : Prop :=
  ∀ word, .word word ∈ lexemes → r.text word = word

variable {r}

theorem KeepsWords.left {a b : List Lexeme} (h : KeepsWords r (a ++ b)) : KeepsWords r a :=
  fun word hw => h word (List.mem_append_left b hw)

theorem KeepsWords.right {a b : List Lexeme} (h : KeepsWords r (a ++ b)) : KeepsWords r b :=
  fun word hw => h word (List.mem_append_right a hw)

theorem KeepsWords.key {i : Item} (h : KeepsWords r i.phrase.lexemes) :
    r.text i.key = i.key := by
  obtain ⟨rest, hrest⟩ := i.phrase.lexemes_eq_cons
  apply h
  rw [hrest, i.key_phrase]
  exact List.mem_cons_self

theorem mem_lexemes_row (first : Pair) (more : List Pair) : ∀ p ∈ first :: more,
    .word p.key.value ∈ (Row.pairs first.scalar (more.map Pair.scalar)).lexemes := by
  intro p hp
  rw [Row.lexemes, List.mem_append]
  rcases List.mem_cons.mp hp with rfl | hp
  · exact .inl (by simp [Row.pairLexemes, Lexeme.key, Pair.scalar])
  · refine .inr (List.mem_flatMap.mpr ⟨p.scalar, List.mem_map_of_mem hp, ?_⟩)
    simp [Row.pairLexemes, Lexeme.key, Pair.scalar]

/-- The keys in a list are words of the list. -/
theorem KeepsWords.pairs {listing : Listing} (h : KeepsWords r listing.phrase.lexemes)
    {pairs : List Pair} (he : listing.entries = .pairs pairs) :
    ∀ p ∈ pairs, r.text p.key.value = p.key.value := by
  intro p hp
  apply h
  cases pairs with
  | nil => simp at hp
  | cons first more =>
    have := mem_lexemes_row first more p hp
    simp [Listing.phrase, Phrase.lexemes, he, Entries.row?, Row.lexemes?, this]

theorem listing_map {l : Listing} (h : KeepsWords r l.phrase.lexemes) :
    listing (l.map r.leaf) = mapEntry r.text (listing l) := by
  have hkey : r.text l.key.value = l.key.value := KeepsWords.key (i := .listing l) h
  have hentries : entries (l.entries.map r.leaf) = (entries l.entries).map (Value.map r.text) := by
    cases he : l.entries with
    | values values => exact entries_values r values
    | pairs pairs => exact entries_pairs r (h.pairs he)
  rw [listing, listing, mapEntry, Value.map_list, ← hentries]
  exact Prod.ext hkey rfl

theorem maps_container {list : List Item} (topLevel : Bool)
    (h : Maps (mapFields r.text) (items {} list) (items {} (Item.mapAll r.leaf list))) :
    Maps (mapFields r.text) (container ⟨list, topLevel⟩)
      (container ⟨Item.mapAll r.leaf list, topLevel⟩) := by
  cases list with
  | nil => exact .pure ({} : Object Value)
  | cons first rest => exact h.nested

mutual

theorem maps_item : ∀ (i : Item), KeepsWords r i.phrase.lexemes →
    Maps (mapEntry r.text) (item i) (item (i.map r.leaf))
  | .pair p, h => by
    rw [Item.map, item, item, pair_map r h.key]
    exact .pure (pair p)
  | .listing l, h => by
    rw [Item.map, item, item, listing_map h]
    exact .pure (listing l)
  | .block ⟨key, colon, name?, opening, ⟨inner, topLevel⟩, closing⟩, h => by
    have hkey : r.text key.value = key.value := h.key
    have hinner : KeepsWords r (Phrase.lexemesAll (Item.phraseAll inner)) := fun word hw =>
      h word (by simp [Item.phrase, Block.phrase, Container.phrases, Phrase.lexemes, hw])
    rw [Item.map, Block.map, Container.map, item, item, block, block]
    refine (maps_container topLevel (maps_items inner {} hinner)).bind fun fields => ?_
    have hentry : (r.text key.value, Value.object (named (name?.map r.leaf)
        (mapFields r.text fields))) =
        mapEntry r.text (key.value, .object (named name? fields)) := by
      rw [mapEntry, Value.map_object, named_map, hkey]
    exact hentry ▸ Maps.pure (g := mapEntry r.text) (key.value, .object (named name? fields))

theorem maps_items : ∀ (list : List Item) (target : Object Value),
    KeepsWords r (Phrase.lexemesAll (Item.phraseAll list)) →
    Maps (mapFields r.text) (items target list)
      (items (mapFields r.text target) (Item.mapAll r.leaf list))
  | [], target, _ => .pure target
  | first :: rest, target, h => by
    rw [Item.phraseAll, Phrase.lexemesAll] at h
    rw [Item.mapAll, items, items, r.line?_map]
    exact (maps_item first h.left).bind fun entry =>
      (maps_merge r.text target entry.1 entry.2 first.line?).bind fun target =>
        maps_items rest target h.right

end

end Projector

/-- A document whose words a respelling keeps is projected to the same data with its texts
respelled, or to the same error, with the same warnings. -/
theorem Respelling.project_document {r : Respelling} {d : Document}
    (h : Projector.KeepsWords r (Phrase.lexemesAll d.phrases)) :
    (r.document d).project = (d.project.1.map (Value.map r.text), d.project.2) := by
  obtain ⟨⟨list, topLevel⟩, before, after⟩ := d
  have hrun : ((Projector.container ⟨Item.mapAll r.leaf list, topLevel⟩).run.run {}) = _ :=
    Projector.maps_container topLevel (Projector.maps_items list {} h) {}
  unfold Document.project Projector.document Respelling.document
  dsimp only
  rw [Container.map, hrun]
  rcases ((Projector.container ⟨list, topLevel⟩).run.run {}) with ⟨e | fields, state⟩
  · rfl
  · exact congrArg (fun v => (Except.ok v, state.warnings.reverse))
      (Value.map_object r.text fields).symm

end LookML
