import LookML.Proofs.Syntax.Rebuilding

/-!
# Folding — a document with a change made to every leaf

A fold makes its change to each leaf once and keeps the tree around them, or stops if changed keys
repeat each other below the root (`Document.mapLeaves_cases`).  The walk of the result is the walk
of the document with the change made to each part.
-/

namespace LookML

/-! ## The walk of a map -/

section walk

variable (f : Leaf → Leaf)

/-- A document with every leaf changed. -/
def Document.map (d : Document) : Document :=
  { d with container := d.container.map f }

/-- A part with every leaf in it changed. -/
def Part.map : Part → Part
  | document d => document (d.map f)
  | container c => container (c.map f)
  | block b => block (b.map f)
  | listing list => listing (list.map f)
  | pair p => pair (p.map f)
  | leaf l => leaf (f l)

theorem Part.leaf?_map (part : Part) : (part.map f).leaf? = part.leaf?.map f := by
  cases part <;> rfl

theorem Part.ofLeaf?_map (leaf? : Option Leaf) :
    ofLeaf? (leaf?.map f) = (ofLeaf? leaf?).map (Part.map f) := by
  cases leaf? <;> rfl

theorem Pair.walk_map (pair : Pair) : (pair.map f).walk = pair.walk.map (Part.map f) := rfl

namespace Entries

theorem walkEach_map (entries : Entries) :
    (entries.map f).walkEach = entries.walkEach.map (List.map (Part.map f)) := by
  cases entries with
  | values vs => simp [walkEach, map, Part.map]
  | pairs ps => simp [walkEach, map, Pair.walk_map]

theorem walkRest_map (separators : List Leaf) (entries : List (List Part)) :
    walkRest (separators.map f) (entries.map (List.map (Part.map f))) =
      (walkRest separators entries).map (Part.map f) := by
  fun_induction walkRest separators entries with
  | case1 separators => rw [List.map_nil, walkRest, List.map_nil]
  | case2 entry entries ih =>
    rw [List.map_append, ← ih, List.map_cons, List.map_nil, walkRest]
  | case3 comma commas entry entries ih =>
    rw [List.map_cons, List.map_cons, walkRest, ih, List.map_cons, List.map_append, Part.map]

theorem walkJoined_map (separators : List Leaf) (entries : List (List Part)) :
    walkJoined (separators.map f) (entries.map (List.map (Part.map f))) =
      (walkJoined separators entries).map (Part.map f) := by
  cases entries with
  | nil => rfl
  | cons entry entries => rw [List.map_cons, walkJoined, walkJoined, List.map_append, walkRest_map]

end Entries

theorem Listing.walk_map (list : Listing) : (list.map f).walk = list.walk.map (Part.map f) := by
  have hrow := Entries.walkJoined_map f list.separators list.entries.walkEach
  rw [← Entries.walkEach_map] at hrow
  simp only [walk, List.map_append, ← Part.ofLeaf?_map, ← hrow]
  rfl

mutual

theorem Block.walk_map : ∀ block : Block, (block.map f).walk = block.walk.map (Part.map f)
  | ⟨key, colon, name?, opening, inner, closing⟩ => by
    rw [Block.map, Block.walk, Block.walk]
    simp only [List.map_append, List.map_cons, List.map_nil, Part.map, Block.map,
      ← Container.walk_map inner, ← Part.ofLeaf?_map]

/-- The walk of a changed container is that of the container, with each part changed. -/
theorem Container.walk_map : ∀ c : Container, (c.map f).walk = c.walk.map (Part.map f)
  | ⟨items, topLevel⟩ => by
    rw [Container.walk, List.map_cons, ← Item.walkAll_mapAll items, Part.map, Container.map,
      Container.walk]

theorem Item.walkAll_mapAll : ∀ items : List Item,
    Item.walkAll (Item.mapAll f items) = (Item.walkAll items).map (Part.map f)
  | [] => rfl
  | item :: items => by
    rw [Item.mapAll, Item.walkAll, Item.walkAll, List.map_append, Item.walk_map item,
      Item.walkAll_mapAll items]

theorem Item.walk_map : ∀ item : Item, (item.map f).walk = item.walk.map (Part.map f)
  | .pair pair => Pair.walk_map f pair
  | .listing list => Listing.walk_map f list
  | .block block => by
    rw [Item.map, Item.walk, Item.walk, Block.walk_map block]

end

theorem Document.walk_map (d : Document) : (d.map f).walk = d.walk.map (Part.map f) := by
  rw [walk, walk, List.map_cons, ← Container.walk_map]
  rfl

/-- The leaves of a changed document are its leaves, each changed. -/
theorem Document.leaves_map (d : Document) : (d.map f).leaves = d.leaves.map f := by
  rw [leaves, leaves, walk_map, List.filterMap_map, List.map_filterMap]
  exact congrArg (List.filterMap · d.walk) (funext (Part.leaf?_map f))

end walk

/-! ## The identity -/

theorem Pair.map_id (pair : Pair) : pair.map id = pair := rfl

theorem Entries.map_id (entries : Entries) : entries.map id = entries := by
  cases entries with
  | values vs => rw [map, List.map_id]
  | pairs ps => rw [map, funext Pair.map_id, List.map_id']

theorem Listing.map_id (list : Listing) : list.map id = list := by
  rw [map, Entries.map_id, List.map_id, Option.map_id]
  rfl

mutual

theorem Block.map_id : ∀ block : Block, block.map id = block
  | ⟨key, colon, name?, opening, inner, closing⟩ => by
    rw [Block.map, Container.map_id inner, Option.map_id]
    rfl

theorem Container.map_id : ∀ c : Container, c.map id = c
  | ⟨items, topLevel⟩ => by rw [Container.map, Item.mapAll_id items]

theorem Item.mapAll_id : ∀ items : List Item, Item.mapAll id items = items
  | [] => rfl
  | item :: items => by rw [Item.mapAll, Item.map_id item, Item.mapAll_id items]

theorem Item.map_id : ∀ item : Item, item.map id = item
  | .pair pair => by rw [Item.map, Pair.map_id]
  | .listing list => by rw [Item.map, Listing.map_id]
  | .block block => by rw [Item.map, Block.map_id block]

end

theorem Document.map_id (d : Document) : d.map id = d := by
  rw [map, Container.map_id]

/-! ## Folds -/

/-- Whether a change makes the keys of two items of a container equal, and not plural. -/
def Container.Clashes (f : Leaf → Leaf) (c : Container) : Prop :=
  ∃ i j : Fin c.items.length, i < j ∧
    (f c.items[i].keyLeaf).value = (f c.items[j].keyLeaf).value ∧
    Keys.isPlural (f c.items[i].keyLeaf).value = false

/-- Whether changed keys clash in some container of a document that may not repeat its keys. -/
def Document.HasClash (f : Leaf → Leaf) (d : Document) : Prop :=
  ∃ c, .container c ∈ d.walk ∧ c.topLevel = false ∧ c.Clashes f

/-- Whether each container of a document is the result of a check. -/
def Document.IsChecked (d : Document) : Prop :=
  ∀ c, .container c ∈ d.walk → Container.of c.items c.topLevel = .ok c

theorem Container.clashes_iff {f : Leaf → Leaf} {c : Container} :
    c.Clashes f ↔ ¬(c.map f).HasOwnKeys := by
  obtain ⟨items, topLevel⟩ := c
  have hkey (item : Item) : (item.map f).key = (f item.keyLeaf).value := by
    rw [Item.key, Item.keyLeaf_map]
  rw [HasOwnKeys, map, Item.mapAll_eq_map, List.pairwise_map, List.pairwise_iff_getElem]
  simp only [Clashes, hkey]
  push Not
  constructor
  · rintro ⟨i, j, hlt, heq, hplural⟩
    exact ⟨i, j, i.isLt, j.isLt, hlt, heq, by simpa using hplural⟩
  · rintro ⟨i, j, hi, hj, hlt, heq, hplural⟩
    exact ⟨⟨i, hi⟩, ⟨j, hj⟩, hlt, heq, by simpa using hplural⟩

theorem Document.container_mem_walk {c : Container} {d : Document} :
    .container c ∈ d.walk ↔ .container c ∈ d.container.walk := by
  simp [walk]

/-- No container of a document clashes exactly where all pass the check after the change. -/
theorem Document.not_hasClash_iff {f : Leaf → Leaf} {d : Document} :
    ¬d.HasClash f ↔ Part.AllPass f d.container.walk := by
  simp only [HasClash, Part.AllPass, container_mem_walk, Container.clashes_iff]
  push Not
  refine forall_congr' fun c => imp_congr_right fun _ => ?_
  rw [or_iff_not_imp_left, Bool.not_eq_true]

theorem Document.mapLeaves_eq_error {f : Leaf → Leaf} {d : Document} (h : d.HasClash f) :
    ∃ e, d.mapLeaves f = .error e := by
  obtain ⟨result, hresult, -, herror⟩ := (Transform.changes_ofLeaf f).rebuilds_onDocument d
  rw [← hasResult_id_iff.mp hresult] at herror
  -- A rebuild that goes through checks every container of the result.
  exact herror fun hpass => not_hasClash_iff.mpr hpass h

/-- A document is checked exactly if it has no clash as it is. -/
theorem Document.isChecked_iff {d : Document} : d.IsChecked ↔ ¬d.HasClash id := by
  rw [not_hasClash_iff]
  refine forall_congr' fun c => imp_congr container_mem_walk ?_
  obtain ⟨items, topLevel⟩ := c
  rw [Container.of_eq_ok_iff_hasOwnKeys, Container.map_id]
  exact and_iff_right rfl

theorem Document.isChecked_of_parse {source : String} {d : Document} (h : parse source = .ok d) :
    d.IsChecked :=
  isChecked_iff.mpr (not_hasClash_iff.mpr (allPass_of_parse h fun _ => rfl))

/-- A fold stops exactly where changed keys clash.  Otherwise it gives the document with the same
shape in which each leaf is changed once, so the change that does nothing gives the document. -/
theorem Document.mapLeaves_cases (f : Leaf → Leaf) (d : Document) :
    ((∃ e, d.mapLeaves f = .error e) ↔ d.HasClash f) ∧
      (¬d.HasClash f → d.mapLeaves f = .ok (d.map f)) ∧
      (d.map f).walk = d.walk.map (Part.map f) ∧ (d.map f).leaves = d.leaves.map f ∧
      (d.IsChecked → d.mapLeaves id = .ok d) := by
  have hok {g : Leaf → Leaf} (h : ¬d.HasClash g) : d.mapLeaves g = .ok (d.map g) :=
    mapLeaves_eq_ok (not_hasClash_iff.mp h)
  refine ⟨⟨?_, mapLeaves_eq_error⟩, hok, walk_map f d, leaves_map f d, fun hchecked => ?_⟩
  · rintro ⟨e, he⟩
    by_contra hno
    simp [hok hno] at he
  · rw [hok (isChecked_iff.mp hchecked), map_id]

/-- Two keys of a block that a change makes equal, and two lists with a plural key. -/
def Samples.distinct : String :=
  "view: v \x7b hidden: yes label: \"l\" filters: [a: \"1\"] filters: [b: \"2\"] \x7d"

theorem mapLeaves_cases_distinct : ∃ d, parse Samples.distinct = .ok d ∧ d.IsChecked ∧
    d.mapLeaves id = .ok d ∧
    d.HasClash ({ renames := [("label", "hidden")] } : Edit).renameLeaf ∧
    d.mapLeaves Edit.bareLeaf = .ok (d.map Edit.bareLeaf) := by
  have hrename : (parse Samples.distinct).toOption.map (fun d =>
      (d.mapLeaves ({ renames := [("label", "hidden")] } : Edit).renameLeaf).isOk) =
        some false := by
    decide +kernel
  obtain ⟨d, hd, hrename⟩ := exists_of_map_toOption hrename
  have hchecked := Document.isChecked_of_parse hd
  obtain ⟨-, -, -, -, hid⟩ := d.mapLeaves_cases id
  obtain ⟨hclash, -⟩ := d.mapLeaves_cases ({ renames := [("label", "hidden")] } : Edit).renameLeaf
  obtain ⟨-, hbare, -⟩ := d.mapLeaves_cases Edit.bareLeaf
  refine ⟨d, hd, hchecked, hid hchecked, hclash.mp ?_, hbare ?_⟩
  · cases hf : d.mapLeaves ({ renames := [("label", "hidden")] } : Edit).renameLeaf with
    | error e => exact ⟨e, rfl⟩
    | ok g => simp [hf, Except.isOk, Except.toBool] at hrename
  · -- A leaf keeps its value without its trivia, so the keys stay apart.
    exact Document.not_hasClash_iff.mpr (allPass_of_parse hd fun _ => rfl)

end LookML
