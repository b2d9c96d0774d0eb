import LookML.Proofs.Build.Building
import Mathlib.Data.List.Chain
import Mathlib.Data.List.Forall2

/-!
# Arrangement — where a builder breaks lines

The layout of a built document is a property of its tree and of the level of each part, without
reference to the order in which it was built.  An item stands on a line of its own, with a blank
line where it or its neighbour is a block; a list that is long or holds objects has an entry to a
line, and any other list stands on one line (`Value.isArranged_of_build`).
-/

namespace LookML

/-! ## Lines -/

namespace Layout

/-- A line break and the indent of a level. -/
def lineAt (layout : Layout) (level : Nat) : String :=
  "\n" ++ String.join (List.replicate level layout.indent)

/-- What stands before the first item of a row at a level: nothing at the root. -/
def beforeFirst (layout : Layout) (level : Nat) : String :=
  if level = 0 then "" else layout.lineAt level

end Layout

namespace Item

def isBlock : Item → Bool
  | block _ => true
  | _ => false

/-- Whether the second of two neighbours stands on a line of its own, behind a blank line if one
of them is a block. -/
def Parted (layout : Layout) (level : Nat) (previous item : Item) : Prop :=
  item.keyLeaf.before =
    (if previous.isBlock || item.isBlock then "\n" else "") ++ layout.lineAt level

end Item

/-! ## Arranged lists -/

/-- Whether a pair stands for a field with a text, which an expression has without its margins. -/
def Pair.Holds (field : String × Value) (pair : Pair) : Prop :=
  pair.key.value = field.1 ∧
    ∃ text, field.2 = .string text ∧ (pair.value.value = text ∨ pair.value.value = Text.trim text)

/-- Whether pairs stand for objects, one field after another. -/
def Pair.HoldObjects (source : List Value) (pairs : List Pair) : Prop :=
  ∃ objects : List (Object Value), source = objects.map .object ∧
    List.Forall₂ Pair.Holds (objects.flatMap Object.entries) pairs

/-- Whether the entries of a list stand for some values: texts, or objects, of which there is at
least one. -/
def Entries.Hold (source : List Value) : Entries → Prop
  | values vs => source = vs.map fun leaf => .string leaf.value
  | pairs ps => source ≠ [] ∧ Pair.HoldObjects source ps

/-- The leaves that the entries of a list begin with. -/
def Entries.firstLeaves : Entries → List Leaf
  | values vs => vs
  | pairs ps => ps.map Pair.key

/-- Whether a list of some values has an entry to a line: it holds an object, or is too long. -/
def Layout.BreaksList (layout : Layout) (source : List Value) : Prop :=
  (∃ value ∈ source, value.object?.isSome) ∨ layout.listThreshold < source.length

/-- How a list of the values `source` is laid out at a level. -/
structure Listing.IsArranged (layout : Layout) (level : Nat) (source : List Value)
    (list : Listing) : Prop where
  holds : list.entries.Hold source
  /-- An entry to a line, a comma after each, and the closing bracket on a line of its own. -/
  tall : layout.BreaksList source →
    (∀ leaf ∈ list.entries.firstLeaves, leaf.before = layout.lineAt (level + 1)) ∧
    list.separators = List.replicate (list.entries.length - 1) (.mark .comma) ∧
    list.trailing? = (if list.entries.isEmpty then none else some (.mark .comma)) ∧
    list.closing.before = layout.lineAt level
  /-- Everything on one line. -/
  flat : ¬layout.BreaksList source →
    (∀ leaf ∈ list.entries.firstLeaves, leaf.before = "") ∧
    list.separators =
      List.replicate (list.entries.length - 1) { Leaf.mark .comma with after := " " } ∧
    list.trailing? = none ∧ list.closing.before = ""

/-! ## Arranged trees -/

mutual

/-- A block with its container a level deeper and its closing brace on a line of its own, or right
after the opening brace if it has no items. -/
def Block.IsArranged (layout : Layout) (sources : List (List Value)) (level : Nat) : Block → Prop
  | ⟨_, _, _, _, container, closing⟩ =>
    container.IsArranged layout sources (level + 1) ∧
      closing.before = if container.items.isEmpty then "" else layout.lineAt level

/-- A container whose items are parted from each other and each arranged. -/
def Container.IsArranged (layout : Layout) (sources : List (List Value)) (level : Nat) :
    Container → Prop
  | ⟨items, _⟩ =>
    (∀ item ∈ items.head?, item.keyLeaf.before = layout.beforeFirst level) ∧
      items.IsChain (Item.Parted layout level) ∧ Item.AllArranged layout sources level items

def Item.AllArranged (layout : Layout) (sources : List (List Value)) (level : Nat) :
    List Item → Prop
  | [] => True
  | item :: items => item.IsArranged layout sources level ∧
      Item.AllArranged layout sources level items

/-- An item at a level, whose lists each stand for one of `sources`. -/
def Item.IsArranged (layout : Layout) (sources : List (List Value)) (level : Nat) : Item → Prop
  | .pair _ => True
  | .listing list => ∃ source ∈ sources, list.IsArranged layout level source
  | .block block => block.IsArranged layout sources level

end

variable {layout : Layout} {sources : List (List Value)} {level : Nat}

theorem Item.allArranged_append {a b : List Item} :
    AllArranged layout sources level (a ++ b) ↔
      AllArranged layout sources level a ∧ AllArranged layout sources level b := by
  induction a with
  | nil => simp [AllArranged]
  | cons item a ih => rw [List.cons_append, AllArranged, ih, AllArranged, and_assoc]

namespace Builder

variable {place : Place} {s t : State} {key text : String}

/-! ## Lists -/

/-- A pair stands for its field. -/
theorem holds_pair {p : Pair} (h : (pair place key text).run.run s = (.ok p, t)) :
    p.Holds (key, .string text) := by
  obtain ⟨-, -, rfl, -⟩ := pair_eq_ok h
  exact ⟨rfl, text, rfl, (value_valueLeaf_cases ..).imp_right And.right⟩

/-- Pairs that are built one after another at the start of a list are each on a line. -/
theorem before_pair {p : Pair} (h : (pair place key text).run.run s = (.ok p, t))
    (hs : s.previous = .opened ∨ s.previous = .pair) :
    p.key.before = place.layout.lineAt place.level ∧ t.previous = .pair := by
  obtain ⟨-, -, rfl, rfl⟩ := pair_eq_ok h
  refine ⟨?_, rfl⟩
  show place.beforeItem s.previous = _
  rcases hs with hs | hs <;> rw [hs] <;> rfl

theorem holds_fieldPairs {fields : List (String × Value)} {ps : List Pair}
    (h : (fieldPairs place fields).run.run s = (.ok ps, t))
    (hs : s.previous = .opened ∨ s.previous = .pair) :
    List.Forall₂ Pair.Holds fields ps ∧
      (∀ p ∈ ps, p.key.before = place.layout.lineAt place.level) ∧
      (t.previous = .opened ∨ t.previous = .pair) := by
  induction fields generalizing s t ps with
  | nil =>
    obtain ⟨rfl, rfl⟩ := run_pure_eq_ok.mp h
    exact ⟨.nil, by simp, hs⟩
  | cons field fields ih =>
    obtain ⟨key, value⟩ := field
    cases value with
    | string text =>
      simp only [fieldPairs, run_bind_eq_ok, run_pure_eq_ok] at h
      obtain ⟨first, s₁, hfirst, more, s₂, hmore, rfl, rfl⟩ := h
      obtain ⟨hbefore, hs₁⟩ := before_pair hfirst hs
      obtain ⟨hholds, hlines, hlast⟩ := ih hmore (.inr hs₁)
      exact ⟨.cons (holds_pair hfirst) hholds, List.forall_mem_cons.mpr ⟨hbefore, hlines⟩, hlast⟩
    | list values => cases h
    | object object => cases h

theorem holds_listPairs {values : List Value} {ps : List Pair}
    (h : (listPairs place key values).run.run s = (.ok ps, t))
    (hs : s.previous = .opened ∨ s.previous = .pair) :
    Pair.HoldObjects values ps ∧
      ∀ p ∈ ps, p.key.before = place.layout.lineAt place.level := by
  induction values generalizing s t ps with
  | nil =>
    obtain ⟨rfl, -⟩ := run_pure_eq_ok.mp h
    exact ⟨⟨[], rfl, .nil⟩, by simp⟩
  | cons value values ih =>
    cases value with
    | object fields =>
      simp only [listPairs, run_bind_eq_ok, run_pure_eq_ok] at h
      obtain ⟨first, s₁, hfirst, more, s₂, hmore, rfl, rfl⟩ := h
      obtain ⟨hfields, hlines, hs₁⟩ := holds_fieldPairs hfirst hs
      obtain ⟨⟨objects, rfl, hrest⟩, hrestlines⟩ := ih hmore hs₁
      refine ⟨⟨fields :: objects, rfl, ?_⟩, List.forall_mem_append.mpr ⟨hlines, hrestlines⟩⟩
      exact List.rel_append hfields hrest
    | string text => cases h
    | list values => cases h

theorem holds_listLeaves {before : String} {quotes : Bool} {values : List Value} {vs : List Leaf}
    (h : (listLeaves key before quotes values).run.run s = (.ok vs, t)) :
    (Entries.values vs).Hold values ∧ ∀ leaf ∈ vs, leaf.before = before := by
  induction values generalizing s t vs with
  | nil =>
    obtain ⟨rfl, -⟩ := run_pure_eq_ok.mp h
    exact ⟨rfl, by simp⟩
  | cons value values ih =>
    cases value with
    | string text =>
      simp only [listLeaves, run_bind_eq_ok, run_pure_eq_ok] at h
      obtain ⟨more, s₁, hmore, rfl, rfl⟩ := h
      obtain ⟨hholds, hbefore⟩ := ih hmore
      have htext : (entryLeaf key text quotes).value = text := value_entryLeaf key text quotes
      refine ⟨?_, List.forall_mem_cons.mpr ⟨rfl, hbefore⟩⟩
      show _ = _ :: _
      rw [← hholds, htext]
    | list values => cases h
    | object fields => cases h

theorem isTall_iff {values : List Value} :
    isTall layout values = true ↔ layout.BreaksList values := by
  simp [isTall, Layout.BreaksList]

/-- The entries of a list stand for its values, each on a line if the list is tall. -/
theorem holds_entries {values : List Value} {es : Entries}
    (h : (entries place key values).run.run s = (.ok es, t))
    (hs : isTall place.layout values = true → s.previous = .opened) :
    es.Hold values ∧ ∀ leaf ∈ es.firstLeaves, leaf.before =
      if isTall place.layout values then place.layout.lineAt (place.level + 1) else "" := by
  unfold entries at h
  dsimp only at h
  split at h <;> rename_i hany <;> simp only [run_bind_eq_ok, run_pure_eq_ok] at h
  · obtain ⟨ps, s₁, hps, rfl, -⟩ := h
    -- A list with an object is tall, so its pairs are a level deeper.
    have htall : isTall place.layout values = true := by simp [isTall, hany]
    rw [if_pos htall] at hps ⊢
    obtain ⟨hholds, hlines⟩ := holds_listPairs hps (.inl (hs htall))
    have hne : values ≠ [] := by
      rintro rfl
      exact absurd hany (by simp)
    exact ⟨⟨hne, hholds⟩, List.forall_mem_map.mpr hlines⟩
  · obtain ⟨vs, s₁, hvs, rfl, -⟩ := h
    obtain ⟨hholds, hbefore⟩ := holds_listLeaves hvs
    refine ⟨hholds, fun leaf hleaf => ?_⟩
    rw [hbefore leaf hleaf]
    split <;> rfl

/-- A list is arranged, with what its place wants before it. -/
theorem isArranged_listing {values : List Value} {l : Listing}
    (h : (listing place key values).run.run s = (.ok l, t)) :
    l.IsArranged place.layout place.level values ∧ l.key.before = place.beforeItem s.previous ∧
      t.previous = .list := by
  obtain ⟨-, es, r, r', hes, hr, rfl, rfl⟩ := listing_eq_ok h
  obtain ⟨hholds, hlines⟩ := holds_entries hes hr
  by_cases htall : isTall place.layout values = true
  · rw [if_pos htall] at hlines ⊢
    refine ⟨⟨hholds, fun _ => ⟨hlines, rfl, rfl, rfl⟩, fun hflat => ?_⟩, rfl, rfl⟩
    exact absurd (isTall_iff.mp htall) hflat
  · rw [if_neg htall] at hlines ⊢
    refine ⟨⟨hholds, fun hbreaks => ?_, fun _ => ⟨hlines, rfl, rfl, rfl⟩⟩, rfl, rfl⟩
    exact absurd (isTall_iff.mpr hbreaks) htall

/-! ## Rows of items -/

/-- What a builder remembers of an item. -/
def Previous.ofItem : Item → Previous
  | .pair _ => .pair
  | .listing _ => .list
  | .block _ => .block

/-- What a builder writes before an item. -/
def Place.beforeAny (place : Place) (previous : Previous) (item : Item) : String :=
  if item.isBlock then place.beforeBlock previous else place.beforeItem previous

/-- Next to an item, what a builder writes parts the two. -/
theorem Place.parted_of_before {previous item : Item}
    (h : item.keyLeaf.before = place.beforeAny (.ofItem previous) item) :
    Item.Parted place.layout place.level previous item := by
  rw [Item.Parted, h]
  cases previous <;> cases item <;> simp [Place.beforeAny, Item.isBlock, Previous.ofItem,
    Place.beforeBlock, Place.beforeItem, Place.newline, Layout.lineAt]

/-- The items that are built at a place from a state to a state: they are arranged, the first has
before it what follows from what was written last, and the last is what is remembered. -/
structure Arranged (sources : List (List Value)) (place : Place) (s : State) (items : List Item)
    (t : State) : Prop where
  arranged : Item.AllArranged place.layout sources place.level items
  first : ∀ item ∈ items.head?, item.keyLeaf.before = place.beforeAny s.previous item
  parted : items.IsChain (Item.Parted place.layout place.level)
  last : t.previous = (items.getLast?.map Previous.ofItem).getD s.previous

namespace Arranged

theorem nil (h : t.previous = s.previous) : Arranged sources place s [] t where
  arranged := trivial
  first := by simp
  parted := .nil
  last := h

theorem single {item : Item} (ha : item.IsArranged place.layout sources place.level)
    (hb : item.keyLeaf.before = place.beforeAny s.previous item)
    (ht : t.previous = .ofItem item) : Arranged sources place s [item] t where
  arranged := ⟨ha, trivial⟩
  first := by simpa using hb
  parted := .singleton item
  last := ht

theorem append {a b : List Item} {r : State} (ha : Arranged sources place s a r)
    (hb : Arranged sources place r b t) : Arranged sources place s (a ++ b) t where
  arranged := Item.allArranged_append.mpr ⟨ha.arranged, hb.arranged⟩
  first := by
    cases a with
    | nil =>
      have hr : r.previous = s.previous := ha.last
      exact hr ▸ hb.first
    | cons item a => exact ha.first
  parted := by
    refine List.isChain_append.mpr ⟨ha.parted, hb.parted, fun last hlast item hitem => ?_⟩
    -- What was written last before `b` is the last item of `a`.
    have hr : r.previous = .ofItem last := by
      rw [ha.last, Option.mem_def.mp hlast]
      rfl
    exact Place.parted_of_before (hr ▸ hb.first item hitem)
  last := by
    rw [hb.last, ha.last, List.getLast?_append]
    cases b.getLast? <;> rfl

end Arranged

/-- A block is arranged if its content is, a level deeper. -/
theorem arranged_blockAround {name? : Option String} {content : Place → Building (List Item)}
    (hc : ∀ {s t : State} {items : List Item},
      (content (place.inside key)).run.run s = (.ok items, t) →
        Arranged sources (place.inside key) s items t)
    {b : Block} (h : (blockAround place key name? content).run.run s = (.ok b, t)) :
    Arranged sources place s [.block b] t := by
  obtain ⟨-, -, items, r, ⟨inner, topLevel⟩, hitems, hof, rfl, rfl⟩ := blockAround_eq_ok h
  obtain rfl := Container.items_of hof
  have hinner := hc hitems
  refine .single ⟨⟨fun item hitem => ?_, hinner.parted, hinner.arranged⟩, rfl⟩ rfl rfl
  rw [hinner.first item hitem, Layout.beforeFirst, if_neg (Nat.succ_ne_zero _)]
  cases item <;> rfl

/-- Whatever is built from some lists is arranged. -/
theorem builds_arranged (sources : List (List Value)) :
    Builds (fun _ => True) (· ∈ sources) (Arranged sources) where
  inside _ hp := hp
  nil := .nil
  append := .append
  pair _ h := by
    obtain ⟨-, -, rfl, rfl⟩ := pair_eq_ok h
    exact .single trivial rfl rfl
  listing _ hS h := by
    obtain ⟨harranged, hbefore, hlast⟩ := isArranged_listing h
    exact .single ⟨_, hS, harranged⟩ hbefore hlast
  block _ hc h := arranged_blockAround hc h

end Builder

/-- Whether a document is arranged as a builder arranges the lists `sources`. -/
def Document.IsArranged (layout : Layout) (sources : List (List Value)) (d : Document) : Prop :=
  d.container.IsArranged layout sources 0

/-- A built document is arranged by its layout, and each list in it by the list of plain data that
it stands for. -/
theorem Value.isArranged_of_build {layout : Layout} {value : Value} {d : Document}
    (h : (value.build layout).1 = .ok d) : d.IsArranged layout value.lists := by
  cases value with
  | object fields =>
    have hrun : (Builder.document layout (.object fields)).run.run {} =
        (.ok d, ((Builder.document layout (.object fields)).run.run {}).2) := Prod.ext h rfl
    simp only [Builder.document, run_bind_eq_ok, run_pure_eq_ok] at hrun
    obtain ⟨items, s, hitems, rfl, -⟩ := hrun
    have harranged := (Builder.builds_arranged (listsIn fields.entries)).members
      fields.entries trivial (fun _ hlist => hlist) hitems
    refine ⟨fun item hitem => ?_, harranged.parted, harranged.arranged⟩
    -- Nothing stands before the first item, of whatever form it is.
    rw [harranged.first item hitem]
    cases item <;> rfl
  | string text => cases h
  | list values => cases h

/-- Blocks next to a text, a list and each other, one of them with nothing but a name, and lists of
texts and of objects. -/
def Samples.neighbours : Value :=
  .object ⟨[("label", .string "l"),
    ("views", .list [.object ⟨[("name", .string "v")]⟩,
      .object ⟨[("tags", .list [.string "a", .string "b"]),
        ("dimensions", .list [.object ⟨[("sql", .string " c "), ("name", .string "d")]⟩]),
        ("sorts", .list [.object ⟨[("x", .string "asc"), ("y", .string "desc")]⟩, .object {}]),
        ("fields", .list [.string "a", .string "b", .string "c"])]⟩])]⟩

theorem isArranged_of_build_neighbours :
    ∃ d, (Samples.neighbours.build ⟨"  ", 2⟩).1 = .ok d ∧
      d.IsArranged ⟨"  ", 2⟩ Samples.neighbours.lists ∧
      d.print = "label: \"l\"\n\nview: v \x7b\x7d\n\nview: \x7b\n  tags: [\"a\", \"b\"]\n\n" ++
        "  dimension: d \x7b\n    sql: c ;;\n  \x7d\n\n" ++
        "  sorts: [\n    x: asc,\n    y: desc,\n  ]\n" ++
        "  fields: [\n    a,\n    b,\n    c,\n  ]\n\x7d" := by
  have h : (Samples.neighbours.build ⟨"  ", 2⟩).1 = .ok _ := rfl
  exact ⟨_, h, Value.isArranged_of_build h, by decide +kernel⟩

end LookML
