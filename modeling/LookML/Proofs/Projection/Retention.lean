import LookML.Parse
import LookML.Proofs.Projection.Distinct

/-!
# Retention — which texts of a document its plain data keeps

Without warnings, each item of a document adds its texts to the plain data, and a slot that is
taken is an error.  There is one exception: the name of a block is put in its field `name` without
a check, and replaces what an item of the block put there.
-/

namespace LookML

/-! ## Texts -/

namespace Value

mutual

/-- The texts of a value, without its keys. -/
def texts : Value → List String
  | string text => [text]
  | list items => textsAll items
  | object ⟨entries⟩ => textsEntries entries

def textsAll : List Value → List String
  | [] => []
  | value :: values => value.texts ++ textsAll values

def textsEntries : List (String × Value) → List String
  | [] => []
  | (_, value) :: entries => value.texts ++ textsEntries entries

end

theorem texts_list (values : List Value) : (list values).texts = values.flatMap texts := by
  rw [texts]
  induction values with
  | nil => rfl
  | cons value values ih => rw [textsAll, ih, List.flatMap_cons]

theorem texts_object (fields : Object Value) :
    (object fields).texts = fields.entries.flatMap fun entry => entry.2.texts := by
  obtain ⟨entries⟩ := fields
  rw [texts]
  induction entries with
  | nil => rfl
  | cons entry entries ih => rw [textsEntries, ih, List.flatMap_cons]

end Value

/-- The values in a list. -/
def Entries.texts : Entries → List String
  | values vs => vs.map Leaf.value
  | pairs ps => ps.map fun pair => pair.value.value

mutual

def Block.texts : Block → List String
  | ⟨_, _, name?, _, container, _⟩ => (name?.map Leaf.value).toList ++ container.texts

def Container.texts : Container → List String
  | ⟨items, _⟩ => Item.textsAll items

def Item.textsAll : List Item → List String
  | [] => []
  | item :: items => item.texts ++ Item.textsAll items

/-- The values of pairs, the plain values of lists and the names of blocks in an item. -/
def Item.texts : Item → List String
  | .pair pair => [pair.value.value]
  | .listing listing => listing.entries.texts
  | .block block => block.texts

end

def Document.texts (document : Document) : List String :=
  document.container.texts

mutual

def Block.lost : Block → List String
  | ⟨_, _, name?, _, container, _⟩ => container.lost name?.isSome

/-- The texts that are lost in a container, which may be that of a block with a name. -/
def Container.lost (named : Bool) : Container → List String
  | ⟨items, _⟩ => Item.lostAll named items

def Item.lostAll (named : Bool) : List Item → List String
  | [] => []
  | item :: items =>
    (if named && item.key == "name" then item.texts else item.lost) ++ Item.lostAll named items

/-- The texts of items under `name` in a block with a name. -/
def Item.lost : Item → List String
  | .pair _ | .listing _ => []
  | .block block => block.lost

end

def Document.lost (document : Document) : List String :=
  document.container.lost false

/-! ## Fields -/

/-- The texts of some fields, without those under `name` where a name will replace them. -/
def Object.textsBeside (named : Bool) (fields : Object Value) : List String :=
  fields.entries.flatMap fun entry => if named && entry.1 == "name" then [] else entry.2.texts

namespace Projector

theorem ne_name_of_isPlural {key : String} (h : Keys.isPlural key = true) :
    key ≠ "name" ∧ Keys.pluralize key ≠ "name" := by
  have : ∀ key ∈ Keys.pluralKeys, key ≠ "name" ∧ Keys.pluralize key ≠ "name" := by decide +kernel
  exact this key (by simpa [Keys.isPlural] using h)

theorem textsBeside_insert {target : Object Value} {key : String} (h : key ∉ target.keys)
    (named : Bool) (value : Value) : (target.insert key value).textsBeside named =
      target.textsBeside named ++ if named && key == "name" then [] else value.texts := by
  rw [Object.insert_of_notMem h]
  simp [Object.textsBeside]

/-- Gathering a value adds its texts. -/
theorem textsBeside_gather {target fields : Object Value} {slot : String} {value : Value}
    (hs : slot ≠ "name") (h : gather target slot value = some fields) (named : Bool) :
    (fields.textsBeside named).Perm (target.textsBeside named ++ value.texts) := by
  unfold gather at h
  have hslot : (named && slot == "name") = false := by simp [hs]
  cases hg : target.get? slot with
  | none =>
    rw [hg] at h
    obtain rfl := Option.some.inj h
    rw [textsBeside_insert (Object.notMem_of_get? hg), hslot]
    simp [Value.texts_list]
  | some old =>
    rw [hg] at h
    cases old with
    | string text => simp at h
    | object inner => simp at h
    | list values =>
      obtain rfl := Option.some.inj h
      obtain ⟨a, b, hsplit, -, hset⟩ := Object.entries_of_get? hg
      have hset' : (target.set slot (.list (values ++ [value]))).entries = _ := hset _
      simp only [Object.textsBeside, hset', hsplit, List.flatMap_append, List.flatMap_cons, hslot,
        Value.texts_list, List.flatMap_nil, List.append_nil, List.append_assoc,
        Bool.false_eq_true, if_false]
      exact .append_left _ (.append_left _ List.perm_append_comm)

theorem gives_merge_texts (target : Object Value) (key : String) (value : Value)
    (line? : Option Nat) (named : Bool) : Gives True (merge target key value line?) fun fields =>
      (fields.textsBeside named).Perm (target.textsBeside named ++
        if named && key == "name" then [] else value.texts) := by
  refine gives_merge (fun fields hp h => ?_) fun hp hk => ?_
  · obtain ⟨hkey, hslot⟩ := ne_name_of_isPlural hp
    rw [show (named && key == "name") = false by simp [hkey]]
    exact textsBeside_gather hslot h named
  · exact .of_eq (textsBeside_insert (hk trivial) named value)

theorem texts_entries (es : Entries) : (Value.list (entries es)).texts = es.texts := by
  cases es <;> rw [entries, Value.texts_list, List.flatMap_map, Entries.texts,
    List.map_eq_flatMap] <;> rfl

/-- The name of a block replaces what is under `name`. -/
theorem texts_named {fields : Object Value} (h : fields.keys.Nodup) (name? : Option Leaf) :
    (Value.object (named name? fields)).texts.Perm
      ((name?.map Leaf.value).toList ++ fields.textsBeside name?.isSome) := by
  cases name? with
  | none => exact .of_eq (by simp [named, Value.texts_object, Object.textsBeside])
  | some name =>
    have hothers {es : List (String × Value)} (hn : "name" ∉ es.map Prod.fst) :
        es.flatMap (fun e => if true && e.1 == "name" then [] else e.2.texts) =
          es.flatMap fun e => e.2.texts := by
      refine List.flatMap_congr fun e he => if_neg ?_
      have : e.1 ≠ "name" := fun hk => hn (hk ▸ List.mem_map_of_mem he)
      simpa using this
    rw [named, Value.texts_object]
    cases hg : fields.get? "name" with
    | none =>
      have hk := Object.notMem_of_get? hg
      rw [Object.insert_of_notMem hk, List.flatMap_append]
      simp only [Object.textsBeside, Option.isSome_some, hothers hk]
      exact List.perm_append_comm
    | some old =>
      obtain ⟨a, b, hsplit, ha, hb, hset⟩ := Object.split_of_get? h hg
      have hinsert : fields.insert "name" (leaf name) = fields.set "name" (leaf name) :=
        if_pos (by simp [Object.contains, hsplit])
      rw [hinsert, hset, Object.textsBeside, hsplit]
      simp only [List.flatMap_append, List.flatMap_cons, Option.isSome_some, hothers ha, hothers hb]
      exact List.perm_middle

mutual

theorem gives_item_texts : ∀ i : Item, Gives True (item i) fun entry =>
    entry.1 = i.key ∧ (entry.2.texts ++ i.lost).Perm i.texts
  | .pair p => gives_pure ⟨rfl, .of_eq rfl⟩
  | .listing l => gives_pure ⟨rfl, .of_eq ((List.append_nil _).trans (texts_entries l.entries))⟩
  | .block ⟨key, _, name?, _, ⟨inner, topLevel⟩, _⟩ => by
    refine (gives_container ((gives_items_texts name?.isSome inner {}).and
      (gives_items_distinct inner {}))).bind fun fields =>
        gives_pure fun ⟨hinner, hd⟩ => ⟨rfl, ?_⟩
    have hnodup := (Value.isDistinct_object.mp (hd isDistinct_empty)).1
    simp only [Item.lost, Block.lost, Container.lost, Item.texts, Block.texts, Container.texts]
    have hname := (texts_named hnodup name?).append_right (Item.lostAll name?.isSome inner)
    rw [List.append_assoc] at hname
    exact hname.trans (hinner.append_left _)

theorem gives_items_texts (named : Bool) : ∀ (list : List Item) (target : Object Value),
    Gives True (items target list) fun fields =>
      (fields.textsBeside named ++ Item.lostAll named list).Perm
        (target.textsBeside named ++ Item.textsAll list)
  | [], target => gives_pure (.refl _)
  | first :: rest, target =>
    (gives_item_texts first).bind fun entry =>
      (gives_merge_texts target entry.1 entry.2 first.line? named).bind fun merged =>
        (gives_items_texts named rest merged).mono fun fields hrest hmerge ⟨hkey, hfirst⟩ => by
          rw [hkey] at hmerge
          rw [List.perm_iff_count] at *
          intro text
          have h1 := hrest text
          have h2 := hmerge text
          have h3 := hfirst text
          by_cases hn : (named && first.key == "name") = true
          · simp [Item.lostAll, Item.textsAll, hn, List.count_append] at h1 h2 h3 ⊢
            omega
          · simp [Item.lostAll, Item.textsAll, hn, List.count_append] at h1 h2 h3 ⊢
            omega

end

end Projector

/-! ## Documents -/

/-- A document that is projected without warnings keeps all its texts but those under `name` in a
block with a name. -/
theorem Document.texts_project {d : Document} {v : Value} (h : d.project = (.ok v, [])) :
    (v.texts ++ d.lost).Perm d.texts ∧ (v.texts.Perm d.texts ↔ d.lost = []) := by
  have hall : (v.texts ++ d.lost).Perm d.texts := by
    obtain ⟨⟨list, topLevel⟩, before, after⟩ := d
    have hgives : Projector.Gives True (Projector.container ⟨list, topLevel⟩) _ :=
      Projector.gives_container (Projector.gives_items_texts false list {})
    obtain ⟨fields, rfl, hfields⟩ :=
      hgives.project (congrArg Prod.fst h) fun _ => congrArg Prod.snd h
    rw [Value.texts_object]
    simpa [Object.textsBeside, Document.lost, Container.lost, Document.texts, Container.texts]
      using hfields
  refine ⟨hall, fun hkept => ?_, fun hlost => ?_⟩
  · have hlen := hall.length_eq
    rw [List.length_append, hkept.length_eq] at hlen
    exact List.eq_nil_of_length_eq_zero (by omega)
  · rwa [hlost, List.append_nil] at hall

/-- Items of every form under plural keys and others, and a `name` in a block without a name. -/
def Samples.kept : String :=
  "view: v \x7b dimension: d \x7b tags: [a, b] \x7d filters: [c: \"e\"] " ++
    "set: \x7b name: s \x7d sql: f ;; \x7d"

def Samples.keptValue : Value :=
  .object ⟨[("views", .list [.object ⟨[("dimensions", .list [.object
      ⟨[("tags", .list [.string "a", .string "b"]), ("name", .string "d")]⟩]),
    ("filters__all", .list [.list [.single "c" (.string "e")]]),
    ("sets", .list [.object ⟨[("name", .string "s")]⟩]), ("sql", .string "f"),
    ("name", .string "v")]⟩])]⟩

theorem Document.texts_project_kept : ∃ d, parse Samples.kept = .ok d ∧
    d.project = (.ok Samples.keptValue, []) ∧ d.texts = ["v", "d", "a", "b", "e", "s", "f"] ∧
    Samples.keptValue.texts.Perm d.texts := by
  have h : (parse Samples.kept).toOption.map (fun d => (d.project, d.texts, d.lost)) =
      some ((.ok Samples.keptValue, []), ["v", "d", "a", "b", "e", "s", "f"], []) := by
    decide +kernel
  obtain ⟨d, hd, h⟩ := exists_of_map_toOption h
  obtain ⟨hproject, h⟩ := Prod.mk.inj h
  obtain ⟨htexts, hlost⟩ := Prod.mk.inj h
  exact ⟨d, hd, hproject, htexts, (texts_project hproject).2.mpr hlost⟩

/-- A block with a name and a pair under `name`. -/
def Samples.namedTwice : String :=
  "view: x \x7b name: y \x7d"

/-- The name of the block stays, and the pair is gone, without an error or a warning. -/
theorem Document.not_texts_project_namedTwice : ∃ d v, parse Samples.namedTwice = .ok d ∧
    d.project = (.ok v, []) ∧ d.texts = ["x", "y"] ∧ v.texts = ["x"] ∧
    ¬ v.texts.Perm d.texts := by
  have h : (parse Samples.namedTwice).toOption.map (fun d => (d.project, d.texts)) =
      some ((.ok (.object ⟨[("views", .list [.object ⟨[("name", .string "x")]⟩])]⟩), []),
        ["x", "y"]) := by
    decide +kernel
  obtain ⟨d, hd, h⟩ := exists_of_map_toOption h
  obtain ⟨hproject, htexts⟩ := Prod.mk.inj h
  exact ⟨d, _, hd, hproject, htexts, by decide, by rw [htexts]; decide⟩

end LookML
