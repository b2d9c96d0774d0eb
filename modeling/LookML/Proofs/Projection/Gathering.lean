import LookML.Proofs.Build.Tidy
import LookML.Proofs.Projection.Sketch
import LookML.Proofs.Value.Entries
import Mathlib.Data.List.Forall2

/-!
# Gathering — which entries a row of items adds

Where no slot is taken, an item with a key of its own adds an entry at the end, and siblings with
one plural key add one entry with all their values.  So items that stand for entries (`Stand`) add
just these, in their order.
-/

namespace LookML

namespace Sketch

variable {atRoot : Bool} {target : Object Value} {key : String} {value : Value}

theorem merge_of_notMem (hp : Keys.isPlural key = false) (h : key ∉ target.keys) :
    merge atRoot target key value = .ok ⟨target.entries ++ [(key, value)]⟩ := by
  rw [merge, hp, if_neg (by simp), Object.contains_eq_false h, if_neg (by simp),
    Object.insert_of_notMem h]

/-- The first of siblings opens their slot. -/
theorem merge_first (hp : Keys.isPlural key = true) (h : Keys.pluralize key ∉ target.keys) :
    merge atRoot target key value =
      .ok ⟨target.entries ++ [(Keys.pluralize key, .list [value])]⟩ := by
  rw [merge, hp, if_pos rfl, Projector.gather, Object.get?_of_notMem h]
  dsimp only
  rw [Object.insert_of_notMem h]

/-- A further sibling joins those before it. -/
theorem merge_next {entries : List (String × Value)} {values : List Value}
    (hp : Keys.isPlural key = true) (h : Keys.pluralize key ∉ entries.map Prod.fst) :
    merge atRoot ⟨entries ++ [(Keys.pluralize key, .list values)]⟩ key value =
      .ok ⟨entries ++ [(Keys.pluralize key, .list (values ++ [value]))]⟩ := by
  rw [merge, hp, if_pos rfl, Projector.gather, Object.get?_last h]
  dsimp only
  rw [Object.set_last h]

theorem fields_cons {first : Sketch} {rest : List Sketch} (hv : first.value = .ok value) :
    fields atRoot target (first :: rest) =
      (merge atRoot target first.key value >>= fun target => fields atRoot target rest) := by
  rw [fields, hv]
  rfl

theorem fields_append (a b : List Sketch) : fields atRoot target (a ++ b) =
    (fields atRoot target a >>= fun target => fields atRoot target b) := by
  induction a generalizing target with
  | nil => rfl
  | cons first a ih =>
    rw [List.cons_append, fields, fields, bind_assoc]
    refine congrArg _ (funext fun value => ?_)
    rw [bind_assoc]
    exact congrArg _ (funext fun target => ih)

end Sketch

theorem Item.sketchAll_append (a b : List Item) :
    sketchAll (a ++ b) = sketchAll a ++ sketchAll b := by
  induction a with
  | nil => rfl
  | cons item a ih => rw [List.cons_append, sketchAll, sketchAll, ih, List.cons_append]

theorem Item.allInPlace_append {a b : List Item} (ha : AllInPlace a) (hb : AllInPlace b) :
    AllInPlace (a ++ b) := by
  induction a with
  | nil => exact hb
  | cons item a ih => exact ⟨ha.1, ih ha.2⟩

/-! ## Items that stand for a value -/

/-- An item under a key that says a value, with its keys in place. -/
structure Item.Says (key : String) (item : Item) (value : Value) : Prop where
  key_eq : item.key = key
  value_eq : item.sketch.value = .ok value
  inPlace : item.InPlace

variable {key : String} {items : List Item} {values : List Value}

/-- Siblings join those before them, in their order. -/
theorem fields_siblings (h : List.Forall₂ (Item.Says key) items values) {atRoot : Bool}
    {entries : List (String × Value)} {before : List Value} (hp : Keys.isPlural key = true)
    (hk : Keys.pluralize key ∉ entries.map Prod.fst) :
    Sketch.fields atRoot ⟨entries ++ [(Keys.pluralize key, .list before)]⟩ (Item.sketchAll items) =
      .ok ⟨entries ++ [(Keys.pluralize key, .list (before ++ values))]⟩ := by
  induction h generalizing before with
  | nil =>
    rw [List.append_nil]
    rfl
  | @cons item value items values hfirst hrest ih =>
    rw [Item.sketchAll, Sketch.fields_cons hfirst.value_eq, Item.key_sketch, hfirst.key_eq,
      Sketch.merge_next hp hk]
    have hnext := @ih (before ++ [value])
    rwa [List.append_assoc] at hnext

theorem allInPlace_of_siblings (h : List.Forall₂ (Item.Says key) items values) :
    Item.AllInPlace items := by
  induction h with
  | nil => trivial
  | cons hfirst hrest ih => exact ⟨hfirst.inPlace, ih⟩

theorem key_of_siblings (h : List.Forall₂ (Item.Says key) items values) :
    ∀ item ∈ items, item.key = key := by
  induction h with
  | nil => simp
  | cons hfirst hrest ih => simpa using ⟨hfirst.key_eq, ih⟩

/-! ## Items that stand for entries -/

/-- Items that stand for entries: where none of their slots is taken, they add these entries. -/
structure Stand (items : List Item) (entries : List (String × Value)) : Prop where
  inPlace : Item.AllInPlace items
  fields : ∀ (atRoot : Bool) (target : Object Value), (∀ entry ∈ entries, entry.1 ∉ target.keys) →
    Sketch.fields atRoot target (Item.sketchAll items) = .ok ⟨target.entries ++ entries⟩
  keys : ((items.map Item.key).filter (!Keys.isPlural ·)).Sublist (entries.map Prod.fst)

namespace Stand

variable {entries : List (String × Value)} {value : Value}

theorem nil : Stand [] [] where
  inPlace := trivial
  fields atRoot target _ := by
    rw [List.append_nil]
    rfl
  keys := List.nil_sublist _

theorem single {item : Item} (h : item.Says key value) (hp : Keys.isPlural key = false) :
    Stand [item] [(key, value)] where
  inPlace := ⟨h.inPlace, trivial⟩
  fields atRoot target hk := by
    rw [Item.sketchAll, Sketch.fields_cons h.value_eq, Item.key_sketch, h.key_eq,
      Sketch.merge_of_notMem hp (hk _ List.mem_cons_self)]
    rfl
  keys := by simp [h.key_eq, hp]

/-- Siblings stand for the list of their values, if there are some. -/
theorem siblings (h : List.Forall₂ (Item.Says key) items values) (hp : Keys.isPlural key = true)
    (hne : values ≠ []) : Stand items [(Keys.pluralize key, .list values)] where
  inPlace := allInPlace_of_siblings h
  fields atRoot target hk := by
    have hslot : Keys.pluralize key ∉ target.keys := hk _ List.mem_cons_self
    cases h with
    | nil => exact absurd rfl hne
    | cons hfirst hrest =>
      rw [Item.sketchAll, Sketch.fields_cons hfirst.value_eq, Item.key_sketch, hfirst.key_eq,
        Sketch.merge_first hp hslot]
      exact fields_siblings hrest hp hslot
  keys := by
    -- Plural keys may repeat, so none of the keys counts.
    have hnone : (items.map Item.key).filter (!Keys.isPlural ·) = [] := by
      simp only [List.filter_eq_nil_iff, List.mem_map, forall_exists_index, and_imp,
        forall_apply_eq_imp_iff₂]
      intro item hi
      simp [key_of_siblings h item hi, hp]
    rw [hnone]
    exact List.nil_sublist _

theorem append {a b : List Item} {more : List (String × Value)} (ha : Stand a entries)
    (hb : Stand b more) (hk : ∀ entry ∈ more, entry.1 ∉ entries.map Prod.fst) :
    Stand (a ++ b) (entries ++ more) where
  inPlace := Item.allInPlace_append ha.inPlace hb.inPlace
  fields atRoot target hfree := by
    rw [Item.sketchAll_append, Sketch.fields_append,
      ha.fields atRoot target fun entry he => hfree entry (by simp [he])]
    -- The slots of the second row are new also after the first row.
    have hrest := hb.fields atRoot ⟨target.entries ++ entries⟩ fun entry he => by
      rw [Object.keys, List.map_append, List.mem_append, not_or]
      exact ⟨hfree entry (by simp [he]), hk entry he⟩
    rwa [List.append_assoc] at hrest
  keys := by
    rw [List.map_append, List.filter_append, List.map_append]
    exact ha.keys.append hb.keys

/-- Items that stand for entries with distinct keys repeat no key. -/
theorem firstRepeat? (h : Stand items entries) (hk : (entries.map Prod.fst).Nodup) :
    Container.firstRepeat? [] items = none :=
  Container.firstRepeat?_eq_none.mpr ⟨by simp, hk.sublist h.keys⟩

end Stand

end LookML
