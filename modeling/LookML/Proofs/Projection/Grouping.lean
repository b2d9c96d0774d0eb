import LookML.Proofs.Parser.WellMade
import LookML.Proofs.Projection.Retention
import LookML.Proofs.Projection.Slots

/-!
# Grouping — a container below the root groups its items by slot

Below the root no key but a plural one is repeated, so a slot is taken only where items under a
plural key and an item under its plural spelling meet.  A list under the plural spelling that stands
before them is joined by them; in any other order, and with anything but a list, the first item that
finds its slot taken is an error (`Container.groups_of_parse`).
-/

namespace LookML

/-! ## Collisions -/

namespace Item

/-- Whether an item finds its slot taken by the items before it: by any item if its key is its own,
and by an item under the plural spelling that is no list if its key is plural. -/
def Collides (before : List Item) (item : Item) : Prop :=
  if Keys.isPlural item.key then
    ∃ other ∈ before, Keys.isPlural other.key = false ∧ other.key = item.slot ∧
      other.isListing = false
  else ∃ other ∈ before, other.slot = item.key

/-- Whether no item of a row finds its slot taken. -/
def AllFit (items : List Item) : Prop :=
  ∀ before item after, items = before ++ item :: after → ¬ Collides before item

/-- Whether each item under the plural spelling of the key of a sibling is a list and stands before
all siblings with that key. -/
def ListsFirst (items : List Item) : Prop :=
  ∀ before item after, items = before ++ item :: after → Keys.isPlural item.key = false →
    ∀ sibling ∈ before ++ after, Keys.isPlural sibling.key = true →
      Keys.pluralize sibling.key = item.key →
        item.isListing = true ∧ ∀ other ∈ before, other.key ≠ sibling.key

/-- Whether no key but a plural one stands twice in a row of items. -/
abbrev OwnKeys (items : List Item) : Prop :=
  items.Pairwise fun a b => a.key = b.key → Keys.isPlural a.key = true

variable {items before after : List Item} {i j : Item}

theorem collides_of_isPlural (h : Keys.isPlural i.key = true) : Collides before i ↔
    ∃ other ∈ before, Keys.isPlural other.key = false ∧ other.key = i.slot ∧
      other.isListing = false :=
  iff_of_eq (if_pos h)

theorem collides_of_not_isPlural (h : Keys.isPlural i.key = false) :
    Collides before i ↔ ∃ other ∈ before, other.slot = i.key :=
  iff_of_eq (if_neg (by simp [h]))

theorem allFit_nil : AllFit [] := by
  intro before i after h
  simp at h

theorem allFit_concat : AllFit (before ++ [i]) ↔ AllFit before ∧ ¬ Collides before i := by
  constructor
  · intro h
    refine ⟨fun a j b hsplit => h a j (b ++ [i]) (by simp [hsplit]), h before i [] rfl⟩
  · rintro ⟨hbefore, hi⟩ a j b hsplit
    -- The item stands before the last one or is the last one.
    rcases List.eq_nil_or_concat b with rfl | ⟨b, last, rfl⟩
    · obtain ⟨rfl, hlast⟩ := List.append_inj' hsplit rfl
      obtain rfl := List.singleton_inj.mp hlast
      exact hi
    · have hsplit' : before ++ [i] = (a ++ j :: b) ++ [last] := by simpa using hsplit
      obtain ⟨rfl, -⟩ := List.append_inj' hsplit' rfl
      exact hbefore a j b rfl

theorem AllFit.listsFirst (h : AllFit items) : ListsFirst items := by
  rintro before i after hsplit hi j hj hjp hslot
  have hjs : j.slot = i.key := (slot_of_isPlural hjp).trans hslot
  -- Behind an item with the key of `j`, the item `i` would find its slot taken.
  have hbefore : ∀ other ∈ before, other.key ≠ j.key := by
    intro other ho hk
    refine h before i after hsplit ((collides_of_not_isPlural hi).mpr ⟨other, ho, ?_⟩)
    rw [slot_of_isPlural (hk ▸ hjp), hk, hslot]
  refine ⟨?_, hbefore⟩
  rcases List.mem_append.mp hj with hj | hj
  · exact absurd rfl (hbefore j hj)
  · obtain ⟨a, b, rfl⟩ := List.append_of_mem hj
    have hfit := h (before ++ i :: a) j b (by simp [hsplit])
    rw [collides_of_isPlural hjp] at hfit
    by_contra hl
    exact hfit ⟨i, by simp, hi, hjs.symm, by simpa using hl⟩

theorem ListsFirst.allFit (h : ListsFirst items) (hkeys : OwnKeys items) : AllFit items := by
  intro before i after hsplit hcollides
  cases hi : Keys.isPlural i.key with
  | true =>
    obtain ⟨j, hj, hjp, hslot, hl⟩ := (collides_of_isPlural hi).mp hcollides
    obtain ⟨a, b, rfl⟩ := List.append_of_mem hj
    have hfirst := h a j (b ++ i :: after) (by simp [hsplit]) hjp i (by simp) hi
      ((slot_of_isPlural hi).symm.trans hslot.symm)
    simp [hl] at hfirst
  | false =>
    obtain ⟨j, hj, hslot⟩ := (collides_of_not_isPlural hi).mp hcollides
    cases hjp : Keys.isPlural j.key with
    | true =>
      have hfirst := h before i after hsplit hi j (List.mem_append_left _ hj) hjp
        ((slot_of_isPlural hjp).symm.trans hslot)
      exact hfirst.2 j hj rfl
    | false =>
      -- Two items would have one key that is not plural.
      rw [slot_of_not_isPlural hjp] at hslot
      rw [OwnKeys, hsplit, List.pairwise_append] at hkeys
      have := hkeys.2.2 j hj i List.mem_cons_self hslot
      simp [hjp] at this

theorem listsFirst_iff_allFit (hkeys : OwnKeys items) : ListsFirst items ↔ AllFit items :=
  ⟨fun h => h.allFit hkeys, AllFit.listsFirst⟩

/-- An item under the plural spelling of the key of another one is a list. -/
theorem ListsFirst.isListing (h : ListsFirst items) (hi : i ∈ items) (hj : j ∈ items)
    (hip : Keys.isPlural i.key = false) (hjp : Keys.isPlural j.key = true)
    (hslot : j.slot = i.key) : i.isListing = true := by
  obtain ⟨a, b, rfl⟩ := List.append_of_mem hi
  have hne : j ≠ i := fun he => by simp [he, hip] at hjp
  refine (h a i b rfl hip j ?_ hjp ((slot_of_isPlural hjp).symm.trans hslot)).1
  simpa [hne] using hj

end Item

/-! ## Declarations below the root -/

variable {fields : Object Value} {ds : List Declaration} {d : Declaration} {depth : Nat}

/-- Whether no key but a plural one is declared twice. -/
abbrev Declaration.OwnKeys (ds : List Declaration) : Prop :=
  Item.OwnKeys (ds.map Declaration.item)

/-- A key that is not plural is declared once. -/
theorem Declaration.values_eq_singleton (hkeys : OwnKeys ds) (hd : d ∈ ds)
    (hp : Keys.isPlural d.key = false) : values d.key ds = [d.value] := by
  obtain ⟨a, b, rfl⟩ := List.append_of_mem hd
  rw [OwnKeys, Item.OwnKeys, List.map_append, List.map_cons, List.pairwise_append,
    List.pairwise_cons] at hkeys
  obtain ⟨-, ⟨hb, -⟩, ha⟩ := hkeys
  have hna : values d.key a = [] := values_eq_nil fun e he hk => by
    have hplural := ha e.item (List.mem_map_of_mem he) d.item List.mem_cons_self hk
    exact absurd hk (ne_of_isPlural hplural hp)
  have hnb : values d.key b = [] := values_eq_nil fun e he hk => by
    have hplural := hb e.item (List.mem_map_of_mem he) hk.symm
    exact absurd rfl (ne_of_isPlural hplural hp)
  simp only [values, List.filter_append, List.map_append, List.filter_cons] at hna hnb ⊢
  simp [hna, hnb]

namespace Object.Holds

/-- A declaration that finds its slot free is merged. -/
theorem runs_merge (h : fields.Holds ds) (hkeys : Declaration.OwnKeys ds)
    (hfit : ¬ Item.Collides (ds.map Declaration.item) d.item) :
    ∃ merged, Projector.Runs depth
        (Projector.merge fields d.key d.value d.item.line?) (.ok merged) [] ∧
      merged.Holds (ds ++ [d]) := by
  cases hp : Keys.isPlural d.key with
  | true =>
    rw [Item.collides_of_isPlural hp] at hfit
    have hown : ∀ o ∈ ds, Keys.isPlural o.key = false → o.key = d.slot →
        ∃ elements, o.value = .list elements ∧ Declaration.values o.key ds = [o.value] := by
      intro o ho hop hslot
      -- What is under the plural spelling is a list, or the slot would be taken.
      have hlist : o.item.isListing = true := by
        by_contra hl
        exact hfit ⟨o.item, List.mem_map_of_mem ho, hop, hslot, by simpa using hl⟩
      rw [← o.isSome_list?_value] at hlist
      cases hv : o.value with
      | list elements => exact ⟨elements, rfl, hv ▸ Declaration.values_eq_singleton hkeys ho hop⟩
      | string text => simp [hv, Value.list?] at hlist
      | object inner => simp [hv, Value.list?] at hlist
    refine ⟨_, ?_, h.insert_plural hp⟩
    have hgather := h.gather_eq_some hp hown
    rw [Declaration.slot_of_isPlural hp] at hgather ⊢
    rw [Projector.merge_plural hp, hgather]
    exact Projector.runs_pure depth _
  | false =>
    rw [Item.collides_of_not_isPlural hp] at hfit
    have hnew : d.key ∉ fields.keys := by
      rw [h.mem_keys_iff]
      rintro ⟨e, he, hslot⟩
      exact hfit ⟨e.item, List.mem_map_of_mem he, hslot⟩
    refine ⟨_, ?_, h.insert_own hp fun p hpm _ hslot =>
      hfit ⟨p.item, List.mem_map_of_mem hpm, hslot⟩⟩
    rw [Projector.merge_new hp hnew]
    exact Projector.runs_pure depth _

/-- A declaration that finds its slot taken is an error over the slot. -/
theorem runs_merge_collides (h : fields.Holds ds) (hd : 2 ≤ depth)
    (hkeys : Declaration.OwnKeys ds) (hfirst : Item.ListsFirst (ds.map Declaration.item))
    (hc : Item.Collides (ds.map Declaration.item) d.item) :
    Projector.Runs depth (Projector.merge fields d.key d.value d.item.line?)
      (.error ⟨d.slot, d.item.line?⟩) [] := by
  cases hp : Keys.isPlural d.key with
  | true =>
    obtain ⟨i, hi, hip, hslot, hl⟩ := (Item.collides_of_isPlural hp).mp hc
    obtain ⟨o, ho, rfl⟩ := List.mem_map.mp hi
    -- No item under the key has come before, since the slot has no list.
    have hfree : ∀ p ∈ ds, Keys.isPlural p.key = true → p.slot ≠ o.key := by
      intro p hpm hpp hs
      have := hfirst.isListing hi (List.mem_map_of_mem hpm) hip hpp hs
      simp [hl] at this
    have hnone : o.value.list? = none := by
      rw [← Option.not_isSome_iff_eq_none, o.isSome_list?_value, hl]
      exact Bool.false_ne_true
    have hgather := h.gather_eq_none ho hip hfree
      (Declaration.values_eq_singleton hkeys ho hip) hnone d.value
    have hs : d.slot = o.key := hslot.symm
    rw [Projector.merge_plural hp, ← Declaration.slot_of_isPlural hp, hs, hgather]
    exact Projector.runs_throw depth _
  | false =>
    obtain ⟨i, hi, hslot⟩ := (Item.collides_of_not_isPlural hp).mp hc
    obtain ⟨e, he, rfl⟩ := List.mem_map.mp hi
    rw [Declaration.slot_of_not_isPlural hp]
    exact Projector.runs_merge_taken hd hp (h.mem_keys_iff.mpr ⟨e, he, hslot⟩) d.value _

/-- A row of declarations is merged up to the first that finds its slot taken. -/
theorem runs_items (hd : 2 ≤ depth) {done : List Declaration} (h : fields.Holds done)
    (hfit : Item.AllFit (done.map Declaration.item)) {rest : List Declaration}
    (hkeys : Declaration.OwnKeys (done ++ rest)) :
    (∃ result, Projector.Runs depth
        (Projector.items fields (rest.map Declaration.item)) (.ok result) [] ∧
      result.Holds (done ++ rest) ∧ Item.AllFit ((done ++ rest).map Declaration.item)) ∨
    ∃ before item after, (done ++ rest).map Declaration.item = before ++ item :: after ∧
      Item.AllFit before ∧ Item.Collides before item ∧
      Projector.Runs depth (Projector.items fields (rest.map Declaration.item))
        (.error ⟨item.slot, item.line?⟩) [] := by
  induction rest generalizing fields done with
  | nil =>
    rw [List.append_nil]
    exact .inl ⟨fields, Projector.runs_pure depth fields, h, hfit⟩
  | cons d rest ih =>
    have hdone : Declaration.OwnKeys done := by
      rw [Declaration.OwnKeys, List.map_append] at hkeys
      exact (List.pairwise_append.mp hkeys).1
    have hpos : 0 < depth := by omega
    by_cases hc : Item.Collides (done.map Declaration.item) d.item
    · have hfirst := Item.AllFit.listsFirst hfit
      exact .inr ⟨_, d.item, rest.map Declaration.item, by simp, hfit, hc,
        Projector.runs_items_stop hpos d.project_eq (h.runs_merge_collides hd hdone hfirst hc) _⟩
    · obtain ⟨merged, hmerge, hmerged⟩ := h.runs_merge hdone hc
      have hfit' : Item.AllFit ((done ++ [d]).map Declaration.item) := by
        rw [List.map_append]
        exact Item.allFit_concat.mpr ⟨hfit, hc⟩
      have hsplit : done ++ d :: rest = done ++ [d] ++ rest := by simp
      rw [hsplit] at hkeys ⊢
      obtain ⟨result, hrun, hresult⟩ | ⟨before, i, after, hi, hbefore, hcollides, hrun⟩ :=
        ih hmerged hfit' hkeys
      · exact .inl ⟨result, Projector.runs_items_cons hpos d.project_eq hmerge hrun, hresult⟩
      · exact .inr ⟨before, i, after, hi, hbefore, hcollides,
          Projector.runs_items_cons hpos d.project_eq hmerge hrun⟩

end Object.Holds

/-! ## Containers -/

/-- The container of an item, which only a block has. -/
def Item.container? : Item → Option Container
  | .block b => some b.container
  | _ => none

/-- The container of one of the items is met on a walk of the items. -/
theorem Item.container_mem_walkAll {items : List Item} {item : Item} {c : Container}
    (h : item ∈ items) (hc : item.container? = some c) : .container c ∈ Item.walkAll items := by
  induction items with
  | nil => simp at h
  | cons first items ih =>
    rw [walkAll, List.mem_append]
    rcases List.mem_cons.mp h with rfl | h
    · rcases item with pair | listing | ⟨key, colon, name?, opening, ⟨inner, topLevel⟩, closing⟩
      · cases hc
      · cases hc
      · obtain rfl := Option.some.inj hc
        exact .inl (by simp [walk, Block.walk, Container.walk])
    · exact .inr (ih h)

/-- In a parsed document, a container below the root whose items are projected is projected exactly
if each item under the plural spelling of the key of a sibling is a list and stands before all
siblings with that key.  Then its object holds the items, each under a key of its own with its
single value; else the first item that finds its slot taken is an error over the slot. -/
theorem Container.groups_of_parse {source : String} {d : Document} {c : Container}
    (h : parse source = .ok d) (hc : .container c ∈ Item.walkAll d.container.items)
    (hp : ∀ i ∈ c.items, ∃ value, i.project = .ok value) {s : Projector} (hs : 0 < s.depth) :
    ((∃ fields, ((Projector.container c).run.run s).1 = .ok fields) ↔
      Item.ListsFirst c.items) ∧
    (Item.ListsFirst c.items → ∃ ds fields, ds.map Declaration.item = c.items ∧
      (Projector.container c).run.run s = (.ok fields, s) ∧ fields.Holds ds ∧
      ∀ e ∈ ds, Keys.isPlural e.key = false → Declaration.values e.key ds = [e.value]) ∧
    (¬ Item.ListsFirst c.items → ∃ before i after, c.items = before ++ i :: after ∧
      Item.AllFit before ∧ Item.Collides before i ∧
      (Projector.container c).run.run s = (.error ⟨i.slot, i.line?⟩, s)) := by
  obtain ⟨ds, hds⟩ := Declaration.exists_map_item hp
  have hown : Item.OwnKeys c.items := ((isWellMade_of_parse h).containers c hc).2
  have hkeys : Declaration.OwnKeys ds := by rwa [Declaration.OwnKeys, hds]
  rw [Item.listsFirst_iff_allFit hown]
  have hd : 2 ≤ s.depth + 1 := by omega
  have hruns := Object.Holds.nil.runs_items hd Item.allFit_nil hkeys
  rw [List.nil_append, hds] at hruns
  obtain ⟨fields, hrun, hfields, hfit⟩ | ⟨before, i, after, hsplit, hbefore, hcollides, hrun⟩ :=
    hruns
  · have hc := (Projector.runs_container_of_items hrun).run_eq rfl
    refine ⟨⟨fun _ => hfit, fun _ => ⟨fields, by rw [hc]⟩⟩, fun _ => ⟨ds, fields, hds, hc, hfields,
      fun e he => Declaration.values_eq_singleton hkeys he⟩, fun hnot => absurd hfit hnot⟩
  · have hc := (Projector.runs_container_of_items hrun).run_eq rfl
    have hnot : ¬ Item.AllFit c.items := fun hall => hall before i after hsplit hcollides
    refine ⟨⟨fun ⟨fields, hok⟩ => ?_, fun hall => absurd hall hnot⟩, fun hall => absurd hall hnot,
      fun _ => ⟨before, i, after, hsplit, hbefore, hcollides, hc⟩⟩
    rw [hc] at hok
    cases hok

/-- A list under a plural spelling that blocks under the plural key join. -/
def Samples.joined : String :=
  "view: v \x7b dimensions: [x] dimension: a \x7b\x7d label: l dimension: b \x7b\x7d \x7d"

theorem Container.groups_of_parse_joined : ∃ d c, parse Samples.joined = .ok d ∧
    .container c ∈ Item.walkAll d.container.items ∧
    (∀ i ∈ c.items, ∃ value, i.project = .ok value) ∧ Item.ListsFirst c.items ∧
    ∃ ds fields, ds.map Declaration.item = c.items ∧
      (Projector.container c).run.run { depth := 1 } = (.ok fields, { depth := 1 }) ∧
      fields.Holds ds := by
  have h : (parse Samples.joined).toOption.map (fun d =>
      (d.container.items.head?.bind Item.container?).map fun c =>
        (c.items.all (·.project.isOk), c.project.isOk)) = some (some (true, true)) := by
    decide +kernel
  obtain ⟨d, hd, h⟩ := exists_of_map_toOption h
  obtain ⟨c, hinner, h⟩ := Option.map_eq_some_iff.mp h
  obtain ⟨hall, hok⟩ := Prod.mk.inj h
  obtain ⟨item, hitem, hinner⟩ := Option.bind_eq_some_iff.mp hinner
  have hc : .container c ∈ Item.walkAll d.container.items :=
    Item.container_mem_walkAll (List.mem_of_mem_head? hitem) hinner
  have hp : ∀ i ∈ c.items, ∃ value, i.project = .ok value := fun i hi =>
    exists_of_isOk (List.all_eq_true.mp hall i hi)
  obtain ⟨hiff, hfields, -⟩ := groups_of_parse hd hc hp (s := { depth := 1 }) Nat.one_pos
  have hfirst : Item.ListsFirst c.items := hiff.mp (exists_of_isOk hok)
  obtain ⟨ds, fields, hds, hrun, hholds, -⟩ := hfields hfirst
  exact ⟨d, c, hd, hc, hp, hfirst, ds, fields, hds, hrun, hholds⟩

end LookML
