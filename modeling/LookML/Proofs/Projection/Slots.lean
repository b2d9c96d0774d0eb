import LookML.Proofs.Projection.BelowRoot

/-!
# Slots — what fills each slot of an object

A declaration is an item with its plain data.  An object holds a row of declarations if it has an
entry for each of their slots, in the order in which these first come, with what is declared for it
(`Object.Holds`).  Merging one more declaration keeps it so, where the slot is not taken.
-/

namespace LookML

/-! ## Slots of items -/

/-- Two plural keys are gathered under different spellings. -/
theorem Keys.pluralize_inj {key other : String} (h : isPlural key = true)
    (ho : isPlural other = true) (he : pluralize key = pluralize other) : key = other := by
  have hall : ∀ key ∈ pluralKeys, ∀ other ∈ pluralKeys,
      pluralize key = pluralize other → key = other := by decide +kernel
  exact hall key (by simpa [isPlural] using h) other (by simpa [isPlural] using ho) he

namespace Item

/-- The slot that an item goes into: that of the plural spelling of a plural key, and that of any
other key. -/
def slot (item : Item) : String :=
  if Keys.isPlural item.key then Keys.pluralize item.key else item.key

theorem slot_of_isPlural {item : Item} (h : Keys.isPlural item.key = true) :
    item.slot = Keys.pluralize item.key :=
  if_pos h

theorem slot_of_not_isPlural {item : Item} (h : Keys.isPlural item.key = false) :
    item.slot = item.key :=
  if_neg (by simp [h])

def isListing : Item → Bool
  | listing _ => true
  | _ => false

end Item

/-! ## Declarations -/

/-- An item with its plain data. -/
structure Declaration where
  item : Item
  value : Value
  project_eq : item.project = .ok value

namespace Declaration

def key (d : Declaration) : String :=
  d.item.key

def slot (d : Declaration) : String :=
  d.item.slot

/-- The values that are declared under a key, in order. -/
def values (key : String) (ds : List Declaration) : List Value :=
  (ds.filter fun d => d.key == key).map value

/-- The elements of the lists that are declared under the name of a slot itself.  What has a plural
key goes into another slot. -/
def listed (slot : String) (ds : List Declaration) : List Value :=
  if Keys.isPlural slot then [] else (values slot ds).flatMap fun value => value.list?.getD []

variable {d : Declaration} {ds : List Declaration} {k : String}

/-- Items that are all projected are declared. -/
theorem exists_map_item {list : List Item} (h : ∀ i ∈ list, ∃ value, i.project = .ok value) :
    ∃ ds : List Declaration, ds.map item = list := by
  induction list with
  | nil => exact ⟨[], rfl⟩
  | cons i list ih =>
    obtain ⟨value, hvalue⟩ := h i List.mem_cons_self
    obtain ⟨ds, hds⟩ := ih fun j hj => h j (List.mem_cons_of_mem i hj)
    exact ⟨⟨i, value, hvalue⟩ :: ds, by rw [List.map_cons, hds]⟩

/-- A list is declared by lists alone. -/
theorem isSome_list?_value (d : Declaration) : d.value.list?.isSome = d.item.isListing := by
  obtain ⟨i, value, h⟩ := d
  cases i with
  | pair p =>
    obtain rfl := Except.ok.inj h
    rfl
  | listing l =>
    obtain rfl := Except.ok.inj h
    rfl
  | block b =>
    rw [Item.project_block] at h
    cases hb : b.container.project with
    | error e =>
      rw [hb] at h
      cases h
    | ok fields =>
      rw [hb] at h
      obtain rfl := Except.ok.inj h
      rfl

theorem slot_of_isPlural (h : Keys.isPlural d.key = true) : d.slot = Keys.pluralize d.key :=
  Item.slot_of_isPlural h

theorem slot_of_not_isPlural (h : Keys.isPlural d.key = false) : d.slot = d.key :=
  Item.slot_of_not_isPlural h

theorem key_eq_of_slot_eq {e : Declaration} (hd : Keys.isPlural d.key = true)
    (he : Keys.isPlural e.key = true) (h : d.slot = e.slot) : d.key = e.key := by
  rw [slot_of_isPlural hd, slot_of_isPlural he] at h
  exact Keys.pluralize_inj hd he h

theorem slot_congr {e : Declaration} (h : d.key = e.key) : d.slot = e.slot := by
  have hkey : d.item.key = e.item.key := h
  rw [slot, slot, Item.slot, Item.slot, hkey]

/-- What is declared under another key than the last is declared before it. -/
theorem mem_of_mem_concat {e : Declaration} (h : e ∈ ds ++ [d]) (hne : e.key ≠ d.key) :
    e ∈ ds := by
  rcases List.mem_append.mp h with h | h
  · exact h
  · exact absurd (congrArg key (List.mem_singleton.mp h)) hne

theorem ne_of_isPlural {other : String} (hk : Keys.isPlural k = true)
    (ho : Keys.isPlural other = false) : k ≠ other := by
  rintro rfl
  simp [hk] at ho

theorem values_append_self : values d.key (ds ++ [d]) = values d.key ds ++ [d.value] := by
  simp [values]

theorem values_append_of_ne (h : d.key ≠ k) : values k (ds ++ [d]) = values k ds := by
  simp [values, h]

theorem values_eq_nil (h : ∀ d ∈ ds, d.key ≠ k) : values k ds = [] := by
  simpa [values] using h

theorem listed_append_of_ne (h : Keys.isPlural k = false → d.key ≠ k) :
    listed k (ds ++ [d]) = listed k ds := by
  unfold listed
  cases hs : Keys.isPlural k with
  | true => rfl
  | false => rw [values_append_of_ne (h hs)]

theorem listed_eq_nil (h : ∀ d ∈ ds, Keys.isPlural d.key = false → d.key ≠ k) :
    listed k ds = [] := by
  unfold listed
  cases hs : Keys.isPlural k with
  | true => rfl
  | false =>
    rw [values_eq_nil fun d hd hk => h d hd (hk ▸ hs) hk]
    rfl

end Declaration

/-! ## Objects that hold declarations -/

/-- A last element that is new is kept. -/
theorem eraseDups_concat (list : List String) (last : String) :
    (list ++ [last]).eraseDups =
      if last ∈ list then list.eraseDups else list.eraseDups ++ [last] := by
  rw [List.eraseDups_append]
  by_cases h : last ∈ list <;> simp [List.removeAll, List.eraseDups_cons, h]

open Declaration (values listed)

/-- Whether an object has an entry for each slot of a row of declarations, with what is declared
for it. -/
structure Object.Holds (fields : Object Value) (ds : List Declaration) : Prop where
  keys_eq : fields.keys = (ds.map Declaration.slot).eraseDups
  /-- In the slot of a plural key is a list: the elements of the list that is declared for the slot
  by its own name, if there is one, and all that is declared under the key. -/
  gathered : ∀ d ∈ ds, Keys.isPlural d.key = true →
    fields.get? d.slot = some (.list (listed d.slot ds ++ values d.key ds))
  /-- In any other slot is what is declared last. -/
  kept : ∀ d ∈ ds, Keys.isPlural d.key = false →
    (∀ p ∈ ds, Keys.isPlural p.key = true → p.slot ≠ d.key) →
      fields.get? d.key = (values d.key ds).getLast?

namespace Object.Holds

variable {fields : Object Value} {d : Declaration} {ds : List Declaration} {key : String}

theorem nil : ({} : Object Value).Holds [] where
  keys_eq := rfl
  gathered := by simp
  kept := by simp

theorem mem_keys_iff (h : fields.Holds ds) : key ∈ fields.keys ↔ ∃ d ∈ ds, d.slot = key := by
  rw [h.keys_eq, List.mem_eraseDups, List.mem_map]

theorem keys_insert (h : fields.Holds ds) (value : Value) :
    (fields.insert d.slot value).keys = ((ds ++ [d]).map Declaration.slot).eraseDups := by
  have hmem : fields.contains d.slot = true ↔ d.slot ∈ ds.map Declaration.slot := by
    rw [contains_iff_mem, h.keys_eq, List.mem_eraseDups]
  rw [Object.keys_insert, List.map_append, List.map_singleton, eraseDups_concat, h.keys_eq]
  exact if_congr hmem rfl rfl

/-- A value under a plural key joins what its slot holds. -/
theorem insert_plural (h : fields.Holds ds) (hp : Keys.isPlural d.key = true) :
    (fields.insert d.slot (.list (listed d.slot ds ++ values d.key ds ++ [d.value]))).Holds
      (ds ++ [d]) where
  keys_eq := h.keys_insert _
  gathered e he hep := by
    have hlisted {slot : String} : listed slot (ds ++ [d]) = listed slot ds :=
      Declaration.listed_append_of_ne (Declaration.ne_of_isPlural hp)
    rw [hlisted]
    by_cases hs : e.slot = d.slot
    · rw [hs, Declaration.key_eq_of_slot_eq hep hp hs, Object.get?_insert_self,
        Declaration.values_append_self, List.append_assoc]
    · have hkey : e.key ≠ d.key := fun hk => hs (Declaration.slot_congr hk)
      have hmem := Declaration.mem_of_mem_concat he hkey
      rw [Object.get?_insert_of_ne _ hs, h.gathered e hmem hep,
        Declaration.values_append_of_ne (Ne.symm hkey)]
  kept e he hep hfree := by
    have hne := Declaration.ne_of_isPlural hp hep
    have hmem := Declaration.mem_of_mem_concat he (Ne.symm hne)
    have hslot : e.key ≠ d.slot := fun hs => hfree d (by simp) hp hs.symm
    rw [Object.get?_insert_of_ne _ hslot, Declaration.values_append_of_ne hne]
    exact h.kept e hmem hep fun p hpm => hfree p (List.mem_append_left _ hpm)

/-- A value under a key of its own takes its slot, or replaces what was declared there before. -/
theorem insert_own (h : fields.Holds ds) (hp : Keys.isPlural d.key = false)
    (hfree : ∀ p ∈ ds, Keys.isPlural p.key = true → p.slot ≠ d.key) :
    (fields.insert d.key d.value).Holds (ds ++ [d]) where
  keys_eq := by
    rw [← Declaration.slot_of_not_isPlural hp]
    exact h.keys_insert d.value
  gathered e he hep := by
    have hne := Declaration.ne_of_isPlural hep hp
    have hmem := Declaration.mem_of_mem_concat he hne
    have hslot := hfree e hmem hep
    rw [Object.get?_insert_of_ne _ hslot, h.gathered e hmem hep,
      Declaration.listed_append_of_ne fun _ => Ne.symm hslot,
      Declaration.values_append_of_ne (Ne.symm hne)]
  kept e he hep hfree' := by
    by_cases hk : e.key = d.key
    · rw [hk, Object.get?_insert_self, Declaration.values_append_self, List.getLast?_concat]
    · have hmem := Declaration.mem_of_mem_concat he hk
      rw [Object.get?_insert_of_ne _ hk, Declaration.values_append_of_ne (Ne.symm hk)]
      exact h.kept e hmem hep fun p hpm => hfree' p (List.mem_append_left _ hpm)

/-! ## Gathering -/

/-- Gathering adds to the list in a slot, or puts a list into a slot that is empty. -/
theorem gather_eq_insert {slot : String} {old : List Value}
    (h : fields.get? slot = some (.list old) ∨ fields.get? slot = none ∧ old = [])
    (value : Value) : Projector.gather fields slot value =
      some (fields.insert slot (.list (old ++ [value]))) := by
  unfold Projector.gather
  obtain h | ⟨h, rfl⟩ := h
  · have hk : slot ∈ fields.keys := by
      obtain ⟨a, b, hsplit, -, -⟩ := entries_of_get? h
      simp [keys, hsplit]
    rw [h]
    exact congrArg some (if_pos (contains_iff_mem.mpr hk)).symm
  · rw [h]
    rfl

/-- A value under a plural key is gathered where all that is declared for its slot by the slot's own
name is one list. -/
theorem gather_eq_some (h : fields.Holds ds) (hp : Keys.isPlural d.key = true)
    (hown : ∀ o ∈ ds, Keys.isPlural o.key = false → o.key = d.slot →
      ∃ elements, o.value = .list elements ∧ values o.key ds = [o.value]) :
    Projector.gather fields d.slot d.value =
      some (fields.insert d.slot (.list (listed d.slot ds ++ values d.key ds ++ [d.value]))) := by
  apply gather_eq_insert
  by_cases hsame : ∃ p ∈ ds, Keys.isPlural p.key = true ∧ p.slot = d.slot
  · obtain ⟨p, hpm, hpp, hs⟩ := hsame
    have hget := h.gathered p hpm hpp
    rw [hs, Declaration.key_eq_of_slot_eq hpp hp hs] at hget
    exact .inl hget
  · -- No item under the key has come before, so the slot has its own list or nothing.
    simp only [not_exists, not_and] at hsame
    have hvalues : values d.key ds = [] := Declaration.values_eq_nil fun p hpm hk =>
      hsame p hpm (hk ▸ hp) (Declaration.slot_congr hk)
    rw [hvalues, List.append_nil]
    by_cases ho : ∃ o ∈ ds, Keys.isPlural o.key = false ∧ o.key = d.slot
    · obtain ⟨o, hom, hop, hs⟩ := ho
      obtain ⟨elements, hvalue, hone⟩ := hown o hom hop hs
      have hget := h.kept o hom hop fun p hpm hpp => hs ▸ hsame p hpm hpp
      rw [hone, hvalue, hs] at hget
      refine .inl (hget.trans ?_)
      simp [listed, ← hs, hop, hone, hvalue, Value.list?]
    · simp only [not_exists, not_and] at ho
      refine .inr ⟨get?_of_notMem fun hk => ?_, Declaration.listed_eq_nil ho⟩
      obtain ⟨e, hem, hes⟩ := h.mem_keys_iff.mp hk
      cases hep : Keys.isPlural e.key with
      | true => exact hsame e hem hep hes
      | false => exact ho e hem hep (Declaration.slot_of_not_isPlural hep ▸ hes)

/-- A value under a plural key is not gathered where its slot has something else than a list. -/
theorem gather_eq_none (h : fields.Holds ds) {o : Declaration} (hom : o ∈ ds)
    (hop : Keys.isPlural o.key = false)
    (hfree : ∀ p ∈ ds, Keys.isPlural p.key = true → p.slot ≠ o.key)
    (hone : values o.key ds = [o.value]) (hlist : o.value.list? = none) (value : Value) :
    Projector.gather fields o.key value = none := by
  have hget := h.kept o hom hop hfree
  rw [hone, List.getLast?_singleton] at hget
  unfold Projector.gather
  rw [hget]
  cases hvalue : o.value with
  | list elements => simp [hvalue, Value.list?] at hlist
  | string text => rfl
  | object inner => rfl

end Object.Holds

end LookML
