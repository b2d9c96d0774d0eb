import LookML.Proofs.Projection.Gathering

/-!
# Distinct keys — what a projection gives

A projection that succeeds may have warned.  `Gives` says what its result is like, either way or
if it has warned of nothing: since no warning is ever taken back, each part of a projection without
warnings is without warnings.  Every object that is given has each of its keys once.
-/

namespace LookML

/-! ## What a projection gives -/

namespace Projector

variable {α β : Type} {quiet : Prop} {x : Projecting α} {post post' : α → Prop}

/-- Where a projection succeeds, it takes no warning back, and its result is of this kind, if
`quiet` asks for no new warnings and there are none, or asks for nothing. -/
def Gives (quiet : Prop) (x : Projecting α) (post : α → Prop) : Prop :=
  ∀ s a t, x.run.run s = (.ok a, t) →
    s.warnings <:+ t.warnings ∧ ((quiet → t.warnings = s.warnings) → post a)

theorem gives_pure {a : α} (h : post a) : Gives quiet (pure a) post := by
  intro s b t hrun
  obtain ⟨rfl, rfl⟩ := run_pure_eq_ok.mp hrun
  exact ⟨List.suffix_refl _, fun _ => h⟩

theorem gives_throw (e : ProjectionError) : Gives quiet (throw e) post := by
  intro s a t hrun
  cases hrun

theorem Gives.bind {f : α → Projecting β} {next : β → Prop} (hx : Gives quiet x post)
    (hf : ∀ a, Gives quiet (f a) fun b => post a → next b) : Gives quiet (x >>= f) next := by
  intro s b t hrun
  obtain ⟨a, r, hr, ht⟩ := run_bind_eq_ok.mp hrun
  obtain ⟨hsr, ha⟩ := hx s a r hr
  obtain ⟨hrt, hb⟩ := hf a r b t ht
  refine ⟨hsr.trans hrt, fun hquiet => ?_⟩
  -- No warning is new in either part: each part only adds to them.
  have hmiddle (hq : quiet) : r.warnings = s.warnings :=
    (hsr.eq_of_length_le ((hquiet hq) ▸ hrt.length_le)).symm
  exact hb (fun hq => (hquiet hq).trans (hmiddle hq).symm) (ha hmiddle)

theorem Gives.mono (hx : Gives quiet x post) (h : ∀ a, post a → post' a) :
    Gives quiet x post' := by
  intro s a t hrun
  obtain ⟨hst, ha⟩ := hx s a t hrun
  exact ⟨hst, fun hquiet => h a (ha hquiet)⟩

theorem Gives.and (hx : Gives quiet x post) (hx' : Gives quiet x post') :
    Gives quiet x fun a => post a ∧ post' a := by
  intro s a t hrun
  exact ⟨(hx s a t hrun).1, fun hquiet => ⟨(hx s a t hrun).2 hquiet, (hx' s a t hrun).2 hquiet⟩⟩

theorem Gives.nested (hx : Gives quiet x post) : Gives quiet (nested x) post := by
  intro s a t hrun
  rw [run_nested] at hrun
  obtain ⟨ha, rfl⟩ := Prod.mk.inj hrun
  have hinner := hx { s with depth := s.depth + 1 } a _ (Prod.ext ha (Eq.refl (x.run.run _).2))
  exact hinner

theorem gives_container {list : List Item} {topLevel : Bool} {post : Object Value → Prop}
    (h : Gives quiet (items {} list) post) : Gives quiet (container ⟨list, topLevel⟩) post := by
  cases list with
  | nil => exact h
  | cons first rest => exact h.nested

/-- What merging gives, from what it does to the fields: a value is added to the list in a slot, or
set under a key, which is new unless there is a warning. -/
theorem gives_merge {target : Object Value} {key : String} {value : Value} {line? : Option Nat}
    {post : Object Value → Prop}
    (hg : ∀ fields, Keys.isPlural key = true →
      gather target (Keys.pluralize key) value = some fields → post fields)
    (hi : Keys.isPlural key = false → (quiet → key ∉ target.keys) →
      post (target.insert key value)) : Gives quiet (merge target key value line?) post := by
  unfold merge
  split
  · rename_i hp
    cases hgather : gather target (Keys.pluralize key) value with
    | none => exact gives_throw _
    | some fields => exact gives_pure (hg fields hp hgather)
  · rename_i hp
    rw [Bool.not_eq_true] at hp
    by_cases hk : key ∈ target.keys
    · rw [if_pos (Object.contains_iff_mem.mpr hk)]
      intro s fields t hrun
      rw [run_get] at hrun
      by_cases hd : s.depth = 1
      · rw [if_pos hd] at hrun
        have hrun' : (Except.ok (target.insert key value),
            ({ s with warnings := key :: s.warnings } : Projector)) =
              ((.ok fields, t) : Except ProjectionError (Object Value) × Projector) := hrun
        cases hrun'
        refine ⟨List.suffix_cons key s.warnings, fun hquiet => hi hp fun hq => ?_⟩
        exact absurd (congrArg List.length (hquiet hq)) (by simp)
      · rw [if_neg hd] at hrun
        cases hrun
    · rw [Object.contains_eq_false hk, if_neg (by simp)]
      exact gives_pure (hi hp fun _ => hk)

/-- The plain data of a document is an object of the kind that its container gives. -/
theorem Gives.project {d : Document} {value : Value} {post : Object Value → Prop}
    (hx : Gives quiet (container d.container) post) (h : d.project.1 = .ok value)
    (hquiet : quiet → d.project.2 = []) : ∃ fields, value = .object fields ∧ post fields := by
  unfold Document.project document at h hquiet
  cases hrun : (container d.container).run.run {} with
  | mk result state =>
    rw [hrun] at h hquiet
    cases result with
    | error e => cases h
    | ok fields =>
      refine ⟨fields, (Except.ok.inj h).symm, (hx {} fields state hrun).2 fun hq => ?_⟩
      simpa using hquiet hq

end Projector

/-! ## Distinct keys -/

namespace Value

mutual

/-- Whether every object in a value has distinct keys. -/
def IsDistinct : Value → Prop
  | string _ => True
  | list items => AllDistinct items
  | object ⟨entries⟩ => (entries.map Prod.fst).Nodup ∧ EntriesDistinct entries

def AllDistinct : List Value → Prop
  | [] => True
  | value :: values => value.IsDistinct ∧ AllDistinct values

def EntriesDistinct : List (String × Value) → Prop
  | [] => True
  | (_, value) :: entries => value.IsDistinct ∧ EntriesDistinct entries

end

theorem allDistinct_iff {values : List Value} :
    AllDistinct values ↔ ∀ value ∈ values, value.IsDistinct := by
  induction values with
  | nil => simp [AllDistinct]
  | cons value values ih => simp [AllDistinct, ih]

theorem entriesDistinct_iff {entries : List (String × Value)} :
    EntriesDistinct entries ↔ ∀ entry ∈ entries, entry.2.IsDistinct := by
  induction entries with
  | nil => simp [EntriesDistinct]
  | cons entry entries ih => simp [EntriesDistinct, ih]

theorem isDistinct_object {fields : Object Value} : (object fields).IsDistinct ↔
    fields.keys.Nodup ∧ ∀ entry ∈ fields.entries, entry.2.IsDistinct := by
  obtain ⟨entries⟩ := fields
  rw [IsDistinct, entriesDistinct_iff]
  rfl

theorem isDistinct_list {values : List Value} :
    (list values).IsDistinct ↔ ∀ value ∈ values, value.IsDistinct := by
  rw [IsDistinct, allDistinct_iff]

theorem IsDistinct.insert {fields : Object Value} {value : Value}
    (hf : (object fields).IsDistinct) (hv : value.IsDistinct) (key : String) :
    (object (fields.insert key value)).IsDistinct := by
  rw [isDistinct_object] at hf ⊢
  refine ⟨Object.nodup_insert hf.1 key value, fun entry he => ?_⟩
  rcases Object.mem_insert he with he | rfl
  · exact hf.2 entry he
  · exact hv

/-- Gathering inserts a list in its slot, of what is there and the value. -/
theorem IsDistinct.gather {target fields : Object Value} {slot : String} {value : Value}
    (hf : (object target).IsDistinct) (hv : value.IsDistinct)
    (h : Projector.gather target slot value = some fields) : (object fields).IsDistinct := by
  unfold Projector.gather at h
  cases hg : target.get? slot with
  | none =>
    rw [hg] at h
    obtain rfl := Option.some.inj h
    exact hf.insert (isDistinct_list.mpr (by simpa using hv)) slot
  | some old =>
    rw [hg] at h
    cases old with
    | string text => simp at h
    | object inner => simp at h
    | list values =>
      obtain rfl := Option.some.inj h
      obtain ⟨a, b, hsplit, -, -⟩ := Object.entries_of_get? hg
      have hvalues := isDistinct_list.mp
        ((isDistinct_object.mp hf).2 (slot, .list values) (by simp [hsplit]))
      have hmem : target.contains slot = true := by simp [Object.contains, hsplit]
      rw [← show target.insert slot _ = target.set slot _ from if_pos hmem]
      refine hf.insert (isDistinct_list.mpr fun v hmem => ?_) slot
      rcases List.mem_append.mp hmem with hmem | hmem
      · exact hvalues v hmem
      · exact List.mem_singleton.mp hmem ▸ hv

end Value

namespace Projector

variable {quiet : Prop}

theorem isDistinct_entries (es : Entries) : (Value.list (entries es)).IsDistinct := by
  rw [Value.isDistinct_list]
  cases es with
  | values vs =>
    intro value h
    obtain ⟨leaf, -, rfl⟩ := List.mem_map.mp h
    trivial
  | pairs ps =>
    intro value h
    obtain ⟨pair, -, rfl⟩ := List.mem_map.mp h
    simp [Value.single, Value.isDistinct_object, Object.keys, Projector.pair, leaf,
      Value.IsDistinct]

theorem isDistinct_leaf (l : Leaf) : (leaf l).IsDistinct := trivial

theorem isDistinct_named {fields : Object Value} (h : (Value.object fields).IsDistinct)
    (name? : Option Leaf) : (Value.object (named name? fields)).IsDistinct := by
  cases name? with
  | none => exact h
  | some name => exact h.insert (isDistinct_leaf name) "name"

theorem isDistinct_empty : (Value.object {}).IsDistinct := by
  simp [Value.IsDistinct, Value.EntriesDistinct]

theorem gives_merge_distinct (target : Object Value) (key : String) (value : Value)
    (line? : Option Nat) : Gives quiet (merge target key value line?) fun fields =>
      value.IsDistinct → (Value.object target).IsDistinct → (Value.object fields).IsDistinct :=
  gives_merge (fun _ _ h hv ht => ht.gather hv h) (fun _ _ hv ht => ht.insert hv key)

mutual

theorem gives_item_distinct : ∀ i : Item, Gives quiet (item i) fun entry => entry.2.IsDistinct
  | .pair p => gives_pure (isDistinct_leaf p.value)
  | .listing l => gives_pure (isDistinct_entries l.entries)
  | .block ⟨_, _, name?, _, ⟨inner, _⟩, _⟩ =>
    (gives_container (gives_items_distinct inner {})).bind fun _ =>
      gives_pure fun h => isDistinct_named (h isDistinct_empty) name?

theorem gives_items_distinct : ∀ (list : List Item) (target : Object Value),
    Gives quiet (items target list) fun fields =>
      (Value.object target).IsDistinct → (Value.object fields).IsDistinct
  | [], _ => gives_pure id
  | first :: rest, target =>
    (gives_item_distinct first).bind fun entry =>
      (gives_merge_distinct target entry.1 entry.2 first.line?).bind fun fields =>
        (gives_items_distinct rest fields).mono fun _ hrest hmerge hv ht => hrest (hmerge hv ht)

end

end Projector

/-- The plain data of a document is an object, and every object in it has distinct keys. -/
theorem Document.isDistinct_project {d : Document} {value : Value} (h : d.project.1 = .ok value) :
    ∃ fields, value = .object fields ∧ (Value.object fields).IsDistinct := by
  obtain ⟨⟨list, topLevel⟩, before, after⟩ := d
  have hgives : Projector.Gives False (Projector.container ⟨list, topLevel⟩) _ :=
    Projector.gives_container (Projector.gives_items_distinct list {})
  obtain ⟨fields, rfl, hfields⟩ := hgives.project h False.elim
  exact ⟨fields, rfl, hfields Projector.isDistinct_empty⟩

end LookML
