import LookML.Proofs.Build.RoundTrip
import LookML.Proofs.Build.Settled

/-!
# Reloading — when what was loaded is dumped and loaded again

What was loaded has distinct keys, and what is dumped has bare keys and names.  So of the
conditions on well-shaped data only those on its forms are left: data that was loaded, stays in
form and is dumped is well-shaped once its names are last, and is loaded again as it was, up to the
order of entries.
-/

namespace LookML

/-! ## Forms -/

/-- Whether a text under `key` keeps its form and its blanks. -/
def Keys.TextStays (parent? : Option String) (key text : String) : Prop :=
  isExpression key = true → parent? ≠ some "filters" ∧ Text.trim text = text

namespace Value

/-- Whether a value is one field with a text, under a key that a list can have. -/
def IsEntry : Value → Prop
  | object ⟨[(key, string _)]⟩ => Keys.isExpression key = false
  | _ => False

/-- Whether the items of a list are texts, or one or more fields. -/
def AreEntries (items : List Value) : Prop :=
  (∀ item ∈ items, item.string?.isSome) ∨ items ≠ [] ∧ ∀ item ∈ items, item.IsEntry

/-- Whether the first of gathered filters, if it is a block, has a field and no name. -/
def FirstStays (items : List Value) : Prop :=
  ∀ first ∈ items.head?.bind object?,
    first.contains "field" = true ∧ first.contains "name" = false

mutual

/-- Whether the fields of a block under `parent?`, or of the root, stay in form. -/
def FieldsStay (parent? : Option String) : List (String × Value) → Prop
  | [] => True
  | (key, value) :: rest => value.Stays parent? key ∧ FieldsStay parent? rest

/-- Whether a value is read back in its form as the field `key` of a block under `parent?`. -/
def Stays (parent? : Option String) (key : String) : Value → Prop
  | string text => Keys.isPlural key = false ∧ Keys.TextStays parent? key text
  | list items =>
    if Keys.expands parent? key then
      Keys.pluralize (Keys.singularize key) = key ∧ items ≠ [] ∧
        if Keys.singularize key = "filters" then FirstStays items ∧ FiltersStay items
        else SiblingsStay parent? (Keys.singularize key) items
    else Keys.IsPlain key ∧ AreEntries items
  | object ⟨fields⟩ => Keys.IsPlain key ∧ FieldsStay (some key) fields

/-- Whether values stay in form as siblings under a plural key. -/
def SiblingsStay (parent? : Option String) (key : String) : List Value → Prop
  | [] => True
  | value :: rest => value.StaysBeside parent? key ∧ SiblingsStay parent? key rest

/-- Whether a value stays in form as one of siblings under a plural key. -/
def StaysBeside (parent? : Option String) (key : String) : Value → Prop
  | string text => Keys.TextStays parent? key text
  | list items => (key = "extends" ∨ key = "bind_filters") ∧ AreEntries items
  | object ⟨fields⟩ => Keys.isExpression key = false ∧ FieldsStay (some key) fields

/-- Whether gathered filters stay in form. -/
def FiltersStay : List Value → Prop
  | [] => True
  | string _ :: rest => FiltersStay rest
  | list items :: rest => AreEntries items ∧ FiltersStay rest
  | object ⟨fields⟩ :: rest => FieldsStay (some "filters") fields ∧ FiltersStay rest

end

/-! ## Fields in another order -/

theorem FieldsFit.perm {parent? : Option String} {fields fields' : List (String × Value)}
    (hp : fields.Perm fields') (h : FieldsFit parent? fields) : FieldsFit parent? fields' := by
  induction hp with
  | nil => exact h
  | cons field hp ih =>
    obtain ⟨hbare, hkey, hvalue, hrest⟩ := h
    exact ⟨hbare, fun hmem => hkey ((hp.map Prod.fst).mem_iff.mpr hmem), hvalue, ih hrest⟩
  | swap a b rest =>
    obtain ⟨hb, hbkey, hbvalue, ha, hakey, havalue, hrest⟩ := h
    simp only [List.map_cons, List.mem_cons, not_or] at hbkey
    refine ⟨ha, ?_, havalue, hb, hbkey.2, hbvalue, hrest⟩
    simpa [List.map_cons, hakey] using Ne.symm hbkey.1
  | trans h1 h2 ih1 ih2 => exact ih2 (ih1 h)

end Value

namespace Builder

open Value

variable {place : Place} {key text : String} {s t : State}

/-! ## What is built fits -/

theorem keeps_of_pair {p : Pair} (h : (pair place key text).run.run s = (.ok p, t))
    (hs : Keys.TextStays place.parent? key text) : Keys.Keeps place.parent? key text := by
  intro he
  obtain ⟨hparent, htrim⟩ := hs he
  obtain ⟨-, hends, -, -⟩ := pair_eq_ok h
  exact ⟨hparent, htrim, hends (isExpression_valueLeaf_quotes hparent he)⟩

theorem isField_of_listPairs {values : List Value} {ps : List Pair}
    (h : (listPairs place key values).run.run s = (.ok ps, t))
    (hv : ∀ value ∈ values, value.IsEntry) : ∀ value ∈ values, value.IsField := by
  induction values generalizing s t ps with
  | nil => simp
  | cons value values ih =>
    have hfirst := hv value (by simp)
    unfold IsEntry at hfirst
    split at hfirst
    · rename_i field text
      simp only [listPairs, fieldPairs, run_bind_eq_ok] at h
      obtain ⟨first, s₁, ⟨p, s₂, hp, -⟩, more, s₃, hmore, -⟩ := h
      rintro v (_ | ⟨_, hmem⟩)
      · exact ⟨(pair_eq_ok hp).1, hfirst⟩
      · exact ih hmore (fun v hv' => hv v (by simp [hv'])) v hmem
    · exact hfirst.elim

theorem areRow_of_entries {values : List Value} {es : Entries}
    (h : (entries place key values).run.run s = (.ok es, t)) (hv : AreEntries values) :
    AreRow values := by
  rcases hv with htexts | ⟨hne, hfields⟩
  · exact .inl htexts
  · -- An object among the values makes pairs of them.
    have hany : values.any (·.object?.isSome) = true := by
      obtain ⟨value, hmem⟩ := List.exists_mem_of_ne_nil values hne
      have hvalue := hfields value hmem
      unfold IsEntry at hvalue
      split at hvalue
      · exact List.any_eq_true.mpr ⟨_, hmem, rfl⟩
      · exact hvalue.elim
    unfold entries at h
    dsimp only at h
    rw [if_pos hany] at h
    simp only [run_bind_eq_ok] at h
    obtain ⟨ps, s₁, hps, -⟩ := h
    exact .inr ⟨hne, isField_of_listPairs hps hfields⟩

theorem areRow_of_listing {values : List Value} {l : Listing}
    (h : (listing place key values).run.run s = (.ok l, t)) (hv : AreEntries values) :
    isBareWord key = true ∧ AreRow values := by
  obtain ⟨hkey, es, r, r', hes, -, -, -⟩ := listing_eq_ok h
  exact ⟨hkey, areRow_of_entries hes hv⟩

/-! ## Blocks -/

/-- Once the name that a block takes is last, fields that fit fit as those of the block. -/
theorem fits_nameLast {parent? : Option String} {fields : List (String × Value)}
    (hn : ∀ name ∈ nameOf? key ⟨fields⟩, isBareWord name = true)
    (hf : FieldsFit parent? fields) :
    NameIsLast key (nameLast key fields) ∧ FieldsFit parent? (nameLast key fields) := by
  refine ⟨fun name hname => ?_, hf.perm (perm_nameLast (nodup_of_fieldsFit hf) key).symm⟩
  rw [nameOf?_nameLast] at hname
  refine ⟨hn name hname, ?_⟩
  rw [nameLast, Option.mem_def.mp hname]
  simp

/-- In a block that takes a name, the field `name` is a text. -/
theorem isText_name {fields : List (String × Value)} (hd : (fields.map Prod.fst).Nodup)
    (h : (nameOf? key ⟨fields⟩).isSome = true) :
    ∀ value, ("name", value) ∈ fields → value.string?.isSome := by
  intro value hmem
  obtain ⟨name, hn⟩ := Option.isSome_iff_exists.mp h
  obtain ⟨a, b, rfl, ha, hb, -⟩ := Object.split_of_get? hd (get?_of_nameOf? hn)
  rcases List.mem_append.mp hmem with hmem | hmem
  · exact absurd (List.mem_map_of_mem (f := Prod.fst) hmem) ha
  · rcases List.mem_cons.mp hmem with hmem | hmem
    · rw [(Prod.mk.inj hmem).2]
      rfl
    · exact absurd (List.mem_map_of_mem (f := Prod.fst) hmem) hb

/-- A block that is built has fields that fit, if those are that were written inside. -/
theorem fits_block {fields : List (String × Value)} {b : Block}
    (h : (blockAround place key (nameOf? key ⟨fields⟩) fun inner =>
      members inner (nameOf? key ⟨fields⟩).isSome fields).run.run s = (.ok b, t))
    (hf : ∀ {s t : State} {items : List Item},
      (members (place.inside key) (nameOf? key ⟨fields⟩).isSome fields).run.run s =
        (.ok items, t) → FieldsFit (some key) (settleFields (some key) fields)) :
    isBareWord key = true ∧ NameIsLast key (nameLast key (settleFields (some key) fields)) ∧
      FieldsFit (some key) (nameLast key (settleFields (some key) fields)) := by
  obtain ⟨hkey, hnames, items, t', c, hitems, -, -, -⟩ := blockAround_eq_ok h
  refine ⟨hkey, fits_nameLast (fun name hname => ?_) (hf hitems)⟩
  rw [nameOf?_settleFields] at hname
  exact hnames name hname

theorem fits_text {p : Pair} (h : (pair place key text).run.run s = (.ok p, t))
    (hs : Keys.isPlural key = false ∧ Keys.TextStays place.parent? key text) :
    ((Value.string text).settle place.parent? key).Fits place.parent? key := by
  rw [settle]
  exact ⟨hs.1, keeps_of_pair h hs.2⟩

theorem bare_of_expands {parent? : Option String} (hx : Keys.expands parent? key = true)
    (hkey : Keys.pluralize (Keys.singularize key) = key) : isBareWord key = true := by
  have hall : ∀ key ∈ Keys.pluralKeys, isBareWord (Keys.pluralize key) = true := by
    decide +kernel
  rw [← hkey]
  exact hall _ (by simpa [Keys.isPlural] using Keys.isPlural_of_expands hx)

theorem settleAll_ne_nil {parent? : Option String} {values : List Value} (h : values ≠ []) :
    settleAll parent? key values ≠ [] := by
  cases values with
  | nil => exact absurd rfl h
  | cons value values => simp [settleAll]

/-- Gathered filters that stay are written as blocks without names, or side by side. -/
theorem filterForm_of_stays {values : List Value} (h : FirstStays values) :
    filterForm values = .blocks false ∧ FirstFilters (settleFilters false values) ∨
      filterForm values = .loose := by
  cases values with
  | nil => exact .inr rfl
  | cons value values =>
    cases value with
    | string text => exact .inr rfl
    | list items => exact .inr rfl
    | object first =>
      obtain ⟨hfield, hname⟩ := h first rfl
      refine .inl ⟨by simp [filterForm, object?, hfield, hname], ?_⟩
      obtain ⟨fields⟩ := first
      rw [settleFilters]
      refine ⟨_, rfl, ?_, ?_⟩
      · rwa [contains_settleFields]
      · rwa [contains_settleFields]

theorem isLoose_of_looseFilters {values : List Value} {items : List Item}
    (h : (looseFilters place values).run.run s = (.ok items, t)) (hs : FiltersStay values) :
    ∀ value ∈ values, value.IsLoose := by
  induction values generalizing s t items with
  | nil => simp
  | cons value values ih =>
    cases value with
    | string text =>
      simp only [looseFilters, run_bind_eq_ok] at h
      obtain ⟨p, s₁, -, more, s₂, hmore, -⟩ := h
      exact List.forall_mem_cons.mpr ⟨trivial, ih hmore hs⟩
    | list inner =>
      simp only [looseFilters, run_bind_eq_ok] at h
      obtain ⟨l, s₁, hl, more, s₂, hmore, -⟩ := h
      exact List.forall_mem_cons.mpr ⟨(areRow_of_listing hl hs.1).2, ih hmore hs.2⟩
    | object fields => cases h

mutual

theorem fits_members : ∀ (fields : List (String × Value)) {place : Place} {skip : Bool}
    {s t : State} {items : List Item},
    (members place skip fields).run.run s = (.ok items, t) → FieldsStay place.parent? fields →
    (fields.map Prod.fst).Nodup → EntriesDistinct fields →
    (skip = true → ∀ value, ("name", value) ∈ fields → value.string?.isSome) →
    FieldsFit place.parent? (settleFields place.parent? fields)
  | [], place, skip, s, t, items, _, _, _, _, _ => by
    rw [settleFields]
    trivial
  | (key, value) :: rest, place, skip, s, t, items, h, hs, hk, hd, hname => by
    obtain ⟨hkey, hrest⟩ := List.nodup_cons.mp hk
    have hname' : skip = true → ∀ value, ("name", value) ∈ rest → value.string?.isSome :=
      fun hskip v hmem => hname hskip v (by simp [hmem])
    rw [settleFields]
    rw [members] at h
    split at h <;> simp only [pure_bind, run_bind_eq_ok, run_pure_eq_ok] at h
    · -- The name of the block is not written inside, but it is a text.
      rename_i hskip
      obtain ⟨more, s₁, hmore, -⟩ := h
      obtain ⟨hs', rfl⟩ : skip = true ∧ key = "name" := by simpa using hskip
      have htext := hname hs' value (by simp)
      cases value with
      | string text =>
        rw [settle]
        refine ⟨by decide, by rwa [keys_settleFields], ⟨by decide, fun he => ?_⟩,
          fits_members rest hmore hs.2 hrest hd.2 hname'⟩
        exact absurd he (by decide)
      | list values => cases htext
      | object fields => cases htext
    · obtain ⟨first, s₁, hfirst, more, s₂, hmore, -⟩ := h
      obtain ⟨hbare, hfits⟩ := fits_member value hfirst hs.1 hd.1
      exact ⟨hbare, by rwa [keys_settleFields], hfits,
        fits_members rest hmore hs.2 hrest hd.2 hname'⟩

theorem fits_member : ∀ (value : Value) {place : Place} {key : String} {s t : State}
    {items : List Item}, (member place key value).run.run s = (.ok items, t) →
    value.Stays place.parent? key → value.IsDistinct →
    isBareWord key = true ∧ (value.settle place.parent? key).Fits place.parent? key
  | .string text, place, key, s, t, items, h, hs, _ => by
    simp only [member, run_bind_eq_ok] at h
    obtain ⟨p, s₁, hp, -⟩ := h
    exact ⟨(pair_eq_ok hp).1, fits_text hp hs⟩
  | .list values, place, key, s, t, items, h, hs, hd => by
    rw [member] at h
    rw [Stays, Keys.expands_parent?] at hs
    rw [settle, Keys.expands_parent?]
    cases hx : place.expands key with
    | false =>
      rw [hx, if_neg (by simp)] at h hs
      simp only [run_bind_eq_ok] at h
      obtain ⟨l, s₁, hl, -⟩ := h
      obtain ⟨hkey, hrow⟩ := areRow_of_listing hl hs.2
      rw [if_neg (by simp), Fits, Keys.expands_parent?, hx, if_neg (by simp)]
      exact ⟨hkey, hs.1, hrow⟩
    | true =>
      rw [hx, if_pos rfl] at h hs
      obtain ⟨hkey, hne, hs⟩ := hs
      obtain ⟨u, s₁, -, h⟩ := run_bind_eq_ok.mp h
      have hx' : Keys.expands place.parent? key = true := hx
      refine ⟨bare_of_expands hx' hkey, ?_⟩
      rw [if_pos rfl]
      by_cases hf : Keys.singularize key = "filters"
      · rw [if_pos hf] at hs
        rw [if_neg (not_not.mpr hf)] at h ⊢
        have hfits {items : List Value} (hne : items ≠ [])
            (hitems : (∀ item ∈ items, item.IsLoose) ∨ FirstFilters items ∧ FiltersFit items) :
            (Value.list items).Fits place.parent? key := by
          rw [Fits, Keys.expands_parent?, hx, if_pos rfl, if_pos hf]
          exact ⟨hkey, hne, hitems⟩
        rcases filterForm_of_stays hs.1 with ⟨hform, hfirst⟩ | hform
        · rw [hform] at h ⊢
          have hne : settleFilters false values ≠ [] := by
            intro he
            obtain ⟨first, hhead, -⟩ := hfirst
            simp [he] at hhead
          exact hfits hne (.inr ⟨hfirst, fits_filterBlocks values h hs.2 hd⟩)
        · rw [hform] at h ⊢
          exact hfits hne (.inl (isLoose_of_looseFilters h hs.2))
      · rw [if_neg hf] at hs
        rw [if_pos hf] at h ⊢
        rw [Fits, Keys.expands_parent?, hx, if_pos rfl, if_neg hf]
        exact ⟨hkey, settleAll_ne_nil hne, fits_siblings values h hs hd⟩
  | .object ⟨fields⟩, place, key, s, t, items, h, hs, hd => by
    simp only [member, run_bind_eq_ok] at h
    obtain ⟨b, s₁, hb, -⟩ := h
    obtain ⟨hkey, hname, hfields⟩ := fits_block hb fun hm =>
      fits_members fields hm hs.2 hd.1 hd.2 (isText_name hd.1)
    rw [settle]
    exact ⟨hkey, hs.1, hname, hfields⟩

theorem fits_siblings : ∀ (values : List Value) {place : Place} {key : String} {s t : State}
    {items : List Item}, (siblings place key values).run.run s = (.ok items, t) →
    SiblingsStay place.parent? key values → AllDistinct values →
    SiblingsFit place.parent? key (settleAll place.parent? key values)
  | [], place, key, s, t, items, _, _, _ => by
    rw [settleAll]
    trivial
  | value :: rest, place, key, s, t, items, h, hs, hd => by
    simp only [siblings, run_bind_eq_ok] at h
    obtain ⟨first, s₁, hfirst, more, s₂, hmore, -⟩ := h
    rw [settleAll]
    exact ⟨fits_sibling value hfirst hs.1 hd.1, fits_siblings rest hmore hs.2 hd.2⟩

theorem fits_sibling : ∀ (value : Value) {place : Place} {key : String} {s t : State}
    {items : List Item}, (member place key value).run.run s = (.ok items, t) →
    value.StaysBeside place.parent? key → value.IsDistinct →
    (value.settle place.parent? key).FitsBeside place.parent? key
  | .string text, place, key, s, t, items, h, hs, _ => by
    simp only [member, run_bind_eq_ok] at h
    obtain ⟨p, s₁, hp, -⟩ := h
    rw [settle]
    exact keeps_of_pair hp hs
  | .list values, place, key, s, t, items, h, hs, hd => by
    obtain ⟨hkey, hvalues⟩ := hs
    have hx : place.expands key = false := by
      have hsingle : Keys.isPlural (Keys.singularize key) = false := by
        rcases hkey with rfl | rfl <;> decide
      simp [Place.expands, hsingle]
    rw [member, hx, if_neg (by simp)] at h
    simp only [run_bind_eq_ok] at h
    obtain ⟨l, s₁, hl, -⟩ := h
    rw [settle, Keys.expands_parent?, hx, if_neg (by simp)]
    exact ⟨hkey, (areRow_of_listing hl hvalues).2⟩
  | .object ⟨fields⟩, place, key, s, t, items, h, hs, hd => by
    simp only [member, run_bind_eq_ok] at h
    obtain ⟨b, s₁, hb, -⟩ := h
    obtain ⟨-, hname, hfields⟩ := fits_block hb fun hm =>
      fits_members fields hm hs.2 hd.1 hd.2 (isText_name hd.1)
    rw [settle]
    exact ⟨hs.1, hname, hfields⟩

theorem fits_filterBlocks : ∀ (values : List Value) {place : Place} {s t : State}
    {items : List Item}, (filterBlocks place false values).run.run s = (.ok items, t) →
    FiltersStay values → AllDistinct values → FiltersFit (settleFilters false values)
  | [], place, s, t, items, _, _, _ => by
    rw [settleFilters]
    trivial
  | .object ⟨fields⟩ :: rest, place, s, t, items, h, hs, hd => by
    simp only [filterBlocks, run_bind_eq_ok] at h
    obtain ⟨b, s₁, hb, more, s₂, hmore, -⟩ := h
    obtain ⟨-, -, inner, t', c, hinner, -, -, -⟩ := blockAround_eq_ok hb
    rw [settleFilters]
    exact ⟨fits_members fields hinner hs.1 hd.1.1 hd.1.2 (by simp),
      fits_filterBlocks rest hmore hs.2 hd.2⟩
  | .string text :: rest, place, s, t, items, h, _, _ => by
    simp only [filterBlocks] at h
    cases h
  | .list values :: rest, place, s, t, items, h, _, _ => by
    simp only [filterBlocks] at h
    cases h

end

end Builder

/-! ## Documents -/

/-- The plain data of a source is an object, and every object in it has distinct keys. -/
theorem isDistinct_load {source : String} {value : Value} (h : load source = .ok value) :
    ∃ fields, value = .object fields ∧ (Value.object fields).IsDistinct := by
  rw [load_eq] at h
  cases hp : parse source with
  | error e => simp [hp] at h
  | ok d =>
    rw [hp] at h
    cases hv : d.project.1 with
    | error e => simp [hv, Except.mapError] at h
    | ok v =>
      obtain rfl : v = value := by simpa [hv, Except.mapError] using h
      exact d.isDistinct_project hv

theorem members_of_dump {root : Object Value} {text : String}
    (h : dump (.object root) = .ok text) : ∃ items after,
      (Builder.members { layout := {} } false root.entries).run.run {} = (.ok items, after) := by
  rcases hrun : (Builder.document {} (.object root)).run.run {} with ⟨e | d, after⟩
  · rw [dump_eq, Value.build, hrun] at h
    cases h
  · rw [Builder.document, run_bind_eq_ok] at hrun
    obtain ⟨items, after, hitems, -⟩ := hrun
    exact ⟨items, after, hitems⟩

/-- The items that are dumped are loaded as the entries that they stand for. -/
theorem load_of_stand {root : Object Value} {text : String} {items : List Item}
    {after : Builder.State} {entries : List (String × Value)}
    (hrun : (Builder.members { layout := {} } false root.entries).run.run {} = (.ok items, after))
    (hitems : Stand items entries) (h : dump (.object root) = .ok text) :
    load text = .ok (.object ⟨entries⟩) := by
  let d : Document := { container := ⟨items, true⟩ }
  have hbuild : ((Value.object root).build {}).1 = .ok d := by
    have hdocument : (Builder.document {} (.object root)).run.run {} = (.ok d, after) := by
      rw [Builder.document, run_bind_eq_ok]
      exact ⟨items, after, hrun, rfl⟩
    rw [Value.build, hdocument]
  have hsketch : Sketch.fields true {} d.sketch = .ok ⟨entries⟩ :=
    hitems.fields true {} (by simp [Object.keys])
  have hproject : d.project.1 = .ok (.object ⟨entries⟩) := by
    have hp := Projector.project_eq d
    rw [hsketch] at hp
    cases hr : d.project.1 with
    | ok value => simpa [hr, Except.mapError, Except.map] using hp
    | error e => simp [hr, Except.mapError, Except.map] at hp
  have hload : LoadsAs d.print (.ok (.object ⟨entries⟩)) :=
    hproject ▸ (Value.isTidy_of_build_default hbuild).loadsAs hitems.inPlace
  obtain rfl : d.print = text := by
    rw [dump_eq, hbuild] at h
    exact Except.ok.inj h
  exact hload.load_eq_ok

/-- Whether plain data stays in form when it is dumped and loaded again. -/
def Value.StaysInForm (value : Value) : Prop :=
  ∀ root ∈ value.object?, FieldsStay none root.entries

/-- Data that was loaded and stays in form is loaded again from its dump, up to the order of
entries. -/
theorem Value.load_dump_of_load {source text : String} {value : Value}
    (hl : load source = .ok value) (hd : dump value = .ok text) (hs : value.StaysInForm) :
    ∃ again, load text = .ok again ∧ again.Same value := by
  obtain ⟨⟨fields⟩, rfl, hkeys, hvalues⟩ := isDistinct_load hl
  obtain ⟨items, after, hrun⟩ := members_of_dump hd
  let place : Builder.Place := { layout := {} }
  have hfits : FieldsFit place.parent? (settleFields place.parent? fields) :=
    Builder.fits_members fields hrun (hs _ rfl) hkeys hvalues (by simp)
  obtain ⟨items', after', hrun', hitems⟩ := Builder.returns_members _ false hfits {}
  -- Settled fields are written as the same items.
  rw [Builder.members_settleFields fields place, hrun] at hrun'
  obtain ⟨hsame, rfl⟩ := Prod.mk.inj hrun'
  obtain rfl := Except.ok.inj hsame
  simp only [Bool.false_and, Bool.not_false, List.filter_true] at hitems
  exact ⟨_, load_of_stand hrun hitems hd,
    .object (same_settleFields fields none hvalues) (.refl _)⟩

/-- A block whose name is the field that it begins with. -/
def Samples.nameFirst : String :=
  "view: \x7b name: v dimension: d \x7b sql: a ;; \x7d extends: [b] \x7d"

def Samples.nameFirstValue : Value :=
  .object ⟨[("views", .list [.object ⟨[("name", .string "v"),
    ("dimensions", .list [.object ⟨[("sql", .string "a"), ("name", .string "d")]⟩]),
    ("extends__all", .list [.list [.string "b"]])]⟩])]⟩

theorem Value.load_dump_of_load_nameFirst : ∃ text,
    load Samples.nameFirst = .ok Samples.nameFirstValue ∧
      dump Samples.nameFirstValue = .ok text ∧ Samples.nameFirstValue.StaysInForm ∧
      ∃ again, load text = .ok again ∧ again.Same Samples.nameFirstValue := by
  have hl : load Samples.nameFirst = .ok Samples.nameFirstValue := by decide +kernel
  have hd : dump Samples.nameFirstValue = .ok _ := rfl
  have hs : Samples.nameFirstValue.StaysInForm := by
    simp +decide [StaysInForm, Samples.nameFirstValue, object?, FieldsStay, Stays, SiblingsStay,
      StaysBeside, AreEntries, Keys.TextStays]
  exact ⟨_, hl, hd, hs, load_dump_of_load hl hd hs⟩

/-- A `filters` block with a name is dumped as a `filter`, which is gathered under another key. -/
theorem Value.not_load_dump_namedFilters : ∃ value text,
    load "filters: a \x7b\x7d" = .ok value ∧ dump value = .ok text ∧
      ∀ again, load text = .ok again → ¬ again.Same value := by
  have hl : load "filters: a \x7b\x7d" = .ok (.object ⟨[("filters__all", .list
      [.object ⟨[("name", .string "a")]⟩])]⟩) := by
    decide +kernel
  have hd : dump (.object ⟨[("filters__all", .list [.object ⟨[("name", .string "a")]⟩])]⟩) =
      .ok "filter: a \x7b\x7d" := by
    decide +kernel
  have hr : load "filter: a \x7b\x7d" = .ok (.object ⟨[("filters", .list
      [.object ⟨[("name", .string "a")]⟩])]⟩) := by
    decide +kernel
  refine ⟨_, _, hl, hd, fun again hagain hsame => ?_⟩
  rw [hr] at hagain
  obtain rfl := Except.ok.inj hagain
  cases hsame with
  | object h hp =>
    rcases h with _ | ⟨_, _ | _⟩
    simp at hp

end LookML
