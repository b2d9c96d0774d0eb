import LookML.Proofs.Build.Faithful
import LookML.Proofs.Build.Shape
import LookML.Proofs.Projection.Gathering

/-!
# Round trip — loading undoes dumping on well-shaped data

A builder succeeds on well-shaped data, with items that stand for its fields and have their keys in
place.  The items are projected to the fields again, and what is dumped is read back as the items.
-/

namespace LookML

namespace Keys

theorem expands_parent? (place : Builder.Place) (key : String) :
    expands place.parent? key = place.expands key := rfl

theorem isPlural_of_expands {parent? : Option String} {key : String}
    (h : expands parent? key = true) : isPlural (singularize key) = true := by
  simp only [expands, Builder.Place.expands, Bool.and_eq_true] at h
  exact h.1.1

theorem bare_of_isPlural {key : String} (h : isPlural key = true) :
    Builder.isBareWord key = true := by
  have hall : ∀ key ∈ pluralKeys, Builder.isBareWord key = true := by decide +kernel
  exact hall key (by simpa [isPlural] using h)

/-- No expression is quoted for its key. -/
theorem isQuoted_of_isExpression {key : String} (h : isExpression key = true) :
    isQuoted key = false := by
  have hall : ∀ key ∈ expressionKeys, isQuoted key = false := by decide +kernel
  exact hall key (by simpa [isExpression] using h)

end Keys

namespace Builder

variable {place : Place} {key text : String} {values : List Value}

/-! ## Pairs -/

theorem returns_wrote (previous : Previous) : Returns (wrote previous) fun _ => True :=
  returns_modify _

theorem returns_keyLeaf (h : isBareWord text = true) :
    Returns (keyLeaf key text) (· = .word text) := by
  rw [keyLeaf, if_pos h]
  exact returns_pure rfl

theorem value_valueLeaf {quotes : Bool} (h : Keys.isExpression key = true → Text.trim text = text) :
    (valueLeaf key text quotes).value = text := by
  obtain hvalue | ⟨hk, hvalue⟩ := value_valueLeaf_cases key text quotes
  · exact hvalue
  · exact hvalue.trans (h hk)

/-- Among other things than filters, an expression key makes an expression. -/
theorem isExpression_valueLeaf_quotes (hp : place.parent? ≠ some "filters")
    (hk : Keys.isExpression key = true) :
    (valueLeaf key text (place.quotes key)).isExpression = true := by
  rw [valueLeaf, Place.quotes, Keys.isQuoted_of_isExpression hk, Bool.or_false,
    beq_eq_false_iff_ne.mpr hp, Bool.false_and, if_neg (by simp), if_pos hk]
  rfl

/-- A pair for a text that is kept says the text, with its key in place. -/
theorem returns_pair (hk : isBareWord key = true) (h : Keys.Keeps place.parent? key text) :
    Returns (pair place key text) fun p => (Item.pair p).Says key (.string text) := by
  have hvalue : (valueLeaf key text (place.quotes key)).value = text :=
    value_valueLeaf fun he => (h he).2.1
  have hplace : Keys.isExpression key = true →
      (valueLeaf key text (place.quotes key)).isExpression = true :=
    fun he => isExpression_valueLeaf_quotes (h he).1 he
  -- An expression that is kept holds no end, so the pair is not refused.
  have hend : ¬ ((valueLeaf key text (place.quotes key)).isExpression &&
      holdsExpressionEnd text.toList) = true := by
    intro hc
    obtain ⟨he, hend⟩ := Bool.and_eq_true_iff.mp hc
    simp [(h (isExpression_valueLeaf he)).2.2] at hend
  unfold pair
  dsimp only
  rw [if_neg hend]
  refine (returns_keyLeaf hk).bind fun leaf hleaf => returns_get.bind fun state _ =>
    (returns_wrote _).bind fun _ _ => returns_pure ?_
  subst hleaf
  exact ⟨rfl, congrArg (fun value => Except.ok (Value.string value)) hvalue, hplace⟩

/-! ## Lists -/

theorem returns_listLeaves {before : String} {quotes : Bool}
    (h : ∀ value ∈ values, value.string?.isSome) :
    Returns (listLeaves key before quotes values) fun vs => vs.map Projector.leaf = values := by
  induction values with
  | nil => exact returns_pure rfl
  | cons value values ih =>
    cases value with
    | string text =>
      refine (ih fun v hv => h v (by simp [hv])).bind fun more hmore => returns_pure ?_
      rw [List.map_cons, hmore, Projector.leaf, value_entryLeaf]
    | list items => exact absurd (h (.list items) (by simp)) (by simp [Value.string?])
    | object fields => exact absurd (h (.object fields) (by simp)) (by simp [Value.string?])

/-- What a pair of a list is as plain data. -/
def field (pair : Pair) : Value :=
  Value.single (Projector.pair pair).1 (Projector.pair pair).2

theorem exists_of_isField {value : Value} (h : value.IsField) :
    ∃ field text, value = .object ⟨[(field, .string text)]⟩ ∧ isBareWord field = true ∧
      Keys.isExpression field = false := by
  unfold Value.IsField at h
  split at h
  · rename_i field text
    exact ⟨field, text, rfl, h⟩
  · exact h.elim

theorem returns_listPairs (h : ∀ value ∈ values, value.IsField) :
    Returns (listPairs place key values) fun ps =>
      ps.map field = values ∧ ∀ p ∈ ps, Keys.isExpression p.key.value = false := by
  induction values with
  | nil => exact returns_pure ⟨rfl, by simp⟩
  | cons value values ih =>
    obtain ⟨name, text, rfl, hbare, hexpr⟩ := exists_of_isField (h value (by simp))
    have hfirst : Returns (fieldPairs place [(name, .string text)]) fun ps =>
        ∃ p, ps = [p] ∧ (Item.pair p).Says name (.string text) :=
      (returns_pair hbare (by simp [Keys.Keeps, hexpr])).bind fun p hp => returns_pure ⟨p, rfl, hp⟩
    refine hfirst.bind fun first hfirst =>
      (ih fun v hv => h v (by simp [hv])).bind fun more hmore => returns_pure ?_
    obtain ⟨p, rfl, hp⟩ := hfirst
    have hkey : p.key.value = name := hp.key_eq
    have hvalue : p.value.value = text := by simpa [Item.sketch, Sketch.value] using hp.value_eq
    refine ⟨?_, ?_⟩
    · simp [hmore.1, field, Projector.pair, Projector.leaf, Value.single, hkey, hvalue]
    · simpa [hkey, hexpr] using hmore.2

/-- A row is written as the entries of a list. -/
theorem returns_entries (h : Value.AreRow values) : Returns (entries place key values) fun es =>
    Projector.entries es = values ∧ es.InPlace := by
  unfold entries
  dsimp only
  rcases h with htexts | ⟨hne, hfields⟩
  · have hany : ¬ values.any (·.object?.isSome) = true := by
      simp only [List.any_eq_true, not_exists, not_and]
      intro value hv
      have := htexts value hv
      cases value <;> simp_all [Value.string?, Value.object?]
    rw [if_neg hany]
    exact (returns_listLeaves htexts).bind fun vs hvs => returns_pure ⟨hvs, trivial⟩
  · have hany : values.any (·.object?.isSome) = true := by
      obtain ⟨value, hv⟩ := List.exists_mem_of_ne_nil values hne
      obtain ⟨field, text, rfl, -⟩ := exists_of_isField (hfields value hv)
      exact List.any_eq_true.mpr ⟨_, hv, rfl⟩
    rw [if_pos hany]
    exact (returns_listPairs hfields).bind fun ps hps => returns_pure hps

/-- A list for a row says the row. -/
theorem returns_listing (hk : isBareWord key = true) (he : Keys.isExpression key = false)
    (h : Value.AreRow values) :
    Returns (listing place key values) fun l => (Item.listing l).Says key (.list values) := by
  have hitem (l : Listing) (hl : l.key.value = key)
      (hes : Projector.entries l.entries = values ∧ l.entries.InPlace) :
      (Item.listing l).Says key (.list values) :=
    ⟨hl, congrArg (fun items => Except.ok (Value.list items)) hes.1, hl ▸ he, hes.2⟩
  unfold listing
  dsimp only
  refine (returns_keyLeaf hk).bind fun leaf hleaf => returns_get.bind fun state _ => ?_
  subst hleaf
  cases isTall place.layout values with
  | true =>
    rw [if_pos rfl]
    exact (returns_wrote _).bind fun _ _ => (returns_entries h).bind fun es hes =>
      (returns_wrote _).bind fun _ _ => returns_pure (hitem _ rfl hes)
  | false =>
    rw [if_neg (by simp)]
    exact (returns_entries h).bind fun es hes =>
      (returns_wrote _).bind fun _ _ => returns_pure (hitem _ rfl hes)

/-! ## Blocks -/

theorem nodup_of_fieldsFit {parent? : Option String} {fields : List (String × Value)}
    (h : Value.FieldsFit parent? fields) : (fields.map Prod.fst).Nodup := by
  induction fields with
  | nil => simp
  | cons field fields ih =>
    obtain ⟨-, hkey, -, hrest⟩ := h
    exact List.nodup_cons.mpr ⟨hkey, ih hrest⟩

/-- A name that comes last is put back by what the block is named. -/
theorem named_filter {name? : Option String} {fields : List (String × Value)}
    (hk : (fields.map Prod.fst).Nodup)
    (hl : ∀ name ∈ name?, fields.getLast? = some ("name", .string name)) :
    Sketch.named name? ⟨fields.filter fun field => !(name?.isSome && field.1 == "name")⟩ =
      ⟨fields⟩ := by
  cases name? with
  | none => simp [Sketch.named]
  | some name =>
    obtain ⟨others, rfl⟩ := List.getLast?_eq_some_iff.mp (hl name rfl)
    have hfree : "name" ∉ others.map Prod.fst := by
      rw [List.map_append, List.nodup_append] at hk
      exact fun hmem => hk.2.2 _ hmem "name" (by simp) rfl
    have hothers : others.filter (fun field => !(true && field.1 == "name")) = others := by
      refine List.filter_eq_self.mpr fun field hf => ?_
      have hne : field.1 ≠ "name" := fun he => hfree (he ▸ List.mem_map_of_mem hf)
      simp [hne]
    simp only [Option.isSome_some, List.filter_append, hothers]
    rw [Sketch.named, Object.insert_of_notMem (by simpa [Object.keys] using hfree)]
    simp

/-- A block around items that stand for entries says these entries and its name. -/
theorem returns_blockAround {name? : Option String} {content : Place → Building (List Item)}
    {fields : List (String × Value)} (hk : isBareWord key = true)
    (he : Keys.isExpression key = false) (hn : ∀ name ∈ name?, isBareWord name = true)
    (hd : (fields.map Prod.fst).Nodup)
    (hc : Returns (content (place.inside key)) (Stand · fields)) :
    Returns (blockAround place key name? content) fun b =>
      (Item.block b).Says key (.object (Sketch.named name? ⟨fields⟩)) := by
  have hname : Returns (nameLeaf? key name?) (· = name?.map Leaf.word) := by
    cases name? with
    | none => exact returns_pure rfl
    | some name =>
      exact (returns_keyLeaf (hn name rfl)).bind fun leaf hl => returns_pure (by simp [hl])
  unfold blockAround
  refine (returns_keyLeaf hk).bind fun leaf hleaf => hname.bind fun leaf? hleaf? =>
    returns_get.bind fun state _ => (returns_wrote _).bind fun _ _ => hc.bind fun items hitems => ?_
  subst hleaf hleaf?
  -- The fields have distinct keys, so the container repeats none.
  have hof : Container.of items false = .ok ⟨items, false⟩ := by
    simp [Container.of, hitems.firstRepeat? hd]
  rw [checked, hof]
  refine (returns_wrote _).bind fun _ _ => returns_pure ⟨rfl, ?_, ⟨he, hitems.inPlace⟩⟩
  have hfields := hitems.fields false {} (by simp [Object.keys])
  simp only [laidOut, Item.sketch, Block.sketch, Container.sketch, Sketch.value, hfields]
  cases name? <;> rfl

/-! ## Values -/

/-- The items are one item under a key that says a value. -/
def AreOne (key : String) (value : Value) (items : List Item) : Prop :=
  ∃ item, items = [item] ∧ item.Says key value

theorem AreOne.stand {value : Value} {items : List Item} (h : AreOne key value items)
    (hp : Keys.isPlural key = false) : Stand items [(key, value)] := by
  obtain ⟨item, rfl, hs⟩ := h
  exact .single hs hp

theorem returns_text (hk : isBareWord key = true) (h : Keys.Keeps place.parent? key text) :
    Returns (member place key (.string text)) (AreOne key (.string text)) := by
  rw [member]
  exact (returns_pair hk h).bind fun p hp => returns_pure ⟨_, rfl, hp⟩

theorem returns_row (hk : isBareWord key = true) (he : Keys.isExpression key = false)
    (hx : place.expands key = false) (h : Value.AreRow values) :
    Returns (member place key (.list values)) (AreOne key (.list values)) := by
  rw [member, hx, if_neg (by simp)]
  exact (returns_listing hk he h).bind fun l hl => returns_pure ⟨_, rfl, hl⟩

/-- A block is written if its fields are. -/
theorem returns_object {fields : List (String × Value)} (hk : isBareWord key = true)
    (he : Keys.isExpression key = false) (hn : Value.NameIsLast key fields)
    (hd : (fields.map Prod.fst).Nodup)
    (hc : ∀ skip, Returns (members (place.inside key) skip fields)
      (Stand · (fields.filter fun field => !(skip && field.1 == "name")))) :
    Returns (member place key (.object ⟨fields⟩)) (AreOne key (.object ⟨fields⟩)) := by
  rw [member]
  refine (returns_blockAround hk he (fun name hname => (hn name hname).1)
    (hd.sublist (List.filter_sublist.map _)) (hc _)).bind fun b hb => returns_pure ⟨_, rfl, ?_⟩
  rwa [named_filter hd fun name hname => (hn name hname).2] at hb

theorem returns_looseFilters (h : ∀ value ∈ values, value.IsLoose) :
    Returns (looseFilters place values) fun items =>
      List.Forall₂ (Item.Says "filters") items values := by
  induction values with
  | nil => exact returns_pure .nil
  | cons value values ih =>
    have hrest := ih fun v hv => h v (by simp [hv])
    cases value with
    | string text =>
      have hkeeps : Keys.Keeps place.parent? "filters" text := fun he => absurd he (by decide)
      exact (returns_pair (by decide) hkeeps).bind
        fun p hp => hrest.bind fun more hmore => returns_pure (.cons hp hmore)
    | list items =>
      have hrow : Value.AreRow items := h (.list items) (by simp)
      exact (returns_listing (by decide) (by decide) hrow).bind
        fun l hl => hrest.bind fun more hmore => returns_pure (.cons hl hmore)
    | object fields => exact (h (.object fields) (by simp)).elim

theorem filterForm_of_loose (h : ∀ value ∈ values, value.IsLoose) : filterForm values = .loose := by
  cases values with
  | nil => rfl
  | cons value values =>
    have := h value (by simp)
    cases value with
    | object fields => exact this.elim
    | _ => rfl

theorem filterForm_of_first (h : Value.FirstFilters values) :
    filterForm values = .blocks false := by
  obtain ⟨first, hfirst, hfield, hname⟩ := h
  rw [filterForm, Option.mem_def.mp hfirst]
  simp [hfield, hname]

mutual

/-- Fields that fit are written as items that stand for them. -/
theorem returns_members : ∀ (fields : List (String × Value)) {place : Place} (skip : Bool),
    Value.FieldsFit place.parent? fields → Returns (members place skip fields)
      (Stand · (fields.filter fun field => !(skip && field.1 == "name")))
  | [], place, skip, _ => by
    rw [members]
    exact returns_pure .nil
  | (key, value) :: rest, place, skip, h => by
    obtain ⟨hbare, hkey, hvalue, hrest⟩ := h
    have hmore := returns_members rest skip hrest
    rw [members]
    cases hs : skip && key == "name" with
    | true =>
      -- The name of the block is no item inside.
      rw [if_pos rfl, pure_bind]
      refine hmore.bind fun more hm => returns_pure ?_
      rw [List.filter_cons_of_neg (by simp [hs])]
      exact hm
    | false =>
      rw [if_neg (by simp)]
      refine (returns_member value hbare hvalue).bind fun first hf => hmore.bind fun more hm =>
        returns_pure ?_
      rw [List.filter_cons_of_pos (by simp [hs])]
      refine hf.append hm fun entry he => ?_
      have hmem := List.mem_map_of_mem (f := Prod.fst) (List.mem_filter.mp he).1
      simp only [List.map_cons, List.map_nil, List.mem_singleton]
      rintro rfl
      exact hkey hmem

/-- A field that fits is written as items that stand for it. -/
theorem returns_member : ∀ (value : Value) {place : Place} {key : String},
    isBareWord key = true → value.Fits place.parent? key →
      Returns (member place key value) (Stand · [(key, value)])
  | .string text, place, key, hk, h => (returns_text hk h.2).mono fun _ ho => ho.stand h.1
  | .list values, place, key, hk, h => by
    rw [Value.Fits, Keys.expands_parent?] at h
    cases hx : place.expands key with
    | false =>
      rw [hx, if_neg (by simp)] at h
      exact (returns_row hk h.1.2 hx h.2).mono fun _ ho => ho.stand h.1.1
    | true =>
      rw [hx, if_pos rfl] at h
      obtain ⟨hkey, hne, h⟩ := h
      have hp : Keys.isPlural (Keys.singularize key) = true := Keys.isPlural_of_expands hx
      -- Siblings under the single key stand for the whole list.
      have hall (items : List Item)
          (hs : List.Forall₂ (Item.Says (Keys.singularize key)) items values) :
          Stand items [(key, .list values)] := by
        have := Stand.siblings hs hp hne
        rwa [hkey] at this
      rw [member, hx, if_pos rfl]
      refine (returns_modify _).bind fun _ _ => ?_
      by_cases hf : Keys.singularize key = "filters"
      · rw [if_pos hf] at h
        rw [if_neg (not_not.mpr hf)]
        rw [hf] at hall
        -- Gathered filters are written side by side, or as blocks without names.
        rcases h with hloose | ⟨hfirst, hfilters⟩
        · rw [filterForm_of_loose hloose]
          exact (returns_looseFilters hloose).mono hall
        · rw [filterForm_of_first hfirst]
          exact (returns_filterBlocks values hfilters).mono hall
      · rw [if_neg hf] at h
        rw [if_pos hf]
        exact (returns_siblings values (Keys.bare_of_isPlural hp) h).mono hall
  | .object ⟨fields⟩, place, key, hk, h => by
    obtain ⟨hplain, hname, hfields⟩ := h
    exact (returns_object hk hplain.2 hname (nodup_of_fieldsFit hfields)
      fun skip => returns_members fields skip hfields).mono fun _ ho => ho.stand hplain.1

/-- Siblings that fit are written as an item each. -/
theorem returns_siblings : ∀ (values : List Value) {place : Place} {key : String},
    isBareWord key = true → Value.SiblingsFit place.parent? key values →
      Returns (siblings place key values) fun items => List.Forall₂ (Item.Says key) items values
  | [], place, key, _, _ => by
    rw [siblings]
    exact returns_pure .nil
  | value :: rest, place, key, hk, h => by
    rw [siblings]
    refine (returns_sibling value hk h.1).bind fun first hf =>
      (returns_siblings rest hk h.2).bind fun more hm => returns_pure ?_
    obtain ⟨item, rfl, hs⟩ := hf
    exact .cons hs hm

/-- A sibling that fits is written as an item. -/
theorem returns_sibling : ∀ (value : Value) {place : Place} {key : String},
    isBareWord key = true → value.FitsBeside place.parent? key →
      Returns (member place key value) (AreOne key value)
  | .string text, place, key, hk, h => returns_text hk h
  | .list values, place, key, hk, h => by
    obtain ⟨hkey, hrow⟩ := h
    have hexpr : Keys.isExpression key = false := by rcases hkey with rfl | rfl <;> decide
    have hsingle : Keys.isPlural (Keys.singularize key) = false := by
      rcases hkey with rfl | rfl <;> decide
    exact returns_row hk hexpr (by simp [Place.expands, hsingle]) hrow
  | .object ⟨fields⟩, place, key, hk, h => by
    obtain ⟨hexpr, hname, hfields⟩ := h
    exact returns_object hk hexpr hname (nodup_of_fieldsFit hfields)
      fun skip => returns_members fields skip hfields

/-- Gathered filters that fit are written as a block each, without a name. -/
theorem returns_filterBlocks : ∀ (values : List Value) {place : Place}, Value.FiltersFit values →
    Returns (filterBlocks place false values) fun items =>
      List.Forall₂ (Item.Says "filters") items values
  | [], place, _ => by
    rw [filterBlocks]
    exact returns_pure .nil
  | .object ⟨fields⟩ :: rest, place, h => by
    obtain ⟨hfields, hrest⟩ := h
    have hinner : Returns (members (place.inside "filters") false fields) (Stand · fields) := by
      simpa using returns_members fields false hfields
    have hblock : Returns (blockAround place "filters" none fun inner => members inner false fields)
        fun b => (Item.block b).Says "filters" (.object ⟨fields⟩) :=
      returns_blockAround (by decide) (by decide) (by simp) (nodup_of_fieldsFit hfields) hinner
    rw [filterBlocks]
    exact hblock.bind fun b hb => (returns_filterBlocks rest hrest).bind fun more hm =>
      returns_pure (.cons hb hm)
  | .string text :: rest, place, h => h.elim
  | .list items :: rest, place, h => h.elim

end

end Builder

/-! ## Documents -/

/-- Well-shaped data is dumped, and loading what was dumped gives it back. -/
theorem Object.load_dump {root : Object Value} (h : root.IsWellShaped) :
    ∃ text, dump (.object root) = .ok text ∧ load text = .ok (.object root) := by
  obtain ⟨fields⟩ := root
  have hplace : Value.FieldsFit ({ layout := {} } : Builder.Place).parent? fields := h
  obtain ⟨items, after, hrun, hitems⟩ := Builder.returns_members fields false hplace {}
  have hentries : fields.filter (fun field => !(false && field.1 == "name")) = fields := by simp
  rw [hentries] at hitems
  -- The document that is built stands for the fields, with its keys in place.
  let d : Document := { container := ⟨items, true⟩ }
  have hbuild : ((Value.object ⟨fields⟩).build {}).1 = .ok d := by
    have hdocument : (Builder.document {} (.object ⟨fields⟩)).run.run {} = (.ok d, after) := by
      rw [Builder.document, run_bind_eq_ok]
      exact ⟨items, after, hrun, rfl⟩
    rw [Value.build, hdocument]
  have hproject : d.project.1 = .ok (.object ⟨fields⟩) := by
    have hp := Projector.project_eq d
    have hs : Sketch.fields true {} d.sketch = .ok ⟨fields⟩ :=
      hitems.fields true {} (by simp [Object.keys])
    rw [hs] at hp
    cases hr : d.project.1 with
    | ok value => simpa [hr, Except.mapError, Except.map] using hp
    | error e => simp [hr, Except.mapError, Except.map] at hp
  have hload : LoadsAs d.print (.ok (.object ⟨fields⟩)) :=
    hproject ▸ (Value.isTidy_of_build_default hbuild).loadsAs hitems.inPlace
  refine ⟨d.print, ?_, hload.load_eq_ok⟩
  rw [dump_eq, hbuild]
  rfl

/-- Texts, rows, a block, siblings and gathered filters, down to a named block with an
expression. -/
def Samples.shaped : Object Value :=
  ⟨[("connection", .string "c d"), ("tags", .list [.string "x", .string ""]),
    ("sorts", .list [.single "a" (.string "desc")]), ("empty", .object {}),
    ("includes", .list [.string "*.view"]), ("extends__all", .list [.list [.string "base"]]),
    ("explores", .list [.object ⟨[("sql_always_where", .string "a = \"b\""),
      ("filters__all", .list [.object ⟨[("field", .string "f"), ("value", .string "v")]⟩]),
      ("name", .string "e")]⟩])]⟩

theorem Object.load_dump_shaped : Samples.shaped.IsWellShaped ∧
    ∃ text, dump (.object Samples.shaped) = .ok text ∧
      load text = .ok (.object Samples.shaped) := by
  have h : Samples.shaped.IsWellShaped := by
    simp +decide [Samples.shaped, IsWellShaped, Value.FieldsFit, Value.Fits, Value.SiblingsFit,
      Value.FitsBeside, Value.FiltersFit, Value.FirstFilters, Value.NameIsLast, Value.AreRow,
      Value.IsField, Value.IsLoose, Value.single, Keys.IsPlain, Keys.Keeps]
  exact ⟨h, load_dump h⟩

/-- A text with blanks around it is a field of its own, but an expression is trimmed. -/
theorem Object.not_load_dump_untrimmed :
    (Builder.isBareWord "sql" = true ∧ Keys.isPlural "sql" = false) ∧
    ∃ text, dump (.single "sql" (.string " a ")) = .ok text ∧
      load text = .ok (.single "sql" (.string "a")) ∧
      load text ≠ .ok (.single "sql" (.string " a ")) := by
  have hbuild : ((Value.single "sql" (.string " a ")).build {}).1 = .ok _ := rfl
  have hload : LoadsAs _ (.ok (.single "sql" (.string "a"))) :=
    (Value.isTidy_of_build_default hbuild).loadsAs ⟨fun _ => rfl, trivial⟩
  refine ⟨by decide, _, by rw [dump_eq, hbuild]; rfl, hload.load_eq_ok, ?_⟩
  rw [hload.load_eq_ok]
  simp [Value.single]

end LookML
