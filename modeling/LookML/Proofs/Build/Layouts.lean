import LookML.Proofs.Build.Faithful
import LookML.Proofs.Build.Stripped

/-!
# Layouts — what is built says the same in every layout

A layout decides on trivia and on commas alone.  Two builders that stand below the same key are
alike, whatever their layouts and levels and whatever either has written before (`Alike`): both
fail with the same error, or what they build is the same once it is stripped.  So loading what is
dumped does not depend on the layout, as long as its expression keys are in place.
-/

namespace LookML

namespace Builder

variable {α β γ δ : Type}

/-! ## Builders that are alike -/

/-- From any two states, both fail with the same error, or their results have the same image. -/
def Alike (f : α → β) (x y : Building α) : Prop :=
  ∀ s t, (x.run.run s).1.map f = (y.run.run t).1.map f

section alike

variable {f : α → β} {g : γ → δ} {x y : Building α} {h k : α → Building γ}

theorem alike_pure {a b : α} (hab : f a = f b) : Alike f (pure a) (pure b) :=
  fun _ _ => congrArg Except.ok hab

theorem alike_throw (f : α → β) (e : BuildError) : Alike f (throw e) (throw e) :=
  fun _ _ => rfl

/-- Where the results are alike, so is what goes on from them. -/
theorem Alike.bind (hx : Alike f x y) (hk : ∀ a b, f a = f b → Alike g (h a) (k b)) :
    Alike g (x >>= h) (y >>= k) := by
  intro s t
  have hr := hx s t
  rw [run_bind, run_bind]
  revert hr
  -- Both fail or both go on, perhaps from different states.
  rcases x.run.run s with ⟨e | a, s'⟩ <;> rcases y.run.run t with ⟨e' | b, t'⟩ <;> intro hr
  · exact congrArg Except.error (Except.error.inj hr)
  · cases hr
  · cases hr
  · exact hk a b (Except.ok.inj hr) s' t'

/-- What was written last may differ. -/
theorem alike_get_bind {h k : State → Building γ} (hk : ∀ s t, Alike g (h s) (k t)) :
    Alike g (get >>= h) (get >>= k) := by
  intro s t
  rw [run_get, run_get]
  exact hk s t s t

theorem alike_modify (f : PUnit → β) (change change' : State → State) :
    Alike f (modify change) (modify change') :=
  fun _ _ => rfl

/-- An opening bracket that one of them writes changes nothing that is read later. -/
theorem Alike.opened (hx : Alike f x y) (tall tall' : Bool) :
    Alike f (if tall then wrote .opened >>= fun _ => x else x)
      (if tall' then wrote .opened >>= fun _ => y else y) := by
  cases tall <;> cases tall' <;> exact fun s t => hx _ _

end alike

/-! ## Places below the same key -/

section alikePlaces

variable {place place' : Place}

theorem Place.quotes_congr (hp : place.parent? = place'.parent?) (key : String) :
    place.quotes key = place'.quotes key := by
  rw [quotes, quotes, hp]

theorem Place.expands_congr (hp : place.parent? = place'.parent?) (key : String) :
    place.expands key = place'.expands key := by
  rw [expands, expands, inAccessGrant, inAccessGrant, hp]

/-! ## Pairs and lists -/

theorem alike_keyLeaf (key text : String) : Alike id (keyLeaf key text) (keyLeaf key text) := by
  unfold keyLeaf
  split
  · exact alike_pure rfl
  · exact alike_throw id _

theorem alike_pair (hp : place.parent? = place'.parent?) (key text : String) :
    Alike (Pair.map Leaf.stripped) (pair place key text) (pair place' key text) := by
  unfold pair
  rw [Place.quotes_congr hp]
  dsimp only
  split
  · exact alike_throw _ _
  refine (alike_keyLeaf key key).bind fun leaf leaf' hleaf => ?_
  obtain rfl : leaf = leaf' := hleaf
  refine alike_get_bind fun s t => (alike_modify id _ _).bind fun _ _ _ => ?_
  exact alike_pure rfl

theorem alike_fieldPairs (hp : place.parent? = place'.parent?) (fields : List (String × Value)) :
    Alike (List.map (Pair.map Leaf.stripped)) (fieldPairs place fields)
      (fieldPairs place' fields) := by
  induction fields with
  | nil => exact alike_pure rfl
  | cons field fields ih =>
    obtain ⟨key, value⟩ := field
    cases value with
    | string text =>
      refine (alike_pair hp key text).bind fun p p' hfirst => ih.bind fun ps ps' hmore => ?_
      exact alike_pure (congrArg₂ List.cons hfirst hmore)
    | list values => exact alike_throw _ _
    | object object => exact alike_throw _ _

theorem alike_listPairs (hp : place.parent? = place'.parent?) (key : String)
    (values : List Value) : Alike (List.map (Pair.map Leaf.stripped))
      (listPairs place key values) (listPairs place' key values) := by
  induction values with
  | nil => exact alike_pure rfl
  | cons value values ih =>
    cases value with
    | object fields =>
      refine (alike_fieldPairs hp fields.entries).bind fun ps ps' hfirst =>
        ih.bind fun qs qs' hmore => ?_
      refine alike_pure ?_
      rw [List.map_append, List.map_append, hfirst, hmore]
    | string text => exact alike_throw _ _
    | list values => exact alike_throw _ _

theorem alike_listLeaves (key before before' : String) (quotes : Bool) (values : List Value) :
    Alike (List.map Leaf.stripped) (listLeaves key before quotes values)
      (listLeaves key before' quotes values) := by
  induction values with
  | nil => exact alike_pure rfl
  | cons value values ih =>
    cases value with
    | string text =>
      refine ih.bind fun vs vs' hmore => alike_pure ?_
      exact congrArg₂ List.cons rfl hmore
    | list values => exact alike_throw _ _
    | object object => exact alike_throw _ _

/-- The entries of a list stand below its key, whether it is written on one line or not. -/
theorem alike_entries (hp : place.parent? = place'.parent?) (key : String) (values : List Value) :
    Alike (Entries.map Leaf.stripped) (entries place key values) (entries place' key values) := by
  have hinner (p : Place) (tall : Bool) :
      (if tall then p.inside key else { p with parent? := some key }).parent? = some key := by
    cases tall <;> rfl
  unfold entries
  dsimp only
  split
  · refine (alike_listPairs ((hinner _ _).trans (hinner _ _).symm) key values).bind
      fun ps ps' hps => alike_pure ?_
    exact congrArg Entries.pairs hps
  · rw [Place.quotes_congr hp]
    refine (alike_listLeaves key _ _ _ values).bind fun vs vs' hvs => alike_pure ?_
    exact congrArg Entries.values hvs

/-- How a list is laid out does not show once it is stripped. -/
theorem stripped_laidOut (place : Place) (leaf : Leaf) (es : Entries) (tall : Bool) :
    (if tall then tallListing place leaf es else .inline leaf es).stripped =
      { key := leaf.stripped
        colon := Leaf.colon.stripped
        entries := es.map Leaf.stripped
        separators := [] } := by
  cases tall <;> rfl

theorem alike_listing (hp : place.parent? = place'.parent?) (key : String) (values : List Value) :
    Alike Listing.stripped (listing place key values) (listing place' key values) := by
  unfold listing
  dsimp only
  refine (alike_keyLeaf key key).bind fun leaf leaf' hleaf => ?_
  obtain rfl : leaf = leaf' := hleaf
  -- One of the lists may be tall and the other not.
  refine alike_get_bind fun s t => Alike.opened ?_ _ _
  refine (alike_entries hp key values).bind fun es es' hes =>
    (alike_modify id _ _).bind fun _ _ _ => alike_pure ?_
  rw [stripped_laidOut, stripped_laidOut, hes]
  rfl

/-! ## Blocks -/

theorem alike_checked {items items' : List Item}
    (h : Item.strippedAll items = Item.strippedAll items') :
    Alike Container.stripped (checked items) (checked items') := by
  have hof : (Container.of items false).map Container.stripped =
      (Container.of items' false).map Container.stripped := by
    rw [← Container.of_strippedAll, h, Container.of_strippedAll]
  unfold checked
  revert hof
  cases Container.of items false <;> cases Container.of items' false <;> intro hof
  · obtain rfl := Except.error.inj hof
    exact alike_throw _ _
  · cases hof
  · cases hof
  · exact alike_pure (Except.ok.inj hof)

theorem alike_nameLeaf? (key : String) (name? : Option String) :
    Alike id (nameLeaf? key name?) (nameLeaf? key name?) := by
  cases name? with
  | none => exact alike_pure rfl
  | some name =>
    refine (alike_keyLeaf key name).bind fun leaf leaf' hleaf => alike_pure ?_
    exact congrArg some hleaf

theorem stripped_block_laidOut (place : Place) (previous : Previous) (key : Leaf)
    (name? : Option Leaf) (c : Container) :
    (laidOut place previous key name? c).stripped =
      ⟨key.stripped, Leaf.colon.stripped, name?.map Leaf.stripped, .mark .braceOpen, c.stripped,
        .mark .braceClose⟩ := by
  simp only [laidOut, Block.stripped]
  rfl

/-- Blocks under one key are alike if their content is, wherever the blocks stand. -/
theorem alike_blockAround (key : String) (name? : Option String)
    {content : Place → Building (List Item)}
    (hc : ∀ {inner inner' : Place}, inner.parent? = inner'.parent? →
      Alike Item.strippedAll (content inner) (content inner')) :
    Alike Block.stripped (blockAround place key name? content)
      (blockAround place' key name? content) := by
  have hinner : (place.inside key).parent? = (place'.inside key).parent? := rfl
  unfold blockAround
  refine (alike_keyLeaf key key).bind fun leaf leaf' hleaf => ?_
  obtain rfl : leaf = leaf' := hleaf
  refine (alike_nameLeaf? key name?).bind fun leaf? leaf?' hname => ?_
  obtain rfl : leaf? = leaf?' := hname
  refine alike_get_bind fun s t => (alike_modify id _ _).bind fun _ _ _ => ?_
  refine (hc hinner).bind fun items items' hitems => (alike_checked hitems).bind fun c c' hcheck =>
    (alike_modify id _ _).bind fun _ _ _ => alike_pure ?_
  rw [stripped_block_laidOut, stripped_block_laidOut, hcheck]

theorem alike_looseFilters (hp : place.parent? = place'.parent?) (values : List Value) :
    Alike Item.strippedAll (looseFilters place values) (looseFilters place' values) := by
  induction values with
  | nil => exact alike_pure rfl
  | cons value values ih =>
    cases value with
    | list inner =>
      refine (alike_listing hp "filters" inner).bind fun l l' hfirst =>
        ih.bind fun rest rest' hmore => alike_pure ?_
      exact congrArg₂ List.cons (congrArg Item.listing hfirst) hmore
    | string text =>
      refine (alike_pair hp "filters" text).bind fun p p' hfirst =>
        ih.bind fun rest rest' hmore => alike_pure ?_
      exact congrArg₂ List.cons (congrArg Item.pair hfirst) hmore
    | object fields => exact alike_throw _ _

end alikePlaces

/-! ## Everything -/

/-- Items from two builders that are alike, after items that are. -/
theorem Alike.append {x y k k' : Building (List Item)} (hx : Alike Item.strippedAll x y)
    (hk : Alike Item.strippedAll k k') :
    Alike Item.strippedAll (do return (← x) ++ (← k)) (do return (← y) ++ (← k')) := by
  refine hx.bind fun a a' ha => hk.bind fun b b' hb => alike_pure ?_
  rw [Item.strippedAll_append, Item.strippedAll_append, ha, hb]

mutual

/-- The items for the fields of a block are alike below the same key. -/
theorem alike_members : ∀ (fields : List (String × Value)) {place place' : Place} (skip : Bool),
    place.parent? = place'.parent? →
      Alike Item.strippedAll (members place skip fields) (members place' skip fields)
  | [], _, _, _, _ => by
    rw [members, members]
    exact alike_pure rfl
  | (key, value) :: rest, place, place', skip, hp => by
    rw [members, members]
    split
    · exact (alike_pure rfl).append (alike_members rest skip hp)
    · exact (alike_member value key hp).append (alike_members rest skip hp)

theorem alike_member : ∀ (value : Value) {place place' : Place} (key : String),
    place.parent? = place'.parent? →
      Alike Item.strippedAll (member place key value) (member place' key value)
  | .string text, _, _, key, hp => by
    simp only [member]
    refine (alike_pair hp key text).bind fun p p' hfirst => alike_pure ?_
    exact congrArg (fun p => [Item.pair p]) hfirst
  | .list values, place, place', key, hp => by
    have hlisting (key : String) : Alike Item.strippedAll
        (do return [.listing (← listing place key values)])
        (do return [.listing (← listing place' key values)]) :=
      (alike_listing hp key values).bind fun _ _ hfirst =>
        alike_pure (congrArg (fun l => [Item.listing l]) hfirst)
    rw [member, member, Place.expands_congr hp]
    -- Which form a list has depends on its key, on the key around it and on its values alone.
    split
    · refine (alike_modify id _ _).bind fun _ _ _ => ?_
      split
      · exact alike_siblings values _ hp
      · split
        · exact alike_filterBlocks values _ hp
        · exact hlisting "filters"
        · exact alike_looseFilters hp values
    · exact hlisting key
  | .object ⟨fields⟩, place, place', key, hp => by
    simp only [member]
    refine (alike_blockAround key _ fun hi => alike_members fields _ hi).bind fun b b' hfirst =>
      alike_pure ?_
    exact congrArg (fun b => [Item.block b]) hfirst

theorem alike_siblings : ∀ (values : List Value) {place place' : Place} (key : String),
    place.parent? = place'.parent? →
      Alike Item.strippedAll (siblings place key values) (siblings place' key values)
  | [], _, _, _, _ => by
    rw [siblings, siblings]
    exact alike_pure rfl
  | value :: rest, _, _, key, hp => by
    rw [siblings, siblings]
    exact (alike_member value key hp).append (alike_siblings rest key hp)

theorem alike_filterBlocks : ∀ (values : List Value) {place place' : Place} (named : Bool),
    place.parent? = place'.parent? →
      Alike Item.strippedAll (filterBlocks place named values) (filterBlocks place' named values)
  | [], _, _, _, _ => by
    rw [filterBlocks, filterBlocks]
    exact alike_pure rfl
  | .object ⟨fields⟩ :: rest, _, _, named, hp => by
    simp only [filterBlocks]
    refine (alike_blockAround _ _ fun hi => alike_members fields _ hi).bind fun b b' hfirst =>
      (alike_filterBlocks rest named hp).bind fun items items' hmore => alike_pure ?_
    exact congrArg₂ List.cons (congrArg Item.block hfirst) hmore
  | .string _ :: _, _, _, _, _ => by
    simp only [filterBlocks]
    exact alike_throw _ _
  | .list _ :: _, _, _, _, _ => by
    simp only [filterBlocks]
    exact alike_throw _ _

end

theorem alike_document (l l' : Layout) (value : Value) :
    Alike Document.stripped (document l value) (document l' value) := by
  cases value with
  | object fields =>
    have hp : ({ layout := l } : Place).parent? = ({ layout := l' } : Place).parent? := rfl
    refine (alike_members fields.entries false hp).bind fun items items' hitems => alike_pure ?_
    simp only [Document.stripped, Container.stripped, hitems]
  | string text => exact alike_throw _ _
  | list values => exact alike_throw _ _

end Builder

/-- In every two layouts a value has the same document but for the layout, or the same error. -/
theorem Value.stripped_build (value : Value) (l l' : Layout) :
    (value.build l).1.map Document.stripped = (value.build l').1.map Document.stripped :=
  Builder.alike_document l l' value {} {}

/-! ## Loading in every layout -/

/-- Whether loading ends alike for two sources: in the same data, or over the same key. -/
def LoadAlike (source source' : String) : Prop :=
  match load source, load source' with
  | .ok value, .ok value' => value = value'
  | .error (.projection e), .error (.projection e') => e.key = e'.key
  | _, _ => False

theorem LoadsAs.load_eq_error {source : String} {e : ProjectionError}
    (h : LoadsAs source (.error e)) :
    ∃ e', load source = .error (.projection e') ∧ e'.key = e.key := by
  unfold LoadsAs at h
  split at h
  · rename_i hvalue
    cases hvalue
  · rename_i e' e'' hload he
    exact ⟨e', hload, h.trans (congrArg ProjectionError.key (Except.error.inj he).symm)⟩
  · exact h.elim

/-- Sources that load as projections with one outcome load alike. -/
theorem LoadsAs.loadAlike {a b : String} {x y : Except ProjectionError Value} (ha : LoadsAs a x)
    (hb : LoadsAs b y) (h : x.mapError ProjectionError.key = y.mapError ProjectionError.key) :
    LoadAlike a b := by
  unfold LoadAlike
  cases x with
  | ok value =>
    cases y with
    | ok value' =>
      rw [ha.load_eq_ok, hb.load_eq_ok]
      exact Except.ok.inj h
    | error e' => cases h
  | error e =>
    cases y with
    | ok value' => cases h
    | error e' =>
      obtain ⟨ea, hea, hka⟩ := ha.load_eq_error
      obtain ⟨eb, heb, hkb⟩ := hb.load_eq_error
      have hk : e.key = e'.key := Except.error.inj h
      rw [hea, heb]
      exact hka.trans (hk.trans hkb.symm)

/-- Layouts whose indents are white space never change what is meant: a value is built in both or
fails with the same error in both, and what is built loads alike if its expression keys are in
place, which they are in both documents or in neither. -/
theorem Value.loadAlike_of_build (value : Value) {l l' : Layout}
    (hl : ∀ c ∈ l.indent.toList, isLayout c = true)
    (hl' : ∀ c ∈ l'.indent.toList, isLayout c = true) :
    match (value.build l).1, (value.build l').1 with
    | .ok d, .ok d' =>
      (d.KeysInPlace ↔ d'.KeysInPlace) ∧ (d.KeysInPlace → LoadAlike d.print d'.print)
    | .error e, .error e' => e = e'
    | _, _ => False := by
  have h := value.stripped_build l l'
  cases hd : (value.build l).1 with
  | error e =>
    cases hd' : (value.build l').1 with
    | error e' =>
      rw [hd, hd'] at h
      exact Except.error.inj h
    | ok d' =>
      rw [hd, hd'] at h
      cases h
  | ok d =>
    cases hd' : (value.build l').1 with
    | error e' =>
      rw [hd, hd'] at h
      cases h
    | ok d' =>
      rw [hd, hd'] at h
      have hs : d.stripped = d'.stripped := Except.ok.inj h
      have hkeys : d.KeysInPlace ↔ d'.KeysInPlace := by
        rw [← d.keysInPlace_stripped, hs, d'.keysInPlace_stripped]
      have hsketch : d.sketch = d'.sketch := by
        rw [← d.sketch_stripped, hs, d'.sketch_stripped]
      refine ⟨hkeys, fun hp => ?_⟩
      have hloads := (isTidy_of_build hl hd).loadsAs hp
      have hloads' := (isTidy_of_build hl' hd').loadsAs (hkeys.mp hp)
      exact hloads.loadAlike hloads' (Document.project_congr hsketch)

/-- A view with its only list on one line, and one with an entry to a line and tabs for an
indent. -/
theorem loadAlike_of_build_namedView :
    ∃ d d', (Samples.namedView.build {}).1 = .ok d ∧
      (Samples.namedView.build ⟨"\t", 0⟩).1 = .ok d' ∧ d.print ≠ d'.print ∧
      LoadAlike d.print d'.print := by
  have h : (Samples.namedView.build {}).1 = .ok _ := rfl
  have h' : (Samples.namedView.build ⟨"\t", 0⟩).1 = .ok _ := rfl
  have hspaces : ∀ c ∈ ({} : Layout).indent.toList, isLayout c = true := by simp [isLayout]
  have htabs : ∀ c ∈ (⟨"\t", 0⟩ : Layout).indent.toList, isLayout c = true := by simp [isLayout]
  have halike := Value.loadAlike_of_build Samples.namedView hspaces htabs
  rw [h, h'] at halike
  exact ⟨_, _, h, h', by decide +kernel,
    halike.2 ⟨⟨rfl, fun _ => rfl, ⟨rfl, trivial⟩, trivial⟩, trivial⟩⟩

end LookML
