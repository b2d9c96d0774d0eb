import LookML.Build.Document
import LookML.Proofs.Build.Tidy
import LookML.Proofs.Running
import LookML.Proofs.Text.Trim

/-!
# Building — what a builder builds is tidy

Each part of a builder, if it succeeds, gives a tidy part of a tree.  What an item has before it
depends on what was written last, so what holds of rows of items runs from a state to a state
(`Builds`).  One such relation is `Tidied`: after the start, every item has white space before it.
-/

namespace LookML.Builder

variable {place : Place} {s t : State} {key text : String}

/-! ## Places -/

/-- Whether the indent of a layout is white space. -/
def Place.IsBlank (place : Place) : Prop :=
  ∀ c ∈ place.layout.indent.toList, isLayout c = true

namespace Place

theorem layout_newline (h : place.IsBlank) : ∀ c ∈ place.newline.toList, isLayout c = true := by
  have hindent : ∀ n, ∀ c ∈ (String.join (List.replicate n place.layout.indent)).toList,
      isLayout c = true := by
    intro n
    induction n with
    | zero => simp
    | succ n ih =>
      intro c hc
      rw [List.replicate_succ, String.join_cons, String.toList_append, List.mem_append] at hc
      exact hc.elim (h c) (ih c)
  intro c hc
  rw [newline, String.toList_append, List.mem_append] at hc
  rcases hc with hc | hc
  · simp at hc
    simp [hc, isLayout]
  · exact hindent _ c hc

theorem layout_beforeItem (h : place.IsBlank) (previous : Previous) :
    ∀ c ∈ (place.beforeItem previous).toList, isLayout c = true := by
  have hn := layout_newline h
  cases previous <;> simp_all [beforeItem, isLayout]

theorem beforeItem_ne_empty {previous : Previous} (h : previous ≠ .start) :
    place.beforeItem previous ≠ "" := by
  cases previous <;> simp_all [beforeItem, newline]

theorem layout_beforeBlock (h : place.IsBlank) (previous : Previous) :
    ∀ c ∈ (place.beforeBlock previous).toList, isLayout c = true := by
  have hn := layout_newline h
  cases previous <;> simp_all [beforeBlock, isLayout]

theorem beforeBlock_ne_empty {previous : Previous} (h : previous ≠ .start) :
    place.beforeBlock previous ≠ "" := by
  cases previous <;> simp_all [beforeBlock, newline]

theorem IsBlank.inside (h : place.IsBlank) (key : String) : (place.inside key).IsBlank :=
  h

end Place

/-! ## Leaves -/

theorem isBare_word {before : String} (hb : ∀ c ∈ before.toList, isLayout c = true)
    (h : isBareWord text = true) : ({ Leaf.word text with before } : Leaf).IsBare :=
  { before := hb, after := rfl, form := rfl, bare := h }

theorem keyLeaf_eq_ok {leaf : Leaf} (h : (keyLeaf key text).run.run s = (.ok leaf, t)) :
    isBareWord text = true ∧ leaf = .word text ∧ s = t := by
  unfold keyLeaf at h
  split at h
  · rename_i hb
    obtain ⟨rfl, rfl⟩ := run_pure_eq_ok.mp h
    exact ⟨hb, rfl, rfl⟩
  · cases h

theorem isMark_mark (m : Mark) {before : String} (hb : ∀ c ∈ before.toList, isLayout c = true) :
    ({ Leaf.mark m with before } : Leaf).IsMark m :=
  ⟨rfl, hb, by simp [Leaf.mark]⟩

theorem isMark_plain (m : Mark) : (Leaf.mark m).IsMark m :=
  isMark_mark m (by simp)

/-- What a built value can be: an expression stands under an expression key only, and a word under
any other. -/
theorem valueLeaf_cases (key text : String) (quotes : Bool) :
    valueLeaf key text quotes = .quoted text ∨
      Keys.isExpression key = true ∧ valueLeaf key text quotes = .expression (Text.trim text) ∨
      Keys.isExpression key = false ∧ isBareWord text = true ∧
        valueLeaf key text quotes = .word text := by
  unfold valueLeaf
  by_cases hq : quotes || Keys.isQuoted key
  · exact .inl (if_pos hq)
  rw [if_neg hq]
  by_cases he : Keys.isExpression key
  · exact .inr (.inl ⟨he, if_pos he⟩)
  rw [if_neg he]
  by_cases hb : isBareWord text
  · exact .inr (.inr ⟨Bool.eq_false_iff.mpr he, hb, if_pos hb⟩)
  · exact .inl (if_neg hb)

theorem holdsExpressionEnd_trim (h : holdsExpressionEnd text.toList = false) :
    holdsExpressionEnd (Text.trim text).toList = false :=
  Token.holdsExpressionEnd_of_isInfix (Text.trim_isInfix text) h

/-- A text is written in a form of its own, if it is no expression that holds an end. -/
theorem isWell_valueLeaf {quotes : Bool}
    (h : (valueLeaf key text quotes).isExpression = true → holdsExpressionEnd text.toList = false) :
    (valueLeaf key text quotes).IsWell := by
  obtain hleaf | ⟨-, hleaf⟩ | ⟨-, hb, hleaf⟩ := valueLeaf_cases key text quotes <;>
    rw [hleaf] at h ⊢
  · trivial
  · exact ⟨rfl, rfl, Text.trim_trim text, holdsExpressionEnd_trim (h rfl)⟩
  · exact hb

theorem isExpression_valueLeaf {quotes : Bool}
    (h : (valueLeaf key text quotes).isExpression = true) : Keys.isExpression key = true := by
  obtain hleaf | ⟨hk, -⟩ | ⟨-, -, hleaf⟩ := valueLeaf_cases key text quotes
  · rw [hleaf] at h
    cases h
  · exact hk
  · rw [hleaf] at h
    cases h

theorem isExpression_of_form_valueLeaf {quotes : Bool}
    (h : (valueLeaf key text quotes).form = .word) : Keys.isExpression key = false := by
  obtain hleaf | ⟨-, hleaf⟩ | ⟨hk, -⟩ := valueLeaf_cases key text quotes
  · rw [hleaf] at h
    cases h
  · rw [hleaf] at h
    cases h
  · exact hk

theorem isLaidOut_valueLeaf (key text : String) (quotes : Bool) :
    (valueLeaf key text quotes).before = "" ∧ (valueLeaf key text quotes).after = "" := by
  obtain hleaf | ⟨-, hleaf⟩ | ⟨-, -, hleaf⟩ := valueLeaf_cases key text quotes <;>
    rw [hleaf] <;> exact ⟨rfl, rfl⟩

/-- What is built has the text, or the trimmed text under an expression key. -/
theorem value_valueLeaf_cases (key text : String) (quotes : Bool) :
    (valueLeaf key text quotes).value = text ∨ Keys.isExpression key = true ∧
      (valueLeaf key text quotes).value = Text.trim text := by
  obtain hleaf | ⟨hk, hleaf⟩ | ⟨-, -, hleaf⟩ := valueLeaf_cases key text quotes <;> rw [hleaf]
  · exact .inl rfl
  · exact .inr ⟨hk, rfl⟩
  · exact .inl rfl

/-! ## Pairs and lists -/

theorem run_wrote_eq_ok {previous : Previous} {u : Unit}
    (h : (wrote previous).run.run s = (.ok u, t)) : t = { s with previous } := by
  cases h
  rfl

/-- What a pair is, and what is left of the state. -/
theorem pair_eq_ok {p : Pair} (h : (pair place key text).run.run s = (.ok p, t)) :
    isBareWord key = true ∧
      ((valueLeaf key text (place.quotes key)).isExpression = true →
        holdsExpressionEnd text.toList = false) ∧
      p = { key := { Leaf.word key with before := place.beforeItem s.previous }
            value := valueLeaf key text (place.quotes key) } ∧
      t = { s with previous := .pair } := by
  unfold pair at h
  dsimp only at h
  split at h
  · cases h
  rename_i hends
  simp only [run_bind_eq_ok, run_get, run_pure_eq_ok] at h
  obtain ⟨leaf, s₁, hleaf, u, s₂, hw, rfl, rfl⟩ := h
  obtain ⟨hbare, rfl, rfl⟩ := keyLeaf_eq_ok hleaf
  exact ⟨hbare, fun he => by simpa [he] using hends, rfl, run_wrote_eq_ok hw⟩

/-- A pair is tidy, with what its place wants before it. -/
theorem tidy_pair (hp : place.IsBlank) {p : Pair}
    (h : (pair place key text).run.run s = (.ok p, t)) :
    p.IsTidy ∧ p.key.before = place.beforeItem s.previous ∧ t.previous = .pair := by
  obtain ⟨hbare, hends, rfl, rfl⟩ := pair_eq_ok h
  obtain ⟨hbefore, hafter⟩ := isLaidOut_valueLeaf key text (place.quotes key)
  exact ⟨⟨isBare_word (Place.layout_beforeItem hp _) hbare, rfl, ⟨⟨by simp [hbefore], hafter⟩,
    isWell_valueLeaf hends⟩, hbefore, isExpression_valueLeaf, isExpression_of_form_valueLeaf⟩,
    rfl, rfl⟩

theorem tidy_fieldPairs (hp : place.IsBlank) {fields : List (String × Value)} {ps : List Pair}
    (h : (fieldPairs place fields).run.run s = (.ok ps, t)) : ∀ p ∈ ps, p.IsTidy := by
  induction fields generalizing s t ps with
  | nil =>
    obtain ⟨rfl, -⟩ := run_pure_eq_ok.mp h
    simp
  | cons field fields ih =>
    obtain ⟨key, value⟩ := field
    cases value with
    | string text =>
      simp only [fieldPairs, run_bind_eq_ok, run_pure_eq_ok] at h
      obtain ⟨first, s₁, hfirst, more, s₂, hmore, rfl, rfl⟩ := h
      intro p hmem
      rcases List.mem_cons.mp hmem with rfl | hmem
      · exact (tidy_pair hp hfirst).1
      · exact ih hmore p hmem
    | list values => cases h
    | object object => cases h

theorem tidy_listPairs (hp : place.IsBlank) {values : List Value} {ps : List Pair}
    (h : (listPairs place key values).run.run s = (.ok ps, t)) : ∀ p ∈ ps, p.IsTidy := by
  induction values generalizing s t ps with
  | nil =>
    obtain ⟨rfl, -⟩ := run_pure_eq_ok.mp h
    simp
  | cons value values ih =>
    cases value with
    | object fields =>
      simp only [listPairs, run_bind_eq_ok, run_pure_eq_ok] at h
      obtain ⟨first, s₁, hfirst, more, s₂, hmore, rfl, rfl⟩ := h
      intro p hmem
      rcases List.mem_append.mp hmem with hmem | hmem
      · exact tidy_fieldPairs hp hfirst p hmem
      · exact ih hmore p hmem
    | string text => cases h
    | list values => cases h

/-- An entry has its text as it is: an expression would lose its margins, but is none. -/
theorem value_entryLeaf (key text : String) (quotes : Bool) :
    (entryLeaf key text quotes).value = text := by
  unfold entryLeaf
  dsimp only
  obtain hleaf | ⟨-, hleaf⟩ | ⟨-, -, hleaf⟩ := valueLeaf_cases key text quotes <;> rw [hleaf] <;> rfl

/-- The entry for a text is laid out, and no expression. -/
theorem tidy_entryLeaf {before : String} {quotes : Bool}
    (hb : ∀ c ∈ before.toList, isLayout c = true) :
    ({ entryLeaf key text quotes with before } : Leaf).IsValue ∧
      (entryLeaf key text quotes).isExpression = false := by
  unfold entryLeaf
  dsimp only
  cases he : (valueLeaf key text quotes).isExpression with
  | true =>
    rw [if_pos rfl]
    exact ⟨⟨⟨hb, rfl⟩, trivial⟩, rfl⟩
  | false =>
    rw [if_neg (by simp)]
    refine ⟨⟨⟨hb, (isLaidOut_valueLeaf key text quotes).2⟩, ?_⟩, he⟩
    have hw : (valueLeaf key text quotes).IsWell := isWell_valueLeaf (by simp [he])
    exact hw

theorem tidy_listLeaves {before : String} {quotes : Bool}
    (hb : ∀ c ∈ before.toList, isLayout c = true) {values : List Value} {vs : List Leaf}
    (h : (listLeaves key before quotes values).run.run s = (.ok vs, t)) :
    ∀ v ∈ vs, v.IsValue ∧ v.isExpression = false := by
  induction values generalizing s t vs with
  | nil =>
    obtain ⟨rfl, -⟩ := run_pure_eq_ok.mp h
    simp
  | cons value values ih =>
    cases value with
    | string text =>
      simp only [listLeaves, run_bind_eq_ok, run_pure_eq_ok] at h
      obtain ⟨more, s₁, hmore, rfl, rfl⟩ := h
      intro v hmem
      rcases List.mem_cons.mp hmem with rfl | hmem
      · exact tidy_entryLeaf hb
      · exact ih hmore v hmem
    | list values => cases h
    | object fields => cases h

theorem tidy_entries (hp : place.IsBlank) {values : List Value} {es : Entries}
    (h : (entries place key values).run.run s = (.ok es, t)) : es.IsTidy := by
  -- Either way the entries are in a place with the same layout.
  have hinner : (if isTall place.layout values then place.inside key
      else { place with parent? := some key } : Place).IsBlank := by
    split <;> exact hp
  unfold entries at h
  dsimp only at h
  split at h <;> simp only [run_bind_eq_ok, run_pure_eq_ok] at h
  · obtain ⟨ps, s₁, hps, rfl, -⟩ := h
    exact tidy_listPairs hinner hps
  · obtain ⟨vs, s₁, hvs, rfl, -⟩ := h
    refine tidy_listLeaves ?_ hvs
    split
    · exact Place.layout_newline (hp.inside key)
    · simp

theorem tidy_tallListing (hp : place.IsBlank) {leaf : Leaf} {es : Entries} (hl : leaf.IsBare)
    (he : es.IsTidy) : (tallListing place leaf es).IsTidy where
  key := hl
  colon := rfl
  opening := isMark_plain .bracketOpen
  leading := rfl
  entries := he
  separators comma hc := by
    rw [List.eq_of_mem_replicate hc]
    exact isMark_plain .comma
  trailing comma hc := by
    cases hempty : es.isEmpty with
    | true => simp [tallListing, hempty] at hc
    | false =>
      obtain rfl : Leaf.mark .comma = comma := by simpa [tallListing, hempty] using hc
      exact ⟨isMark_plain .comma, hempty⟩
  closing := isMark_mark .bracketClose (Place.layout_newline hp)

theorem tidy_inline {leaf : Leaf} {es : Entries} (hl : leaf.IsBare) (he : es.IsTidy) :
    (Listing.inline leaf es).IsTidy where
  key := hl
  colon := rfl
  opening := isMark_plain .bracketOpen
  leading := rfl
  entries := he
  separators comma hc := by
    rw [List.eq_of_mem_replicate hc]
    exact ⟨rfl, by simp [Leaf.mark], by simp [isLayout]⟩
  trailing comma hc := by simp [Listing.inline] at hc
  closing := isMark_plain .bracketClose

/-- What a list is made of.  What was written last is read before its entries are written. -/
theorem listing_eq_ok {values : List Value} {l : Listing}
    (h : (listing place key values).run.run s = (.ok l, t)) :
    isBareWord key = true ∧ ∃ es r r', (entries place key values).run.run r = (.ok es, r') ∧
      (isTall place.layout values = true → r.previous = .opened) ∧
      l = (if isTall place.layout values
        then tallListing place { Leaf.word key with before := place.beforeItem s.previous } es
        else .inline { Leaf.word key with before := place.beforeItem s.previous } es) ∧
      t = { r' with previous := .list } := by
  unfold listing at h
  dsimp only at h
  simp only [run_bind_eq_ok, run_get] at h
  obtain ⟨leaf, s₁, hleaf, h⟩ := h
  obtain ⟨hbare, rfl, rfl⟩ := keyLeaf_eq_ok hleaf
  refine ⟨hbare, ?_⟩
  cases hall : isTall place.layout values with
  | true =>
    rw [hall, if_pos rfl] at h
    simp only [run_bind_eq_ok, run_pure_eq_ok] at h
    obtain ⟨u, s₁, hopened, es, s₂, hes, u', s₃, hw, rfl, rfl⟩ := h
    obtain rfl := run_wrote_eq_ok hopened
    exact ⟨es, _, s₂, hes, fun _ => rfl, rfl, run_wrote_eq_ok hw⟩
  | false =>
    rw [hall, if_neg (by simp)] at h
    simp only [run_bind_eq_ok, run_pure_eq_ok] at h
    obtain ⟨es, s₂, hes, u', s₃, hw, rfl, rfl⟩ := h
    exact ⟨es, _, s₂, hes, by simp, rfl, run_wrote_eq_ok hw⟩

/-- A list is tidy, with what its place wants before it. -/
theorem tidy_listing (hp : place.IsBlank) {values : List Value} {l : Listing}
    (h : (listing place key values).run.run s = (.ok l, t)) :
    l.IsTidy ∧ l.key.before = place.beforeItem s.previous ∧ t.previous = .list := by
  obtain ⟨hbare, es, r, r', hes, -, rfl, rfl⟩ := listing_eq_ok h
  have hkey := isBare_word (Place.layout_beforeItem hp s.previous) hbare
  split
  · exact ⟨tidy_tallListing hp hkey (tidy_entries hp hes), rfl, rfl⟩
  · exact ⟨tidy_inline hkey (tidy_entries hp hes), rfl, rfl⟩

/-! ## Blocks -/

theorem checked_eq_ok {items : List Item} {c : Container}
    (h : (checked items).run.run s = (.ok c, t)) : Container.of items false = .ok c ∧ s = t := by
  unfold checked at h
  cases hc : Container.of items false with
  | ok container =>
    rw [hc] at h
    obtain ⟨rfl, rfl⟩ := run_pure_eq_ok.mp h
    exact ⟨rfl, rfl⟩
  | error e =>
    rw [hc] at h
    cases h

theorem nameLeaf?_eq_ok {name? : Option String} {leaf? : Option Leaf}
    (h : (nameLeaf? key name?).run.run s = (.ok leaf?, t)) :
    (∀ name ∈ name?, isBareWord name = true) ∧ leaf? = name?.map Leaf.word ∧ s = t := by
  cases name? with
  | none =>
    obtain ⟨rfl, rfl⟩ := run_pure_eq_ok.mp h
    exact ⟨by simp, rfl, rfl⟩
  | some name =>
    obtain ⟨leaf, hleaf, rfl⟩ := run_map_eq_ok.mp h
    obtain ⟨hb, rfl, rfl⟩ := keyLeaf_eq_ok hleaf
    exact ⟨by simpa using hb, rfl, rfl⟩

/-- What a block is made of. -/
theorem blockAround_eq_ok {name? : Option String} {content : Place → Building (List Item)}
    {b : Block} (h : (blockAround place key name? content).run.run s = (.ok b, t)) :
    isBareWord key = true ∧ (∀ name ∈ name?, isBareWord name = true) ∧
      ∃ items r c,
        (content (place.inside key)).run.run { s with previous := .opened } = (.ok items, r) ∧
        Container.of items false = .ok c ∧
        b = laidOut place s.previous (.word key) (name?.map Leaf.word) c ∧
        t = { r with previous := .block } := by
  unfold blockAround at h
  simp only [run_bind_eq_ok, run_get, run_pure_eq_ok] at h
  obtain ⟨leaf, s₁, hleaf, leaf?, s₂, hname, u, s₃, hw, items, s₄, hitems, c, s₅, hcheck, u', s₆,
    hw', rfl, rfl⟩ := h
  obtain ⟨hbare, rfl, rfl⟩ := keyLeaf_eq_ok hleaf
  obtain ⟨hnames, rfl, rfl⟩ := nameLeaf?_eq_ok hname
  obtain ⟨hof, rfl⟩ := checked_eq_ok hcheck
  obtain rfl := run_wrote_eq_ok hw
  exact ⟨hbare, hnames, items, s₄, c, hitems, hof, rfl, run_wrote_eq_ok hw'⟩

end LookML.Builder

namespace LookML.Value

mutual

/-- The lists in a value, from the outside in. -/
def lists : Value → List (List Value)
  | string _ => []
  | list values => values :: listsAll values
  | object ⟨fields⟩ => listsIn fields

def listsAll : List Value → List (List Value)
  | [] => []
  | value :: rest => value.lists ++ listsAll rest

/-- The lists in the values of some fields. -/
def listsIn : List (String × Value) → List (List Value)
  | [] => []
  | (_, value) :: rest => value.lists ++ listsIn rest

end

end LookML.Value

namespace LookML.Builder

variable {place : Place} {s t : State} {key text : String}

/-! ## Rows of items -/

/-- A relation between the states before and after a row of items is built.  It holds of all rows
that are built in a place with `P`, from lists with `S`, if it holds of each item. -/
structure Builds (P : Place → Prop) (S : List Value → Prop)
    (R : Place → State → List Item → State → Prop) : Prop where
  inside : ∀ {place : Place} (key : String), P place → P (place.inside key)
  nil : ∀ {place : Place} {s t : State}, t.previous = s.previous → R place s [] t
  append : ∀ {place : Place} {s r t : State} {a b : List Item}, R place s a r → R place r b t →
    R place s (a ++ b) t
  pair : ∀ {place : Place} {key text : String} {s t : State} {p : Pair}, P place →
    (pair place key text).run.run s = (.ok p, t) → R place s [.pair p] t
  listing : ∀ {place : Place} {key : String} {values : List Value} {s t : State} {l : Listing},
    P place → S values → (listing place key values).run.run s = (.ok l, t) →
    R place s [.listing l] t
  block : ∀ {place : Place} {key : String} {name? : Option String}
    {content : Place → Building (List Item)} {s t : State} {b : Block}, P place →
    (∀ {s t : State} {items : List Item},
      (content (place.inside key)).run.run s = (.ok items, t) → R (place.inside key) s items t) →
    (blockAround place key name? content).run.run s = (.ok b, t) → R place s [.block b] t

namespace Builds

variable {P : Place → Prop} {S : List Value → Prop} {R : Place → State → List Item → State → Prop}

theorem looseFilters (hR : Builds P S R) (hp : P place) {values : List Value}
    {items : List Item} (hS : ∀ list ∈ Value.listsAll values, S list)
    (h : (Builder.looseFilters place values).run.run s = (.ok items, t)) : R place s items t := by
  induction values generalizing s items with
  | nil =>
    obtain ⟨rfl, rfl⟩ := run_pure_eq_ok.mp h
    exact hR.nil rfl
  | cons value values ih =>
    rw [Value.listsAll, List.forall_mem_append] at hS
    cases value with
    | list inner =>
      simp only [Builder.looseFilters, run_bind_eq_ok, run_pure_eq_ok] at h
      obtain ⟨first, s₁, hfirst, more, s₂, hmore, rfl, rfl⟩ := h
      have hinner : S inner := hS.1 inner (by simp [Value.lists])
      exact hR.append (hR.listing hp hinner hfirst) (ih hS.2 hmore)
    | string text =>
      simp only [Builder.looseFilters, run_bind_eq_ok, run_pure_eq_ok] at h
      obtain ⟨first, s₁, hfirst, more, s₂, hmore, rfl, rfl⟩ := h
      exact hR.append (hR.pair hp hfirst) (ih hS.2 hmore)
    | object fields => cases h

mutual

/-- The relation holds of the items for the fields of a block. -/
theorem members (hR : Builds P S R) : ∀ (fields : List (String × Value)) {place : Place}
    {skip : Bool} {s t : State} {items : List Item}, P place →
      (∀ list ∈ Value.listsIn fields, S list) →
      (Builder.members place skip fields).run.run s = (.ok items, t) → R place s items t
  | [], place, skip, s, t, items, _, _, h => by
    rw [Builder.members] at h
    obtain ⟨rfl, rfl⟩ := run_pure_eq_ok.mp h
    exact hR.nil rfl
  | (key, value) :: rest, place, skip, s, t, items, hp, hS, h => by
    rw [Value.listsIn, List.forall_mem_append] at hS
    rw [Builder.members] at h
    split at h <;> simp only [pure_bind, run_bind_eq_ok, run_pure_eq_ok] at h
    · obtain ⟨more, s₁, hmore, rfl, rfl⟩ := h
      exact members hR rest hp hS.2 hmore
    · obtain ⟨first, s₁, hfirst, more, s₂, hmore, rfl, rfl⟩ := h
      exact hR.append (member hR value hp hS.1 hfirst) (members hR rest hp hS.2 hmore)

theorem member (hR : Builds P S R) : ∀ (value : Value) {place : Place} {key : String}
    {s t : State} {items : List Item}, P place → (∀ list ∈ value.lists, S list) →
      (Builder.member place key value).run.run s = (.ok items, t) → R place s items t
  | .string text, place, key, s, t, items, hp, _, h => by
    simp only [Builder.member, run_bind_eq_ok, run_pure_eq_ok] at h
    obtain ⟨p, s₁, hpair, rfl, rfl⟩ := h
    exact hR.pair hp hpair
  | .list values, place, key, s, t, items, hp, hS, h => by
    rw [Value.lists, List.forall_mem_cons] at hS
    rw [Builder.member] at h
    split at h
    · obtain ⟨u, s₁, hnote, h⟩ := run_bind_eq_ok.mp h
      -- Noting the siblings writes no item and leaves what was written last.
      have hs : s₁.previous = s.previous := by
        cases hnote
        rfl
      refine hR.append (hR.nil hs) ?_
      split at h
      · exact siblings hR values hp hS.2 h
      · split at h
        · exact filterBlocks hR values hp hS.2 h
        · simp only [run_bind_eq_ok, run_pure_eq_ok] at h
          obtain ⟨l, s₂, hl, rfl, rfl⟩ := h
          exact hR.listing hp hS.1 hl
        · exact hR.looseFilters hp hS.2 h
    · simp only [run_bind_eq_ok, run_pure_eq_ok] at h
      obtain ⟨l, s₂, hl, rfl, rfl⟩ := h
      exact hR.listing hp hS.1 hl
  | .object ⟨fields⟩, place, key, s, t, items, hp, hS, h => by
    simp only [Builder.member, run_bind_eq_ok, run_pure_eq_ok] at h
    obtain ⟨b, s₁, hblock, rfl, rfl⟩ := h
    exact hR.block hp (members hR fields (hR.inside key hp) hS) hblock

theorem siblings (hR : Builds P S R) : ∀ (values : List Value) {place : Place} {key : String}
    {s t : State} {items : List Item}, P place → (∀ list ∈ Value.listsAll values, S list) →
      (Builder.siblings place key values).run.run s = (.ok items, t) → R place s items t
  | [], place, key, s, t, items, _, _, h => by
    rw [Builder.siblings] at h
    obtain ⟨rfl, rfl⟩ := run_pure_eq_ok.mp h
    exact hR.nil rfl
  | value :: rest, place, key, s, t, items, hp, hS, h => by
    rw [Value.listsAll, List.forall_mem_append] at hS
    simp only [Builder.siblings, run_bind_eq_ok, run_pure_eq_ok] at h
    obtain ⟨first, s₁, hfirst, more, s₂, hmore, rfl, rfl⟩ := h
    exact hR.append (member hR value hp hS.1 hfirst) (siblings hR rest hp hS.2 hmore)

theorem filterBlocks (hR : Builds P S R) : ∀ (values : List Value) {place : Place} {named : Bool}
    {s t : State} {items : List Item}, P place → (∀ list ∈ Value.listsAll values, S list) →
      (Builder.filterBlocks place named values).run.run s = (.ok items, t) → R place s items t
  | [], place, named, s, t, items, _, _, h => by
    rw [Builder.filterBlocks] at h
    obtain ⟨rfl, rfl⟩ := run_pure_eq_ok.mp h
    exact hR.nil rfl
  | .object ⟨fields⟩ :: rest, place, named, s, t, items, hp, hS, h => by
    rw [Value.listsAll, List.forall_mem_append] at hS
    simp only [Builder.filterBlocks, run_bind_eq_ok, run_pure_eq_ok] at h
    obtain ⟨first, s₁, hfirst, more, s₂, hmore, rfl, rfl⟩ := h
    have hblock := hR.block hp (members hR fields (hR.inside _ hp) hS.1) hfirst
    exact hR.append hblock (filterBlocks hR rest hp hS.2 hmore)
  | .string text :: rest, place, named, s, t, items, hp, _, h => by
    simp only [Builder.filterBlocks] at h
    cases h
  | .list values :: rest, place, named, s, t, items, hp, _, h => by
    simp only [Builder.filterBlocks] at h
    cases h

end

end Builds

/-! ## Tidy items -/

/-- The items that are built from a state to a state: they are tidy, after the start each has white
space before it, and once something is written the start is over. -/
structure Tidied (s : State) (items : List Item) (t : State) : Prop where
  tidy : Item.AllTidy items
  parted : s.previous ≠ .start → ∀ item ∈ items.head?, item.keyLeaf.before ≠ ""
  progress : s.previous ≠ .start ∨ items ≠ [] → t.previous ≠ .start

theorem Tidied.nil (h : t.previous = s.previous) : Tidied s [] t where
  tidy := trivial
  parted := by simp
  progress := by simp [h]

theorem Tidied.single {item : Item} (ht : item.IsTidy)
    (hb : s.previous ≠ .start → item.keyLeaf.before ≠ "") (hn : t.previous ≠ .start) :
    Tidied s [item] t where
  tidy := ⟨ht, by simp, trivial⟩
  parted hs := by simpa using hb hs
  progress _ := hn

theorem allTidy_append {a b : List Item} (ha : Item.AllTidy a) (hb : Item.AllTidy b)
    (hp : a ≠ [] → ∀ item ∈ b.head?, item.keyLeaf.before ≠ "") : Item.AllTidy (a ++ b) := by
  induction a with
  | nil => exact hb
  | cons first a ih =>
    obtain ⟨hfirst, hnext, ha⟩ := ha
    refine ⟨hfirst, ?_, ih ha fun _ => hp (by simp)⟩
    cases a with
    | nil => simpa using hp (by simp)
    | cons second a => simpa using hnext

theorem Tidied.append {a b : List Item} {r : State} (ha : Tidied s a r) (hb : Tidied r b t) :
    Tidied s (a ++ b) t where
  tidy := allTidy_append ha.tidy hb.tidy fun hne => hb.parted (ha.progress (.inr hne))
  parted hs := by
    -- If `a` is empty, the items of `b` come right after what was written before.
    cases a with
    | nil => exact hb.parted (ha.progress (.inl hs))
    | cons first a => exact ha.parted hs
  progress hs := by
    refine hb.progress ?_
    rcases hs with hs | hs
    · exact .inl (ha.progress (.inl hs))
    · by_cases hne : a = []
      · subst hne
        exact .inr hs
      · exact .inl (ha.progress (.inr hne))

theorem tidied_pair (hp : place.IsBlank) {p : Pair}
    (h : (pair place key text).run.run s = (.ok p, t)) : Tidied s [.pair p] t := by
  obtain ⟨ht, hb, hn⟩ := tidy_pair hp h
  refine .single ht (fun hs => ?_) (by simp [hn])
  rw [Item.keyLeaf, hb]
  exact Place.beforeItem_ne_empty hs

theorem tidied_listing (hp : place.IsBlank) {values : List Value} {l : Listing}
    (h : (listing place key values).run.run s = (.ok l, t)) : Tidied s [.listing l] t := by
  obtain ⟨ht, hb, hn⟩ := tidy_listing hp h
  refine .single ht (fun hs => ?_) (by simp [hn])
  rw [Item.keyLeaf, hb]
  exact Place.beforeItem_ne_empty hs

theorem firstRepeat?_of_ok {items : List Item} {c : Container}
    (h : Container.of items false = .ok c) : Container.firstRepeat? [] c.items = none := by
  rw [Container.items_of h]
  cases hr : Container.firstRepeat? [] items with
  | none => rfl
  | some item => simp [Container.of, hr] at h

/-- A block is tidy if its content is, with what its place wants before it. -/
theorem tidied_blockAround (hp : place.IsBlank) {name? : Option String}
    {content : Place → Building (List Item)}
    (hc : ∀ {s t : State} {items : List Item},
      (content (place.inside key)).run.run s = (.ok items, t) → Tidied s items t)
    {b : Block} (h : (blockAround place key name? content).run.run s = (.ok b, t)) :
    Tidied s [.block b] t := by
  obtain ⟨hbare, hnames, items, r, c, hitems, hof, rfl, rfl⟩ := blockAround_eq_ok h
  have hinner := (hc hitems).tidy
  -- White space stands before the opening brace of a named block and before a closing brace.
  have hblanks : ∀ c ∈ (if (name?.map Leaf.word).isSome then " " else "" : String).toList,
      isLayout c = true := by
    cases name? <;> simp [isLayout]
  have hclosing : ∀ d ∈ (if c.items.isEmpty then "" else place.newline).toList,
      isLayout d = true := by
    split
    · simp
    · exact Place.layout_newline hp
  refine .single ⟨⟨isBare_word (Place.layout_beforeBlock hp s.previous) hbare, rfl, ?_,
    isMark_mark .braceOpen hblanks, isMark_mark .braceClose hclosing⟩,
    firstRepeat?_of_ok hof, ?_⟩ (fun hs => ?_) (by simp)
  · intro leaf hleaf
    obtain ⟨name, hn, rfl⟩ := Option.map_eq_some_iff.mp hleaf
    have hb : ∀ c ∈ ("" : String).toList, isLayout c = true := by simp
    exact isBare_word hb (hnames name hn)
  · obtain ⟨list, topLevel⟩ := c
    obtain rfl := Container.items_of hof
    exact hinner
  · exact Place.beforeBlock_ne_empty hs

/-- Whatever is built in a blank place is tidy. -/
theorem builds_tidied : Builds Place.IsBlank (fun _ => True) fun _ => Tidied where
  inside key hp := hp.inside key
  nil := .nil
  append := .append
  pair hp h := tidied_pair hp h
  listing hp _ h := tidied_listing hp h
  block hp hc h := tidied_blockAround hp hc h

end LookML.Builder

namespace LookML

/-- The document for plain data, in a layout whose indent is white space, is tidy. -/
theorem Value.isTidy_of_build {layout : Layout} {value : Value} {d : Document}
    (hl : ∀ c ∈ layout.indent.toList, isLayout c = true) (h : (value.build layout).1 = .ok d) :
    d.IsTidy := by
  cases value with
  | object fields =>
    have hrun : (Builder.document layout (.object fields)).run.run {} =
        (.ok d, ((Builder.document layout (.object fields)).run.run {}).2) := Prod.ext h rfl
    simp only [Builder.document, run_bind_eq_ok, run_pure_eq_ok] at hrun
    obtain ⟨items, s, hitems, rfl, -⟩ := hrun
    have hblank : Builder.Place.IsBlank { layout } := hl
    have htidied := Builder.builds_tidied.members fields.entries hblank (fun _ _ => trivial) hitems
    exact ⟨htidied.tidy, rfl, rfl⟩
  | string text => cases h
  | list values => cases h

end LookML
