import LookML.Proofs.Parser.WellMade

/-!
# Parts — what holds of each part of a parsed document

Each part of a document is made by a rule of the grammar, which reads it from somewhere in the
tokens of the source.  What holds of the pairs, lists and blocks that these rules make, wherever in
such tokens, therefore holds of all parts of the document (`forall_part_of_parse`).
-/

namespace LookML

namespace Parser

open Production

/-- What rules make: pairs, lists and blocks with `P`, from tokens with `I`, which holds from
anywhere in them.  Parts of other kinds have `P` in any case. -/
structure Makes (I : List Token → Prop) (P : Part → Prop) : Prop where
  left : ∀ {taken tokens : List Token}, I (taken ++ tokens) → I tokens
  plain : ∀ {part : Part}, part.isPair = false → part.isListing = false → part.isBlock = false →
    P part
  pair : ∀ {p q : Parser} {pair : Pair}, I p.rest → Parser.pair p = .matched pair q → P (.pair pair)
  listing : ∀ {p q : Parser} {list : Listing}, I p.rest → Parser.listing p = .matched list q →
    P (.listing list)
  block : ∀ {p q : Parser} {container : Production Container} {block : Block}, I p.rest →
    blockOf container p = .matched block q → P (.block block)

namespace Makes

variable {I : List Token → Prop} {P : Part → Prop} {p q : Parser} (hm : Makes I P)

include hm

theorem leaf (leaf : Leaf) : P (.leaf leaf) := hm.plain rfl rfl rfl

theorem of_reads {a b : List Token} {s : String} {l : List Lexeme} (h : Reads a s l b) (ha : I a) :
    I b := by
  obtain ⟨taken, rfl, -, -⟩ := h
  exact hm.left ha

theorem walk_pair {pair : Pair} (hp : I p.rest) (h : Parser.pair p = .matched pair q) :
    ∀ part ∈ pair.walk, P part := by
  simp [Pair.walk, hm.leaf, hm.pair hp h]

theorem walk_listEntry {entry : ListEntry} (hp : I p.rest) (h : listEntry p = .matched entry q) :
    ∀ part ∈ entry.walk, P part := by
  obtain ⟨-, ⟨pair, hpair, rfl⟩ | ⟨p₁, leaf, -, -, rfl⟩⟩ := listEntry_eq_matched h
  · exact hm.walk_pair hp hpair
  · simp [ListEntry.walk, hm.leaf]

theorem walk_moreEntries {α : Type} {as : ListEntry → Except Fault α} {walk : α → List Part}
    (has : ∀ {e a}, as e = .ok a → e.walk = walk a) {fuel : Nat} {more : List (Leaf × α)}
    {trailing? : Option Leaf} (hp : I p.rest)
    (h : moreEntries as fuel p = .matched (more, trailing?) q) :
    ∀ entry ∈ (more.map Prod.snd).map walk, ∀ part ∈ entry, P part := by
  induction fuel generalizing p more trailing? with
  | zero => simp [moreEntries, mismatch] at h
  | succ fuel ih =>
    obtain ⟨rfl, -, -⟩ | ⟨leaf, -, rfl, -⟩ |
      ⟨leaf, p₁, entry, p₂, a, rest, hc, he, ha, hrest, rfl⟩ := moreEntries_eq_matched h
    · simp
    · simp
    · have h₁ := hm.of_reads (reads_of_comma hc) hp
      have h₂ := hm.of_reads (reads_of_listEntry he) h₁
      rw [List.map_cons, List.map_cons, List.forall_mem_cons, ← has ha]
      exact ⟨hm.walk_listEntry h₁ he, ih h₂ hrest⟩

theorem walk_listValues {v : ListValues} (hp : I p.rest) (h : listValues p = .matched v q) :
    ∀ entry ∈ v.entries.walkEach, ∀ part ∈ entry, P part := by
  obtain ⟨rfl, -⟩ | ⟨first, p₁, hfirst, hmore⟩ | ⟨first, p₁, hfirst, hmore⟩ :=
    listValues_eq_matched h
  · simp [Entries.walkEach]
  all_goals
    obtain ⟨more, hmore, he, -⟩ := entriesFrom_eq_matched hmore
    have h₁ := hm.of_reads (reads_of_listEntry hfirst) hp
    rw [he, Entries.walkEach, List.map_cons, List.forall_mem_cons]
  · exact ⟨hm.walk_listEntry hp hfirst, hm.walk_moreEntries walk_of_asPair h₁ hmore⟩
  · exact ⟨hm.walk_listEntry hp hfirst, hm.walk_moreEntries walk_of_asValue h₁ hmore⟩

theorem walk_listing {list : Listing} (hp : I p.rest) (h : Parser.listing p = .matched list q) :
    ∀ part ∈ list.walk, P part := by
  have hlist := hm.listing hp h
  obtain ⟨q, hb, -⟩ := attempt_eq_matched h
  simp only [bind_eq_matched, pure_apply, Reply.matched.injEq] at hb
  obtain ⟨⟨k, c⟩, p₁, h₁, before, p₂, h₂, line, p₃, h₃, leading?, p₄, h₄, v, p₅, h₅, closing, p₆, -,
    rfl, -⟩ := hb
  have hr := (((reads_of_key h₁).trans (reads_of_trivia h₂)).trans (reads_of_mark h₃)).trans
    (reads_of_optional_comma h₄)
  exact Listing.forall_mem_walk hm.leaf hlist (hm.walk_listValues (hm.of_reads hr hp) h₅)

section items

variable {container : Production Container}
  (hc : ∀ {p q : Parser} {c : Container}, I p.rest → container p = .matched c q →
    ∀ part ∈ c.walk, P part)

include hc

theorem walk_blockOf {b : Block} (hp : I p.rest) (h : blockOf container p = .matched b q) :
    ∀ part ∈ b.walk, P part := by
  have hblock := hm.block hp h
  obtain ⟨q, hb, -⟩ := attempt_eq_matched h
  simp only [bind_eq_matched, pure_apply, Reply.matched.injEq] at hb
  obtain ⟨⟨k, c⟩, p₁, h₁, name?, p₂, h₂, opening, p₃, h₃, inner, p₄, h₄, closing, p₅, -, rfl, -⟩ :=
    hb
  have hr := ((reads_of_key h₁).trans (reads_of_optional_word h₂)).trans (reads_of_bracket h₃)
  exact Block.forall_mem_walk hm.leaf hblock (hc (hm.of_reads hr hp) h₄)

theorem walk_itemOf (hs : Scripted container) {item : Item} (hp : I p.rest)
    (h : itemOf container p = .matched item q) :
    ∀ part ∈ item.walk, P part := by
  obtain ⟨b, hb, rfl⟩ | ⟨p₁, hrest, ⟨pair, hpair, rfl⟩ | ⟨list, hl, rfl⟩⟩ := itemOf_eq_matched hs h
  · exact hm.walk_blockOf hc hp hb
  · exact hm.walk_pair (hrest ▸ hp) hpair
  · exact hm.walk_listing (hrest ▸ hp) hl

theorem walk_items (hs : Scripted container) (hr : ReadsContainers container) {fuel : Nat}
    {list : List Item} (hp : I p.rest)
    (h : items (itemOf container) fuel p = .matched list q) :
    ∀ part ∈ Item.walkAll list, P part := by
  induction fuel generalizing p list with
  | zero => simp [items, mismatch] at h
  | succ fuel ih =>
    obtain ⟨rfl, -⟩ | ⟨first, p₁, rest, hfirst, hrest, rfl⟩ := items_eq_matched h
    · simp [Item.walkAll]
    · have h₁ := hm.of_reads (reads_of_itemOf hr hs hfirst) hp
      rw [Item.walkAll, List.forall_mem_append]
      exact ⟨hm.walk_itemOf hc hs hp hfirst, ih h₁ hrest⟩

end items

theorem walk_containerWithin (fuel : Nat) {c : Container} (hp : I p.rest)
    (h : containerWithin fuel p = .matched c q) : ∀ part ∈ c.walk, P part := by
  induction fuel generalizing p q c with
  | zero => simp [containerWithin, mismatch] at h
  | succ fuel ih =>
    have hs := scriptedContainerWithin fuel
    obtain ⟨list, p₁, hlist, -, hc⟩ := containerOf_eq_matched (scriptedItemOf hs) h
    -- The containers within are read with less fuel, from what is left of the same tokens.
    have hwalk := hm.walk_items ih hs (readsContainers_containerWithin fuel)
      (show I (p.enter "container").rest from hp) hlist
    rw [← Container.items_of hc] at hwalk
    obtain ⟨items, topLevel⟩ := c
    exact List.forall_mem_cons.mpr ⟨hm.plain rfl rfl rfl, hwalk⟩

end Makes

end Parser

/-- What holds of each part that a rule makes holds of all parts of a parsed document. -/
theorem forall_part_of_parse {I : List Token → Prop} {P : Part → Prop} (hm : Parser.Makes I P)
    {source : String} {d : Document} (hI : ∀ tokens, tokenize source = .ok tokens → I tokens)
    (h : parse source = .ok d) : ∀ part ∈ d.walk, P part := by
  obtain ⟨body, last, q, ht, -, hq, -⟩ := document_of_parse h
  obtain ⟨p₁, p₂, p₃, p₄, hrest, -, hbefore, hc, -⟩ :=
    Parser.document_eq_matched (Parser.rest_ofTokens _) hq
  have h₁ : I p₁.rest := by
    rw [hrest]
    rw [← List.singleton_append] at ht
    exact hm.left (hI _ ht)
  exact List.forall_mem_cons.mpr ⟨hm.plain rfl rfl rfl,
    hm.walk_containerWithin _ (hm.of_reads (Parser.reads_of_trivia hbefore) h₁) hc⟩

end LookML
