import LookML.Proofs.Parser.Leaves
import LookML.Proofs.Scan.Trivia

/-!
# Well-made documents — what holds of every parsed tree

A tree can be built in which a block repeats a key, a list has too few commas, or a word is hidden
in the trivia of a leaf.  None of these is ever parsed (`isWellMade_of_parse`): the depth of the
parser tells the root from the other containers, which are checked; the loop over entries makes one
comma for each entry but the first; and the trivia of a leaf is a run of the tokens of the source.
-/

namespace LookML

open Token (IsTriviaText)

/-! ## Well-made parts -/

/-- Whether no key but a plural one stands twice in a container. -/
def Container.HasOwnKeys (c : Container) : Prop :=
  c.items.Pairwise fun a b => a.key = b.key → Keys.isPlural a.key = true

/-- The leaves that are the values of some entries. -/
def Entries.valueLeaves : Entries → List Leaf
  | values vs => vs
  | pairs ps => ps.map Pair.value

/-- What holds of a parsed list. -/
structure Listing.IsWellMade (list : Listing) : Prop where
  /-- There is one comma between any two entries. -/
  separators : list.separators.length = list.entries.length - 1
  /-- A comma stands after the entries only if there are some. -/
  trailing : list.trailing?.isSome = true → list.entries.length ≠ 0
  /-- No value is an expression. -/
  plain : ∀ leaf ∈ list.entries.valueLeaves, leaf.isExpression = false

/-- What holds of each part of a parsed container: the containers in it are not the root. -/
def Part.IsWellMade : Part → Prop
  | container c => c.topLevel = false ∧ c.HasOwnKeys
  | listing list => list.IsWellMade
  | _ => True

/-- What holds of a parsed document. -/
structure Document.IsWellMade (d : Document) : Prop where
  root : d.container.topLevel = true
  /-- No container below the root is a root or repeats a key that is not plural. -/
  containers : ∀ c, .container c ∈ Item.walkAll d.container.items →
    c.topLevel = false ∧ c.HasOwnKeys
  listings : ∀ list, .listing list ∈ d.walk → list.IsWellMade
  before : IsTriviaText d.before
  after : IsTriviaText d.after
  leaves : ∀ leaf ∈ d.leaves, IsTriviaText leaf.before ∧ IsTriviaText leaf.after

/-- A check finds nothing exactly where no key but a plural one is repeated. -/
theorem Container.firstRepeat?_eq_none_iff {c : Container} :
    firstRepeat? [] c.items = none ↔ c.HasOwnKeys := by
  rw [firstRepeat?_eq_none, HasOwnKeys, List.nodup_iff_pairwise_ne, List.pairwise_filter,
    List.pairwise_map]
  simp only [List.not_mem_nil, not_false_eq_true, implies_true, true_and, Bool.not_eq_true']
  constructor
  · intro h
    refine h.imp fun {a b} hne heq => ?_
    -- Of two equal keys, both are plural or neither is.
    by_cases hp : Keys.isPlural a.key = true
    · exact hp
    · exact absurd heq (hne (by simpa using hp) (by simpa [← heq] using hp))
  · intro h
    refine h.imp fun {a b} hkeys ha _ heq => ?_
    simp [hkeys heq] at ha

/-- A container passes the check if it is the root or repeats no key but a plural one. -/
theorem Container.of_eq_ok_iff_hasOwnKeys {items : List Item} {topLevel : Bool} {c : Container} :
    of items topLevel = .ok c ↔ c = ⟨items, topLevel⟩ ∧ (c.topLevel = true ∨ c.HasOwnKeys) := by
  cases topLevel with
  | true =>
    rw [of, if_pos rfl, Except.ok.injEq, eq_comm]
    exact (and_iff_left_of_imp fun h => .inl (congrArg Container.topLevel h)).symm
  | false =>
    rw [of, if_neg Bool.false_ne_true]
    constructor
    · intro h
      cases hr : firstRepeat? [] items with
      | some item => simp [hr] at h
      | none =>
        rw [hr] at h
        obtain rfl := Except.ok.inj h
        exact ⟨rfl, .inr (firstRepeat?_eq_none_iff.mp hr)⟩
    · rintro ⟨rfl, htop | hkeys⟩
      · simp at htop
      · rw [firstRepeat?_eq_none_iff.mpr hkeys]

/-! ## The parts of a walk -/

/-- Whether all of some parts are well made. -/
def Part.AllWellMade (parts : List Part) : Prop :=
  ∀ part ∈ parts, part.IsWellMade

namespace Part

@[simp] theorem allWellMade_nil : AllWellMade [] := by
  simp [AllWellMade]

@[simp] theorem allWellMade_cons {part : Part} {parts : List Part} :
    AllWellMade (part :: parts) ↔ part.IsWellMade ∧ AllWellMade parts :=
  List.forall_mem_cons

@[simp] theorem allWellMade_append {a b : List Part} :
    AllWellMade (a ++ b) ↔ AllWellMade a ∧ AllWellMade b :=
  List.forall_mem_append

end Part

theorem Pair.allWellMade_walk (pair : Pair) : Part.AllWellMade pair.walk := by
  simp [walk, Part.IsWellMade]

/-- What holds of leaves and of pairs holds of the parts of each entry. -/
theorem Entries.forall_mem_walkEach {P : Part → Prop} (hl : ∀ leaf, P (.leaf leaf))
    (hp : ∀ pair, P (.pair pair)) (entries : Entries) :
    ∀ entry ∈ entries.walkEach, ∀ part ∈ entry, P part := by
  cases entries with
  | values vs => simp [walkEach, hl]
  | pairs ps => simp [walkEach, Pair.walk, hl, hp]

/-- What holds of leaves and of the parts of each entry holds of the parts of a row of them. -/
theorem Entries.forall_mem_walkJoined {P : Part → Prop} (hl : ∀ leaf, P (.leaf leaf))
    {entries : List (List Part)} (h : ∀ entry ∈ entries, ∀ part ∈ entry, P part)
    (separators : List Leaf) : ∀ part ∈ walkJoined separators entries, P part := by
  have hrest {list : List (List Part)} (h : ∀ entry ∈ list, ∀ part ∈ entry, P part)
      (separators : List Leaf) : ∀ part ∈ walkRest separators list, P part := by
    fun_induction walkRest separators list with
    | case1 => simp
    | case2 entry entries ih =>
      rw [List.forall_mem_cons] at h
      exact List.forall_mem_append.mpr ⟨h.1, ih h.2⟩
    | case3 comma commas entry entries ih =>
      rw [List.forall_mem_cons] at h
      exact List.forall_mem_cons.mpr ⟨hl comma, List.forall_mem_append.mpr ⟨h.1, ih h.2⟩⟩
  cases entries with
  | nil => simp [walkJoined]
  | cons entry rest =>
    -- The first entry has no separator before it.
    rw [List.forall_mem_cons] at h
    exact List.forall_mem_append.mpr ⟨h.1, hrest h.2 separators⟩

section walks

variable {P : Part → Prop} (hl : ∀ leaf, P (.leaf leaf))

include hl

theorem Part.forall_mem_ofLeaf? (leaf? : Option Leaf) : ∀ part ∈ ofLeaf? leaf?, P part := by
  cases leaf? <;> simp [ofLeaf?, hl]

theorem Listing.forall_mem_walk {list : Listing} (h : P (.listing list))
    (hentries : ∀ entry ∈ list.entries.walkEach, ∀ part ∈ entry, P part) :
    ∀ part ∈ list.walk, P part := by
  have hrow := Entries.forall_mem_walkJoined hl hentries list.separators
  simp only [walk, List.forall_mem_append, List.forall_mem_cons]
  exact ⟨⟨⟨⟨⟨h, hl _, hl _, hl _, by simp⟩, Part.forall_mem_ofLeaf? hl _⟩, hrow⟩,
    Part.forall_mem_ofLeaf? hl _⟩, hl _, by simp⟩

theorem Block.forall_mem_walk {block : Block} (h : P (.block block))
    (hc : ∀ part ∈ block.container.walk, P part) : ∀ part ∈ block.walk, P part := by
  obtain ⟨key, colon, name?, opening, container, closing⟩ := block
  simp only [walk, List.forall_mem_append, List.forall_mem_cons]
  exact ⟨⟨⟨⟨⟨h, hl _, hl _, by simp⟩, Part.forall_mem_ofLeaf? hl _⟩, hl _, by simp⟩, hc⟩, hl _,
    by simp⟩

end walks

theorem Listing.allWellMade_walk {list : Listing} (h : list.IsWellMade) :
    Part.AllWellMade list.walk :=
  Listing.forall_mem_walk (fun _ => trivial) h
    (Entries.forall_mem_walkEach (fun _ => trivial) (fun _ => trivial) _)

theorem Container.allWellMade_walk {c : Container} (hc : c.topLevel = false ∧ c.HasOwnKeys)
    (h : Part.AllWellMade (Item.walkAll c.items)) : Part.AllWellMade c.walk := by
  obtain ⟨items, topLevel⟩ := c
  rw [walk, Part.allWellMade_cons]
  exact ⟨hc, h⟩

theorem Block.allWellMade_walk {block : Block} (h : Part.AllWellMade block.container.walk) :
    Part.AllWellMade block.walk :=
  Block.forall_mem_walk (fun _ => trivial) trivial h

/-! ## Parsed parts are well made -/

namespace Parser

open Production

variable {p q : Parser}

section entries

variable {α : Type} {as : ListEntry → Except Fault α}

/-- The entries after the first have plain values, as each was read as an entry of a list. -/
theorem plain_of_moreEntries (leafOf : α → Leaf)
    (has : ∀ {e a}, as e = .ok a → e.valueLeaf = leafOf a) {fuel : Nat} {more : List (Leaf × α)}
    {trailing? : Option Leaf}
    (h : moreEntries as fuel p = .matched (more, trailing?) q) :
    ∀ a ∈ more.map Prod.snd, (leafOf a).isExpression = false := by
  induction fuel generalizing p more trailing? with
  | zero => simp [moreEntries, mismatch] at h
  | succ fuel ih =>
    obtain ⟨rfl, -, -⟩ | ⟨leaf, -, rfl, -⟩ |
      ⟨leaf, p₁, entry, p₂, a, rest, -, he, ha, hrest, rfl⟩ := moreEntries_eq_matched h
    · simp
    · simp
    · rw [List.map_cons, List.forall_mem_cons, ← has ha]
      exact ⟨(listEntry_eq_matched he).1, ih hrest⟩

end entries

/-- What a list holds has a comma for each entry but the first, and plain values. -/
theorem shape_of_listValues {v : ListValues} (h : listValues p = .matched v q) :
    v.separators.length = v.entries.length - 1 ∧
      (v.trailing?.isSome = true → v.entries.length ≠ 0) ∧
      ∀ leaf ∈ v.entries.valueLeaves, leaf.isExpression = false := by
  obtain ⟨rfl, -⟩ | ⟨first, p₁, hfirst, hmore⟩ | ⟨first, p₁, hfirst, hmore⟩ :=
    listValues_eq_matched h
  · exact ⟨rfl, by simp, by simp [Entries.valueLeaves]⟩
  · obtain ⟨more, hmore, he, hs⟩ := entriesFrom_eq_matched hmore
    have hplain := plain_of_moreEntries Pair.value
      (fun ha => by rw [asPair_eq_ok ha, ListEntry.valueLeaf]) hmore
    have hvalue : first.value.isExpression = false := (listEntry_eq_matched hfirst).1
    rw [he, hs]
    refine ⟨by simp [Entries.length], by simp [Entries.length], ?_⟩
    rw [Entries.valueLeaves, List.map_cons, List.forall_mem_cons, List.forall_mem_map]
    exact ⟨hvalue, hplain⟩
  · obtain ⟨more, hmore, he, hs⟩ := entriesFrom_eq_matched hmore
    have hplain := plain_of_moreEntries id
      (fun ha => by rw [asValue_eq_ok ha, ListEntry.valueLeaf, id]) hmore
    have hvalue : first.isExpression = false := (listEntry_eq_matched hfirst).1
    rw [he, hs]
    refine ⟨by simp [Entries.length], by simp [Entries.length], ?_⟩
    exact List.forall_mem_cons.mpr ⟨hvalue, hplain⟩

theorem isWellMade_of_listing {list : Listing} (h : listing p = .matched list q) :
    list.IsWellMade := by
  obtain ⟨q, hb, -⟩ := attempt_eq_matched h
  simp only [bind_eq_matched, pure_apply, Reply.matched.injEq] at hb
  obtain ⟨kc, p₁, -, before, p₂, -, line, p₃, -, leading?, p₄, -, v, p₅, hv, closing, p₆, -, rfl,
    -⟩ := hb
  obtain ⟨hs, ht, hp⟩ := shape_of_listValues hv
  exact ⟨hs, ht, hp⟩

/-- A production of containers of which only the outermost is the root. -/
def MakesWell (container : Production Container) : Prop :=
  ∀ {p q : Parser} {c : Container}, container p = .matched c q →
    c.topLevel = (p.depth == 0) ∧ (p.depth ≠ 0 → c.HasOwnKeys) ∧
      Part.AllWellMade (Item.walkAll c.items)

theorem isWellMade_of_blockOf {container : Production Container} (hc : MakesWell container)
    {b : Block} (h : blockOf container p = .matched b q) :
    Part.AllWellMade b.walk := by
  obtain ⟨q, hb, -⟩ := attempt_eq_matched h
  simp only [bind_eq_matched, pure_apply, Reply.matched.injEq] at hb
  obtain ⟨kc, p₁, h₁, name?, p₂, h₂, opening, p₃, h₃, inner, p₄, h₄, closing, p₅, -, rfl, -⟩ := hb
  -- Inside the braces the parser is at least one rule deep.
  have hdepth : p₃.depth ≠ 0 := by
    have hkept := ((scriptedKey.kept h₁).trans (scriptedWord.optional.kept h₂)).trans
      ((scriptedBracket _).kept h₃)
    rw [hkept.2, depth_enter]
    exact Nat.succ_ne_zero _
  obtain ⟨htop, hkeys, hwalk⟩ := hc h₄
  apply Block.allWellMade_walk
  apply Container.allWellMade_walk ⟨?_, hkeys hdepth⟩ hwalk
  rw [htop]
  simpa using hdepth

theorem isWellMade_of_itemOf {container : Production Container} (hs : Scripted container)
    (hc : MakesWell container) {item : Item} (h : itemOf container p = .matched item q) :
    Part.AllWellMade item.walk := by
  obtain ⟨b, hb, rfl⟩ | ⟨p₁, -, ⟨pair, -, rfl⟩ | ⟨list, hl, rfl⟩⟩ := itemOf_eq_matched hs h
  · exact isWellMade_of_blockOf hc hb
  · exact pair.allWellMade_walk
  · exact Listing.allWellMade_walk (isWellMade_of_listing hl)

theorem isWellMade_of_items {item : Production Item}
    (hi : ∀ {p q : Parser} {i : Item}, item p = .matched i q → Part.AllWellMade i.walk)
    {fuel : Nat} {list : List Item} (h : items item fuel p = .matched list q) :
    Part.AllWellMade (Item.walkAll list) := by
  induction fuel generalizing p list with
  | zero => simp [items, mismatch] at h
  | succ fuel ih =>
    obtain ⟨rfl, -⟩ | ⟨first, p₁, rest, hfirst, hrest, rfl⟩ := items_eq_matched h
    · exact Part.allWellMade_nil
    · rw [Item.walkAll, Part.allWellMade_append]
      exact ⟨hi hfirst, ih hrest⟩

theorem makesWell_containerWithin (fuel : Nat) : MakesWell (containerWithin fuel) := by
  induction fuel with
  | zero =>
    intro p q c h
    simp [containerWithin, mismatch] at h
  | succ fuel ih =>
    intro p q c h
    have hs := scriptedContainerWithin fuel
    obtain ⟨list, p₁, hlist, -, hc⟩ := containerOf_eq_matched (scriptedItemOf hs) h
    refine ⟨Container.topLevel_of hc, fun hd => ?_, ?_⟩
    · have htop : c.topLevel = false := by
        rw [Container.topLevel_of hc]
        simpa using hd
      exact (Container.of_eq_ok_iff_hasOwnKeys.mp hc).2.resolve_left (by simp [htop])
    · rw [Container.items_of hc]
      exact isWellMade_of_items (isWellMade_of_itemOf hs ih) hlist

end Parser

/-! ## Trivia -/

/-- The trivia around a leaf are runs of the tokens that it is read from. -/
theorem Leaf.ReadFrom.isTriviaText {leaf : Leaf} {source : String} {run tokens : List Token}
    (h : leaf.ReadFrom run) (ht : tokenize source = .ok tokens) (hi : run <:+: tokens) :
    IsTriviaText leaf.before ∧ IsTriviaText leaf.after := by
  obtain ⟨hbt, hb, -, -, -, hat, ha⟩ := h
  constructor
  · rw [← hb]
    exact Token.isTriviaText_of_run ht ((List.prefix_append _ _).isInfix.trans hi) hbt
  · rw [← ha]
    exact Token.isTriviaText_of_run ht
      (((List.suffix_append _ _).trans (List.suffix_append _ _)).isInfix.trans hi) hat

/-- A document is parsed as the root and well-made parts in it. -/
theorem allWellMade_of_parse {source : String} {d : Document} (h : parse source = .ok d) :
    d.container.topLevel = true ∧ Part.AllWellMade (Item.walkAll d.container.items) := by
  obtain ⟨body, last, q, -, -, hq, -⟩ := document_of_parse h
  obtain ⟨p₁, p₂, p₃, p₄, -, hkept, hbefore, hc, -⟩ :=
    Parser.document_eq_matched (Parser.rest_ofTokens _) hq
  -- The container of the document is met at the depth at which the parser starts.
  have hdepth : p₂.depth = 0 := (hkept.trans (Parser.scriptedTrivia.kept hbefore)).2
  obtain ⟨htop, -, hwalk⟩ := Parser.makesWell_containerWithin _ hc
  exact ⟨by rw [htop, hdepth]; rfl, hwalk⟩

/-- A parsed document is well made. -/
theorem isWellMade_of_parse {source : String} {d : Document} (h : parse source = .ok d) :
    d.IsWellMade := by
  obtain ⟨htop, hwalk⟩ := allWellMade_of_parse h
  -- Trivia is read from runs of the tokens of the source, wherever it is kept in the tree.
  obtain ⟨before, run, after, last', ht, -, hbt, hb, hcovers, hat, ha⟩ := leaves_of_parse h
  generalize Token.mk .streamStart 1 = first, Token.mk .streamEnd last' = final at ht
  refine ⟨htop, fun c => hwalk (.container c), fun list hl => ?_, ?_, ?_, fun leaf hl => ?_⟩
  · obtain ⟨⟨items, topLevel⟩, _, _⟩ := d
    simp only [Document.walk, Container.walk, List.mem_cons, reduceCtorEq, false_or] at hl
    exact hwalk _ hl
  · rw [← hb]
    exact Token.isTriviaText_of_run ht ⟨[first], run ++ (after ++ [final]), by simp⟩ hbt
  · rw [← ha]
    exact Token.isTriviaText_of_run ht ⟨first :: (before ++ run), [final], by simp⟩ hat
  · obtain ⟨mid, hmid, hread⟩ := hcovers.exists_readFrom hl
    have hrun : run <:+: first :: (before ++ (run ++ (after ++ [final]))) :=
      ⟨first :: before, after ++ [final], by simp⟩
    exact hread.isTriviaText ht (hmid.trans hrun)

/-- A plural key given twice below the root, comments between the parts of an item, and a list with
a comma at either end. -/
def Samples.nested : String :=
  "view: v \x7b link: \x7b\x7d link: \x7b\x7d # c\n f # d\n : [, x, y ,] \x7d # e"

theorem isWellMade_of_parse_nested :
    ∃ d, parse Samples.nested = .ok d ∧ d.leaves.length = 22 ∧ d.IsWellMade := by
  have hok : (parse Samples.nested).toOption.map (·.leaves.length) = some 22 := by
    decide +kernel
  cases hd : parse Samples.nested with
  | error e => simp [hd, Except.toOption] at hok
  | ok d => exact ⟨d, rfl, by simpa [hd, Except.toOption] using hok, isWellMade_of_parse hd⟩

end LookML
