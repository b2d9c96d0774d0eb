import LookML.Proofs.Parser.WellMade
import LookML.Proofs.Respelling.Tree
import LookML.Proofs.Running
import LookML.Syntax.Edit

/-!
# Rebuilding — what a transform makes of a tree

A transform may keep a state.  Where what becomes of a leaf does not depend on it, the transform
rebuilds a tree as its map, or stops if changed keys repeat each other
(`Transform.Changes.rebuilds_onContainer`).  What a map makes of a tree depends on the leaves of
its walk alone, and what it prints on what they print.
-/

namespace LookML

/-! ## Maps that agree -/

section agree

variable {f g : Leaf → Leaf}

/-- Whether two changes agree on a part.  A list must have no comma that its walk passes over. -/
def Part.Agrees (f g : Leaf → Leaf) : Part → Prop
  | leaf l => f l = g l
  | listing list => list.separators.length = list.entries.length - 1
  | _ => True

theorem Pair.map_congr {pair : Pair} (h : ∀ part ∈ pair.walk, part.Agrees f g) :
    pair.map f = pair.map g := by
  simp only [walk, List.forall_mem_cons, Part.Agrees] at h
  rw [map, map, h.2.1, h.2.2.1, h.2.2.2.1]

namespace Entries

/-- If there are separators for all entries, a row of them holds all their parts. -/
theorem forall_mem_of_walkRest {P : Part → Prop} {separators : List Leaf}
    {entries : List (List Part)} (hs : separators.length = entries.length)
    (h : ∀ part ∈ walkRest separators entries, P part) :
    (∀ comma ∈ separators, P (.leaf comma)) ∧ ∀ entry ∈ entries, ∀ part ∈ entry, P part := by
  fun_induction walkRest separators entries with
  | case1 separators =>
    obtain rfl := List.eq_nil_of_length_eq_zero hs
    simp
  | case2 entry entries ih => simp at hs
  | case3 comma commas entry entries ih =>
    rw [List.forall_mem_cons, List.forall_mem_append] at h
    obtain ⟨hcomma, hentry, hrest⟩ := h
    obtain ⟨hcommas, hentries⟩ := ih (Nat.succ_inj.mp hs) hrest
    exact ⟨List.forall_mem_cons.mpr ⟨hcomma, hcommas⟩, List.forall_mem_cons.mpr ⟨hentry, hentries⟩⟩

theorem forall_mem_of_walkJoined {P : Part → Prop} {separators : List Leaf}
    {entries : List (List Part)} (hs : separators.length = entries.length - 1)
    (h : ∀ part ∈ walkJoined separators entries, P part) :
    (∀ comma ∈ separators, P (.leaf comma)) ∧ ∀ entry ∈ entries, ∀ part ∈ entry, P part := by
  cases entries with
  | nil =>
    obtain rfl := List.eq_nil_of_length_eq_zero hs
    simp
  | cons entry entries =>
    rw [walkJoined, List.forall_mem_append] at h
    obtain ⟨hcommas, hentries⟩ := forall_mem_of_walkRest hs h.2
    exact ⟨hcommas, List.forall_mem_cons.mpr ⟨h.1, hentries⟩⟩

theorem length_walkEach (entries : Entries) : entries.walkEach.length = entries.length := by
  cases entries <;> simp [walkEach, length]

theorem map_congr {entries : Entries}
    (h : ∀ entry ∈ entries.walkEach, ∀ part ∈ entry, part.Agrees f g) :
    entries.map f = entries.map g := by
  cases entries with
  | values vs =>
    simp only [walkEach, List.forall_mem_map, List.forall_mem_singleton, Part.Agrees] at h
    rw [map, map, List.map_congr_left h]
  | pairs ps =>
    simp only [walkEach, List.forall_mem_map] at h
    rw [map, map, List.map_congr_left fun pair hp => Pair.map_congr (h pair hp)]

end Entries

theorem Part.map_congr_ofLeaf? {leaf? : Option Leaf}
    (h : ∀ part ∈ ofLeaf? leaf?, part.Agrees f g) : leaf?.map f = leaf?.map g := by
  cases leaf? with
  | none => rfl
  | some leaf =>
    have hleaf : f leaf = g leaf := h (.leaf leaf) (by simp [ofLeaf?])
    rw [Option.map_some, Option.map_some, hleaf]

theorem Listing.map_congr {list : Listing} (h : ∀ part ∈ list.walk, part.Agrees f g) :
    list.map f = list.map g := by
  simp only [walk, List.forall_mem_append, List.forall_mem_cons, Part.Agrees] at h
  obtain ⟨⟨⟨⟨⟨hs, hkey, hcolon, hopening, -⟩, hleading⟩, hrow⟩, htrailing⟩, hclosing, -⟩ := h
  rw [← Entries.length_walkEach] at hs
  obtain ⟨hcommas, hentries⟩ := Entries.forall_mem_of_walkJoined hs hrow
  rw [map, map, hkey, hcolon, hopening, Part.map_congr_ofLeaf? hleading,
    Entries.map_congr hentries, List.map_congr_left hcommas, Part.map_congr_ofLeaf? htrailing,
    hclosing]

mutual

theorem Block.map_congr : ∀ {block : Block}, (∀ part ∈ block.walk, part.Agrees f g) →
    block.map f = block.map g
  | ⟨key, colon, name?, opening, container, closing⟩, h => by
    simp only [Block.walk, List.forall_mem_append, List.forall_mem_cons, Part.Agrees] at h
    obtain ⟨⟨⟨⟨⟨-, hkey, hcolon, -⟩, hname⟩, hopening, -⟩, hcontainer⟩, hclosing, -⟩ := h
    rw [Block.map, Block.map, hkey, hcolon, Part.map_congr_ofLeaf? hname, hopening,
      Container.map_congr hcontainer, hclosing]

/-- What a map makes of a tree depends on the leaves of its walk alone. -/
theorem Container.map_congr : ∀ {c : Container}, (∀ part ∈ c.walk, part.Agrees f g) →
    c.map f = c.map g
  | ⟨items, topLevel⟩, h => by
    rw [Container.walk, List.forall_mem_cons] at h
    rw [Container.map, Container.map, Item.mapAll_congr h.2]

theorem Item.mapAll_congr : ∀ {items : List Item}, (∀ part ∈ Item.walkAll items, part.Agrees f g) →
    Item.mapAll f items = Item.mapAll g items
  | [], _ => rfl
  | item :: items, h => by
    rw [Item.walkAll, List.forall_mem_append] at h
    rw [Item.mapAll, Item.mapAll, Item.map_congr h.1, Item.mapAll_congr h.2]

theorem Item.map_congr : ∀ {item : Item}, (∀ part ∈ item.walk, part.Agrees f g) →
    item.map f = item.map g
  | .pair pair, h => by
    rw [Item.map, Item.map, Pair.map_congr h]
  | .listing list, h => by
    rw [Item.map, Item.map, Listing.map_congr h]
  | .block block, h => by
    rw [Item.map, Item.map, Block.map_congr h]

end

end agree

/-! ## Maps that print alike -/

section print

variable {f g : Leaf → Leaf}

/-- Whether what two changes make of a leaf is printed alike. -/
def PrintAlike (f g : Leaf → Leaf) : Prop :=
  ∀ leaf, (f leaf).print = (g leaf).print

namespace PrintAlike

theorem leaf? (h : PrintAlike f g) (leaf? : Option Leaf) :
    Leaf.print? (leaf?.map f) = Leaf.print? (leaf?.map g) := by
  cases leaf? with
  | none => rfl
  | some leaf => exact h leaf

theorem pair (h : PrintAlike f g) (pair : Pair) : (pair.map f).print = (pair.map g).print := by
  rw [Pair.map, Pair.map, Pair.print, Pair.print, h pair.key, h pair.colon, h pair.value]

theorem printEach (h : PrintAlike f g) (entries : Entries) :
    (entries.map f).printEach = (entries.map g).printEach := by
  cases entries with
  | values vs => simp [Entries.map, Entries.printEach, h _]
  | pairs ps => simp [Entries.map, Entries.printEach, h.pair]

theorem joinRest (h : PrintAlike f g) (separators : List Leaf) (entries : List String) :
    Entries.joinRest (separators.map f) entries = Entries.joinRest (separators.map g) entries := by
  induction entries generalizing separators with
  | nil => rw [Entries.joinRest, Entries.joinRest]
  | cons entry entries ih =>
    cases separators with
    | nil => rfl
    | cons comma separators =>
      rw [List.map_cons, List.map_cons, Entries.joinRest, Entries.joinRest, h comma, ih]

theorem join (h : PrintAlike f g) (separators : List Leaf) (entries : List String) :
    Entries.join (separators.map f) entries = Entries.join (separators.map g) entries := by
  cases entries with
  | nil => rfl
  | cons entry entries => rw [Entries.join, Entries.join, h.joinRest]

theorem listing (h : PrintAlike f g) (list : Listing) :
    (list.map f).print = (list.map g).print := by
  simp only [Listing.map, Listing.print, h list.key, h list.colon, h list.opening, h list.closing,
    h.leaf?, h.printEach, h.join]

mutual

theorem block (h : PrintAlike f g) : ∀ block : Block, (block.map f).print = (block.map g).print
  | ⟨key, colon, name?, opening, inner, closing⟩ => by
    rw [Block.map, Block.map, Block.print, Block.print, h key, h colon, leaf? h, h opening,
      container h inner, h closing]

/-- What a map of a tree prints depends on what its leaves print. -/
theorem container (h : PrintAlike f g) : ∀ c : Container, (c.map f).print = (c.map g).print
  | ⟨items, topLevel⟩ => by
    rw [Container.map, Container.map, Container.print, Container.print, itemAll h items]

theorem itemAll (h : PrintAlike f g) : ∀ items : List Item,
    Item.printAll (Item.mapAll f items) = Item.printAll (Item.mapAll g items)
  | [] => rfl
  | first :: items => by
    rw [Item.mapAll, Item.mapAll, Item.printAll, Item.printAll, item h first, itemAll h items]

theorem item (h : PrintAlike f g) : ∀ item : Item, (item.map f).print = (item.map g).print
  | .pair p => by
    rw [Item.map, Item.map, Item.print, Item.print, pair h]
  | .listing list => by
    rw [Item.map, Item.map, Item.print, Item.print, listing h]
  | .block b => by
    rw [Item.map, Item.map, Item.print, Item.print, block h b]

end

end PrintAlike

end print

/-! ## Rebuilt trees -/

section rebuilt

variable {m : Type → Type} [Monad m] {α β : Type}

/-- Whether `x` has the result `a` if `P` holds, and stops over a repeated key otherwise. -/
def Rebuilds (x : Rebuild m α) (a : α) (P : Prop) : Prop :=
  ∃ result : Except DuplicateKey α, HasResult x.run result ∧
    (P → result = .ok a) ∧ (¬P → ∃ e, result = .error e)

variable {x : Rebuild m α} {a : α} {b : β} {P Q : Prop}

theorem Rebuilds.of_iff (hx : Rebuilds x a P) (h : Q ↔ P) : Rebuilds x a Q :=
  propext h ▸ hx

variable [LawfulMonad m]

theorem rebuilds_pure (a : α) : Rebuilds (pure a : Rebuild m α) a True :=
  ⟨.ok a, hasResult_pure _, fun _ => rfl, fun h => absurd trivial h⟩

theorem Rebuilds.lift {y : m α} {k : α → Rebuild m β} (hy : HasResult y a)
    (hk : Rebuilds (k a) b P) : Rebuilds (liftM y >>= k) b P := by
  obtain ⟨result, hresult, h⟩ := hk
  refine ⟨result, ?_, h⟩
  have hrun : (liftM y >>= k : Rebuild m β).run = y >>= fun v => (k v).run := by
    simp [ExceptT.run_bind]
  rw [hrun]
  exact hy.bind hresult

theorem Rebuilds.bind {k : α → Rebuild m β} (hx : Rebuilds x a P) (hk : Rebuilds (k a) b Q) :
    Rebuilds (x >>= k) b (P ∧ Q) := by
  obtain ⟨result, hresult, hok, herror⟩ := hx
  rw [Rebuilds, ExceptT.run_bind]
  by_cases hP : P
  · -- Both parts run, and the second decides.
    obtain rfl := hok hP
    obtain ⟨result, hresult', hok', herror'⟩ := hk
    refine ⟨result, hresult.bind hresult', fun h => hok' h.2, fun h => herror' fun hQ => ?_⟩
    exact h ⟨hP, hQ⟩
  · -- What follows an error is not run.
    obtain ⟨e, rfl⟩ := herror hP
    exact ⟨.error e, hresult.bind (hasResult_pure _), fun h => absurd h.1 hP, fun _ => ⟨e, rfl⟩⟩

theorem Rebuilds.map {g : α → β} (hx : Rebuilds x a P) :
    Rebuilds (x >>= fun v => pure (g v)) (g a) P := by
  have h := hx.bind (k := fun v => pure (g v)) (rebuilds_pure (g a))
  rwa [and_true] at h

/-- A check gives the container of its items if that is the root or repeats no key but plural
ones. -/
theorem rebuilds_check (items : List Item) (topLevel : Bool) :
    Rebuilds (ExceptT.mk (pure (Container.of items topLevel)) : Rebuild m Container)
      ⟨items, topLevel⟩ (topLevel = true ∨ (⟨items, topLevel⟩ : Container).HasOwnKeys) := by
  refine ⟨Container.of items topLevel, hasResult_pure _, fun h => ?_, fun h => ?_⟩
  · exact Container.of_eq_ok_iff_hasOwnKeys.mpr ⟨rfl, h⟩
  · cases hc : Container.of items topLevel with
    | error e => exact ⟨e, rfl⟩
    | ok c =>
      obtain ⟨rfl, hkeys⟩ := Container.of_eq_ok_iff_hasOwnKeys.mp hc
      exact absurd hkeys h

end rebuilt

/-! ## Transforms -/

/-- Whether the containers among some parts pass the check after a change: each is the root or
repeats no key but plural ones. -/
def Part.AllPass (f : Leaf → Leaf) (parts : List Part) : Prop :=
  ∀ c, .container c ∈ parts → c.topLevel = true ∨ (c.map f).HasOwnKeys

theorem Part.container_notMem_ofLeaf? (c : Container) (leaf? : Option Leaf) :
    .container c ∉ ofLeaf? leaf? := by
  cases leaf? <;> simp [ofLeaf?]

theorem Pair.container_notMem_walk (c : Container) (pair : Pair) : .container c ∉ pair.walk := by
  simp [walk]

/-- No container stands in a list. -/
theorem Listing.container_notMem_walk (c : Container) (list : Listing) :
    .container c ∉ list.walk := by
  intro hmem
  exact Listing.forall_mem_walk (P := (· ≠ .container c)) (by simp) (by simp)
    (Entries.forall_mem_walkEach (by simp) (by simp) _) _ hmem rfl

namespace Transform

variable {m : Type → Type} [Monad m] {t : Transform m} {f : Leaf → Leaf}

/-- Whether a transform changes each leaf by `f` and nothing else, whatever its state. -/
structure Changes (t : Transform m) (f : Leaf → Leaf) : Prop where
  leaf : ∀ leaf, HasResult (t.leaf leaf) (f leaf)
  pair : ∀ pair, HasResult (t.pair pair) pair

namespace Changes

variable [LawfulMonad m] (h : t.Changes f)
include h

theorem hasResult_onLeaf? (leaf? : Option Leaf) : HasResult (t.onLeaf? leaf?) (leaf?.map f) := by
  cases leaf? with
  | none => exact hasResult_pure none
  | some leaf => exact (h.leaf leaf).bind (hasResult_pure _)

theorem hasResult_onLeaves (leaves : List Leaf) : HasResult (t.onLeaves leaves) (leaves.map f) := by
  induction leaves with
  | nil => exact hasResult_pure []
  | cons leaf leaves ih => exact (h.leaf leaf).bind (ih.bind (hasResult_pure _))

theorem hasResult_onPair (pair : Pair) : HasResult (t.onPair pair) (pair.map f) :=
  (h.pair pair).bind <| (h.leaf pair.key).bind <| (h.leaf pair.colon).bind <|
    (h.leaf pair.value).bind (hasResult_pure _)

theorem hasResult_onPairs (pairs : List Pair) :
    HasResult (t.onPairs pairs) (pairs.map (Pair.map f)) := by
  induction pairs with
  | nil => exact hasResult_pure []
  | cons pair pairs ih => exact (h.hasResult_onPair pair).bind (ih.bind (hasResult_pure _))

theorem hasResult_onEntries (entries : Entries) :
    HasResult (t.onEntries entries) (entries.map f) := by
  cases entries with
  | values vs => exact (h.hasResult_onLeaves vs).bind (hasResult_pure _)
  | pairs ps => exact (h.hasResult_onPairs ps).bind (hasResult_pure _)

theorem hasResult_onListing (list : Listing) : HasResult (t.onListing list) (list.map f) :=
  (h.hasResult_onEntries list.entries).bind <| (h.leaf list.key).bind <| (h.leaf list.colon).bind <|
    (h.leaf list.opening).bind <| (h.hasResult_onLeaf? list.leading?).bind <|
      (h.hasResult_onLeaves list.separators).bind <| (h.hasResult_onLeaf? list.trailing?).bind <|
        (h.leaf list.closing).bind (hasResult_pure _)

omit h

mutual

theorem rebuilds_onBlock (h : t.Changes f) : ∀ block : Block,
    Rebuilds (t.onBlock block) (block.map f) (Part.AllPass f block.walk)
  | ⟨key, colon, name?, opening, inner, closing⟩ => by
    rw [onBlock, Block.map]
    refine Rebuilds.of_iff (.lift (h.leaf key) <| .lift (h.leaf colon) <|
      .lift (h.hasResult_onLeaf? name?) <| .lift (h.leaf opening) <|
        (rebuilds_onContainer h inner).bind <| .lift (h.leaf closing) <| rebuilds_pure _) ?_
    simp [Block.walk, Part.AllPass, Part.container_notMem_ofLeaf?]

/-- Where leaves change alike in every state, a transform rebuilds a container as its map if all
containers in it pass the check, and stops otherwise. -/
theorem rebuilds_onContainer (h : t.Changes f) : ∀ c : Container,
    Rebuilds (t.onContainer c) (c.map f) (Part.AllPass f c.walk)
  | ⟨items, topLevel⟩ => by
    rw [onContainer, Container.map]
    refine Rebuilds.of_iff ((rebuilds_onItems h items).bind (rebuilds_check _ topLevel)) ?_
    simp [Container.walk, Part.AllPass, Container.map, and_comm]

theorem rebuilds_onItems (h : t.Changes f) : ∀ items : List Item,
    Rebuilds (t.onItems items) (Item.mapAll f items) (Part.AllPass f (Item.walkAll items))
  | [] => by
    rw [onItems]
    exact Rebuilds.of_iff (rebuilds_pure []) (by simp [Item.walkAll, Part.AllPass])
  | item :: items => by
    rw [onItems, Item.mapAll]
    refine Rebuilds.of_iff ((rebuilds_onItem h item).bind (rebuilds_onItems h items).map) ?_
    simp [Item.walkAll, Part.AllPass, or_imp, forall_and]

theorem rebuilds_onItem (h : t.Changes f) : ∀ item : Item,
    Rebuilds (t.onItem item) (item.map f) (Part.AllPass f item.walk)
  | .pair pair => by
    rw [onItem, Item.map]
    refine Rebuilds.of_iff (.lift (h.hasResult_onPair pair) (rebuilds_pure _)) ?_
    simp [Item.walk, Part.AllPass, Pair.container_notMem_walk]
  | .listing list => by
    rw [onItem, Item.map]
    refine Rebuilds.of_iff (.lift (h.hasResult_onListing list) (rebuilds_pure _)) ?_
    simp [Item.walk, Part.AllPass, Listing.container_notMem_walk]
  | .block block => by
    rw [onItem, Item.map]
    exact (rebuilds_onBlock h block).map

end

theorem rebuilds_onDocument (h : t.Changes f) (d : Document) :
    Rebuilds (t.onDocument d) { d with container := d.container.map f }
      (Part.AllPass f d.container.walk) :=
  (h.rebuilds_onContainer d.container).map

end Changes

end Transform

theorem Item.key_map {f : Leaf → Leaf} (hf : ∀ leaf, (f leaf).value = leaf.value) (item : Item) :
    (item.map f).key = item.key := by
  rw [key, Item.keyLeaf_map, hf, key]

/-- A change that keeps values keeps keys. -/
theorem Container.hasOwnKeys_map_iff {f : Leaf → Leaf} (hf : ∀ leaf, (f leaf).value = leaf.value)
    (c : Container) : (c.map f).HasOwnKeys ↔ c.HasOwnKeys := by
  obtain ⟨items, topLevel⟩ := c
  simp only [HasOwnKeys, map, Item.mapAll_eq_map, List.pairwise_map, Item.key_map hf]

/-- A parsed document passes the check again after a change that keeps values. -/
theorem allPass_of_parse {source : String} {d : Document} (h : parse source = .ok d)
    {f : Leaf → Leaf} (hf : ∀ leaf, (f leaf).value = leaf.value) :
    Part.AllPass f d.container.walk := by
  obtain ⟨htop, hwalk⟩ := allWellMade_of_parse h
  obtain ⟨⟨items, topLevel⟩, before, after⟩ := d
  intro c hc
  rw [Container.walk, List.mem_cons] at hc
  -- Only the container of the document is the root.
  rcases hc with heq | hc
  · rw [Part.container.inj heq]
    exact .inl htop
  · exact .inr ((Container.hasOwnKeys_map_iff hf c).mpr (hwalk _ hc).2)

/-! ## Folds -/

theorem Transform.changes_ofLeaf (f : Leaf → Leaf) :
    (ofLeaf f : Transform Id).Changes f where
  leaf _ := rfl
  pair _ := rfl

/-- A fold gives the map of a document, if that passes the check. -/
theorem Document.mapLeaves_eq_ok {f : Leaf → Leaf} {d : Document}
    (h : Part.AllPass f d.container.walk) :
    d.mapLeaves f = .ok { d with container := d.container.map f } := by
  obtain ⟨result, hresult, hok, -⟩ := (Transform.changes_ofLeaf f).rebuilds_onDocument d
  rw [← hok h]
  exact hasResult_id_iff.mp hresult

/-- The edit that drops raw texts and nothing else. -/
theorem Edit.changes_dropRaw : ({ dropRaw := true } : Edit).transform.Changes unrawLeaf where
  leaf _ := rfl
  pair _ := rfl

theorem Edit.apply_dropRaw_eq_ok {d : Document} (h : Part.AllPass unrawLeaf d.container.walk) :
    ({ dropRaw := true } : Edit).apply d =
      .ok { d with container := d.container.map unrawLeaf } := by
  obtain ⟨result, hresult, hok, -⟩ := changes_dropRaw.rebuilds_onDocument d
  rw [← hok h]
  exact hresult.run_eq 0

end LookML
