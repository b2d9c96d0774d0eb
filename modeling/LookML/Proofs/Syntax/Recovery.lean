import LookML.Proofs.Parser.WellMade
import LookML.Proofs.Respelling.Tree

/-!
# Recovery — a tree is recovered from its phrases and its leaves

Of a tree in the shape in which trees are parsed, the phrases tell the shape and the leaves of its
walk tell the rest.  So two such trees with the same phrases, whose leaves become the same by two
changes, become the same tree.  As leaves are taken off the front of a walk, the lemmas carry what
follows; items that derive the phrases of two trees fall into the two (`Item.map_eq_append`).
-/

namespace LookML

/-! ## Shapes -/

/-- Whether a list has a comma for each entry but the first, one after the entries only if there
are some, and no entries of its own kind if there are none. -/
structure Listing.IsShaped (list : Listing) : Prop where
  separators : list.separators.length = list.entries.length - 1
  trailing : list.trailing?.isSome = true → list.entries.length ≠ 0
  entries : list.entries ≠ .pairs []

/-- What the shape of a parsed tree asks of each part: no container in it is the root. -/
def Part.IsShaped : Part → Prop
  | container c => c.topLevel = false
  | listing list => list.IsShaped
  | _ => True

variable {f g : Leaf → Leaf} {r r' : List Leaf}

/-- A leaf that may be missing is taken off the front, if it is missing from both or neither. -/
theorem Part.map_toList_append_inj {a b : Option Leaf} (hab : a.isSome = b.isSome)
    (h : a.toList.map f ++ r = b.toList.map g ++ r') : a.map f = b.map g ∧ r = r' := by
  cases a <;> cases b <;> simp_all

theorem Pair.map_append_inj {a b : Pair}
    (h : (Part.leaves a.walk).map f ++ r = (Part.leaves b.walk).map g ++ r') :
    a.map f = b.map g ∧ r = r' := by
  simpa [walk, map, Part.leaf?, and_assoc] using h

/-! ## Lists -/

namespace Entries

/-- Entries behind commas are taken off the front, if there are as many commas as entries. -/
theorem walkRest_append_inj {α β : Type} {walk : α → List Part} {m n : α → β}
    (inj : ∀ (a b : α) {r r' : List Leaf}, (Part.leaves (walk a)).map f ++ r =
      (Part.leaves (walk b)).map g ++ r' → m a = n b ∧ r = r')
    {xs ys : List α} {ss ts : List Leaf} (hs : ss.length = xs.length) (ht : ts.length = ys.length)
    (hxy : xs.length = ys.length)
    (h : (Part.leaves (walkRest ss (xs.map walk))).map f ++ r =
      (Part.leaves (walkRest ts (ys.map walk))).map g ++ r') :
    xs.map m = ys.map n ∧ ss.map f = ts.map g ∧ r = r' := by
  -- The commas and both rows of entries get shorter together.
  induction xs generalizing ys ss ts with
  | nil =>
    obtain rfl := List.eq_nil_of_length_eq_zero hxy.symm
    obtain rfl := List.eq_nil_of_length_eq_zero hs
    obtain rfl := List.eq_nil_of_length_eq_zero ht
    exact ⟨rfl, rfl, h⟩
  | cons x xs ih =>
    obtain ⟨y, ys, rfl⟩ := List.exists_cons_of_length_eq_add_one hxy.symm
    obtain ⟨s, ss, rfl⟩ := List.exists_cons_of_length_eq_add_one hs
    obtain ⟨t, ts, rfl⟩ := List.exists_cons_of_length_eq_add_one ht
    simp only [List.map_cons, walkRest, Part.leaves_cons, Part.leaves_append, List.map_append,
      List.append_assoc] at h
    obtain ⟨hcomma, h⟩ := List.cons.inj h
    obtain ⟨hentry, h⟩ := inj x y h
    obtain ⟨hentries, hcommas, hrest⟩ := ih (Nat.succ_inj.mp hs) (Nat.succ_inj.mp ht)
      (Nat.succ_inj.mp hxy) h
    refine ⟨?_, ?_, hrest⟩
    · rw [List.map_cons, List.map_cons, hentry, hentries]
    · rw [List.map_cons, List.map_cons, hcommas]
      exact congrArg (· :: _) hcomma

/-- A row of entries is taken off the front, if there are as many commas as entries after the
first. -/
theorem walkJoined_append_inj {α β : Type} {walk : α → List Part} {m n : α → β}
    (inj : ∀ (a b : α) {r r' : List Leaf}, (Part.leaves (walk a)).map f ++ r =
      (Part.leaves (walk b)).map g ++ r' → m a = n b ∧ r = r')
    {x y : α} {xs ys : List α} {ss ts : List Leaf} (hs : ss.length = xs.length)
    (ht : ts.length = ys.length) (hxy : xs.length = ys.length)
    (h : (Part.leaves (walkJoined ss ((x :: xs).map walk))).map f ++ r =
      (Part.leaves (walkJoined ts ((y :: ys).map walk))).map g ++ r') :
    (x :: xs).map m = (y :: ys).map n ∧ ss.map f = ts.map g ∧ r = r' := by
  simp only [List.map_cons, walkJoined, Part.leaves_append, List.map_append, List.append_assoc] at h
  obtain ⟨hentry, h⟩ := inj x y h
  obtain ⟨hentries, hcommas, hrest⟩ := walkRest_append_inj inj hs ht hxy h
  exact ⟨by rw [List.map_cons, List.map_cons, hentry, hentries], hcommas, hrest⟩

/-- Entries that derive from the same row are of one kind and equally many. -/
theorem map_append_inj {a b : Entries} {ss ts : List Leaf} (hrow : a.row? = b.row?)
    (ha : a ≠ .pairs []) (hb : b ≠ .pairs []) (hs : ss.length = a.length - 1)
    (ht : ts.length = b.length - 1)
    (h : (Part.leaves (walkJoined ss a.walkEach)).map f ++ r =
      (Part.leaves (walkJoined ts b.walkEach)).map g ++ r') :
    a.map f = b.map g ∧ ss.map f = ts.map g ∧ r = r' := by
  match a, b with
  | .values [], .values [] =>
    obtain rfl := List.eq_nil_of_length_eq_zero hs
    obtain rfl := List.eq_nil_of_length_eq_zero ht
    exact ⟨rfl, rfl, h⟩
  | .values (v :: vs), .values (w :: ws) =>
    simp only [row?, Option.some.injEq, Row.values.injEq] at hrow
    have hlength := congrArg List.length hrow.2
    rw [List.length_map, List.length_map] at hlength
    have inj (a b : Leaf) {r r' : List Leaf} (h : (Part.leaves [.leaf a]).map f ++ r =
        (Part.leaves [.leaf b]).map g ++ r') : f a = g b ∧ r = r' := List.cons.inj h
    obtain ⟨hvalues, hrest⟩ := walkJoined_append_inj inj hs ht hlength h
    exact ⟨congrArg values hvalues, hrest⟩
  | .pairs (p :: ps), .pairs (q :: qs) =>
    simp only [row?, Option.some.injEq, Row.pairs.injEq] at hrow
    have hlength := congrArg List.length hrow.2
    rw [List.length_map, List.length_map] at hlength
    have inj (a b : Pair) {r r' : List Leaf} (h : (Part.leaves a.walk).map f ++ r =
        (Part.leaves b.walk).map g ++ r') : a.map f = b.map g ∧ r = r' := Pair.map_append_inj h
    obtain ⟨hpairs, hrest⟩ := walkJoined_append_inj inj hs ht hlength h
    exact ⟨congrArg pairs hpairs, hrest⟩
  | .values [], .values (w :: ws) | .values (v :: vs), .values []
  | .values [], .pairs (q :: qs) | .pairs (p :: ps), .values []
  | .values (v :: vs), .pairs (q :: qs) | .pairs (p :: ps), .values (w :: ws) =>
    simp [row?] at hrow
  | .pairs [], _ => exact absurd rfl ha
  | _, .pairs [] => exact absurd rfl hb

end Entries

theorem Listing.IsShaped.trailing_of_row? {list : Listing} (h : list.IsShaped)
    (hrow : list.entries.row? = none) : list.trailing?.isSome = false := by
  refine Bool.eq_false_iff.mpr fun htrailing => h.trailing htrailing ?_
  cases hentries : list.entries with
  | values vs => cases vs <;> simp_all [Entries.row?, Entries.length]
  | pairs ps => cases ps <;> simp_all [Entries.row?, Entries.length]

theorem Listing.map_append_inj {a b : Listing} (hphrase : a.phrase = b.phrase)
    (ha : a.IsShaped) (hb : b.IsShaped)
    (h : (Part.leaves a.walk).map f ++ r = (Part.leaves b.walk).map g ++ r') :
    a.map f = b.map g ∧ r = r' := by
  obtain ⟨-, hleading, hrow⟩ := Phrase.listing.inj hphrase
  -- What the phrase says of the comma after the entries, it says only where there are some.
  have hrows : a.entries.row? = b.entries.row? ∧ a.trailing?.isSome = b.trailing?.isSome := by
    cases har : a.entries.row? with
    | none =>
      rw [har, Option.map_none] at hrow
      have hbr := Option.map_eq_none_iff.mp hrow.symm
      rw [hbr, ha.trailing_of_row? har, hb.trailing_of_row? hbr]
      exact ⟨rfl, rfl⟩
    | some row =>
      rw [har, Option.map_some] at hrow
      obtain ⟨row', hbr, hpair⟩ := Option.map_eq_some_iff.mp hrow.symm
      obtain ⟨rfl, htrailing⟩ := Prod.mk.inj hpair
      exact ⟨hbr.symm, htrailing.symm⟩
  simp only [walk, Part.leaves_append, Part.leaves_cons, Part.leaves_nil, Part.leaves_ofLeaf?,
    Part.leaf?, Option.toList_some, Option.toList_none, List.map_append, List.map_cons,
    List.map_nil, List.cons_append, List.nil_append, List.append_assoc, List.cons.injEq] at h
  obtain ⟨hkey, hcolon, hopening, h⟩ := h
  obtain ⟨hleading, h⟩ := Part.map_toList_append_inj hleading h
  obtain ⟨hentries, hcommas, h⟩ := Entries.map_append_inj hrows.1 ha.entries hb.entries
    ha.separators hb.separators h
  obtain ⟨htrailing, h⟩ := Part.map_toList_append_inj hrows.2 h
  obtain ⟨hclosing, h⟩ := List.cons.inj h
  refine ⟨?_, h⟩
  rw [map, map, hkey, hcolon, hopening, hleading, hentries, hcommas, htrailing, hclosing]

/-! ## Trees -/

/-- Whether all of some parts are in shape. -/
def Part.AllShaped (parts : List Part) : Prop :=
  ∀ part ∈ parts, part.IsShaped

namespace Part

@[simp] theorem allShaped_cons {part : Part} {parts : List Part} :
    AllShaped (part :: parts) ↔ part.IsShaped ∧ AllShaped parts :=
  List.forall_mem_cons

@[simp] theorem allShaped_append {a b : List Part} :
    AllShaped (a ++ b) ↔ AllShaped a ∧ AllShaped b :=
  List.forall_mem_append

end Part

mutual

theorem Block.map_append_inj : ∀ (a b : Block) {r r' : List Leaf}, a.phrase = b.phrase →
    Part.AllShaped a.walk → Part.AllShaped b.walk →
    (Part.leaves a.walk).map f ++ r = (Part.leaves b.walk).map g ++ r' →
    a.map f = b.map g ∧ r = r'
  | ⟨key, colon, name?, opening, ⟨items, top⟩, closing⟩,
    ⟨key', colon', name?', opening', ⟨items', top'⟩, closing'⟩, r, r', hphrase, ha, hb, h => by
    rw [Block.phrase, Block.phrase] at hphrase
    rw [Container.phrases, Container.phrases] at hphrase
    obtain ⟨-, hname, hitems⟩ := Phrase.block.inj hphrase
    have hsome : name?.isSome = name?'.isSome := by
      simpa using congrArg Option.isSome hname
    simp only [Block.walk, Container.walk, Part.allShaped_append, Part.allShaped_cons] at ha hb
    obtain ⟨⟨-, htop, ha⟩, -⟩ := ha
    obtain ⟨⟨-, htop', hb⟩, -⟩ := hb
    simp only [Block.walk, Container.walk, Part.leaves_append, Part.leaves_cons, Part.leaves_nil,
      Part.leaves_ofLeaf?, Part.leaf?, Option.toList_some, Option.toList_none, List.map_append,
      List.map_cons, List.map_nil, List.cons_append, List.nil_append, List.append_assoc,
      List.cons.injEq] at h
    obtain ⟨hkey, hcolon, h⟩ := h
    obtain ⟨hname, h⟩ := Part.map_toList_append_inj hsome h
    obtain ⟨hopening, h⟩ := List.cons.inj h
    obtain ⟨hinner, h⟩ := Item.mapAll_append_inj items items' hitems ha hb h
    obtain ⟨hclosing, h⟩ := List.cons.inj h
    refine ⟨?_, h⟩
    -- Neither container is the root, so the two are of one kind.
    have hflag : top = top' := Eq.trans htop (Eq.symm htop')
    simp only [Block.map, Container.map, hkey, hcolon, hname, hopening, hinner, hclosing, hflag]

theorem Item.mapAll_append_inj : ∀ (as bs : List Item) {r r' : List Leaf},
    Item.phraseAll as = Item.phraseAll bs →
    Part.AllShaped (Item.walkAll as) → Part.AllShaped (Item.walkAll bs) →
    (Part.leaves (Item.walkAll as)).map f ++ r = (Part.leaves (Item.walkAll bs)).map g ++ r' →
    Item.mapAll f as = Item.mapAll g bs ∧ r = r'
  | [], [], r, r', _, _, _, h => ⟨rfl, h⟩
  | [], b :: bs, r, r', hphrase, _, _, _ => by simp [Item.phraseAll] at hphrase
  | a :: as, [], r, r', hphrase, _, _, _ => by simp [Item.phraseAll] at hphrase
  | a :: as, b :: bs, r, r', hphrase, ha, hb, h => by
    obtain ⟨hfirst, hrest⟩ := List.cons.inj hphrase
    rw [Item.walkAll, Part.allShaped_append] at ha hb
    rw [Item.walkAll, Item.walkAll, Part.leaves_append, Part.leaves_append, List.map_append,
      List.map_append, List.append_assoc, List.append_assoc] at h
    obtain ⟨hitem, h⟩ := Item.map_append_inj a b hfirst ha.1 hb.1 h
    obtain ⟨hitems, h⟩ := Item.mapAll_append_inj as bs hrest ha.2 hb.2 h
    exact ⟨by rw [Item.mapAll, Item.mapAll, hitem, hitems], h⟩

theorem Item.map_append_inj : ∀ (a b : Item) {r r' : List Leaf}, a.phrase = b.phrase →
    Part.AllShaped a.walk → Part.AllShaped b.walk →
    (Part.leaves a.walk).map f ++ r = (Part.leaves b.walk).map g ++ r' →
    a.map f = b.map g ∧ r = r'
  | .pair a, .pair b, r, r', _, _, _, h => by
    obtain ⟨hpair, h⟩ := Pair.map_append_inj h
    exact ⟨congrArg Item.pair hpair, h⟩
  | .listing a, .listing b, r, r', hphrase, ha, hb, h => by
    have hmem (list : Listing) : .listing list ∈ list.walk := by simp [Listing.walk]
    obtain ⟨hlist, h⟩ := Listing.map_append_inj hphrase (ha _ (hmem a)) (hb _ (hmem b)) h
    exact ⟨congrArg Item.listing hlist, h⟩
  | .block a, .block b, r, r', hphrase, ha, hb, h => by
    obtain ⟨hblock, h⟩ := Block.map_append_inj a b hphrase ha hb h
    exact ⟨by rw [Item.map, Item.map, hblock], h⟩
  | .pair a, .listing b, r, r', hphrase, _, _, _ => by cases hphrase
  | .pair a, .block ⟨_, _, _, _, _, _⟩, r, r', hphrase, _, _, _ => by cases hphrase
  | .listing a, .pair b, r, r', hphrase, _, _, _ => by cases hphrase
  | .listing a, .block ⟨_, _, _, _, _, _⟩, r, r', hphrase, _, _, _ => by cases hphrase
  | .block ⟨_, _, _, _, _, _⟩, .pair b, r, r', hphrase, _, _, _ => by cases hphrase
  | .block ⟨_, _, _, _, _, _⟩, .listing b, r, r', hphrase, _, _, _ => by cases hphrase

end

/-! ## Documents -/

theorem Item.walkAll_append (a b : List Item) : walkAll (a ++ b) = walkAll a ++ walkAll b := by
  induction a with
  | nil => rfl
  | cons item a ih => rw [List.cons_append, walkAll, walkAll, ih, List.append_assoc]

theorem Document.walk_eq (d : Document) :
    d.walk = .document d :: .container d.container :: Item.walkAll d.container.items := by
  obtain ⟨⟨items, topLevel⟩, before, after⟩ := d
  rfl

theorem Document.leaves_eq (d : Document) :
    d.leaves = Part.leaves (Item.walkAll d.container.items) := by
  rw [leaves, walk_eq]
  rfl

theorem Document.phrases_eq (d : Document) : d.phrases = Item.phraseAll d.container.items := by
  obtain ⟨⟨items, topLevel⟩, before, after⟩ := d
  rfl

/-- Items with the phrases and, but for a change, the leaves of two rows of items are these rows,
but for that change. -/
theorem Item.map_eq_append {whole as bs : List Item} {g' : Leaf → Leaf}
    (hphrase : phraseAll whole = phraseAll as ++ phraseAll bs)
    (hwhole : Part.AllShaped (walkAll whole)) (has : Part.AllShaped (walkAll as))
    (hbs : Part.AllShaped (walkAll bs))
    (h : (Part.leaves (walkAll whole)).map f =
      (Part.leaves (walkAll as)).map g ++ (Part.leaves (walkAll bs)).map g') :
    whole.map (map f) = as.map (map g) ++ bs.map (map g') := by
  rw [phraseAll_eq_map] at hphrase
  obtain ⟨front, back, rfl, hfront, hback⟩ := List.map_eq_append_iff.mp hphrase
  rw [← phraseAll_eq_map] at hfront hback
  rw [walkAll_append, Part.allShaped_append] at hwhole
  rw [walkAll_append, Part.leaves_append, List.map_append] at h
  obtain ⟨has, h⟩ := mapAll_append_inj front as hfront hwhole.1 has h
  -- Nothing follows the leaves of the second row.
  obtain ⟨hbs, -⟩ := mapAll_append_inj back bs hback hwhole.2 hbs (congrArg (· ++ []) h)
  rw [List.map_append, ← mapAll_eq_map, ← mapAll_eq_map, ← mapAll_eq_map, ← mapAll_eq_map, has, hbs]

end LookML
