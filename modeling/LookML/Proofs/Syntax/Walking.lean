import LookML.Proofs.Parser.Leaves

/-!
# Walking — the leaves of a walk are what is printed

Printing and walking go through a tree apart from each other.  They meet the same leaves in the
same order, but for a comma that a list lacks: printing makes it up and a walk passes it over.
Where no list lacks one, a document is printed as its trivia and its leaves
(`Document.print_eq_leaves`).
-/

namespace LookML

/-! ## What a walk writes -/

namespace Part

/-- The leaves among some parts, as source. -/
def text (parts : List Part) : String :=
  String.join ((leaves parts).map Leaf.print)

@[simp] theorem text_nil : text [] = "" := rfl

@[simp] theorem text_append (a b : List Part) : text (a ++ b) = text a ++ text b := by
  simp [text]

@[simp] theorem text_cons (part : Part) (parts : List Part) :
    text (part :: parts) = Leaf.print? part.leaf? ++ text parts := by
  cases part <;> simp [text, leaf?, Leaf.print?]

@[simp] theorem text_ofLeaf? (leaf? : Option Leaf) : text (ofLeaf? leaf?) = Leaf.print? leaf? := by
  cases leaf? <;> simp [ofLeaf?, Leaf.print?, Part.leaf?]

/-- Whether the lists among some parts have a comma for each entry but the first. -/
def HaveCommas (parts : List Part) : Prop :=
  ∀ list, .listing list ∈ parts → list.entries.length - 1 ≤ list.separators.length

theorem haveCommas_append {a b : List Part} :
    HaveCommas (a ++ b) ↔ HaveCommas a ∧ HaveCommas b := by
  simp [HaveCommas, or_imp, forall_and]

end Part

/-! ## Lists -/

theorem Pair.text_walk (pair : Pair) : Part.text pair.walk = pair.print := by
  simp [walk, print, Part.leaf?, Leaf.print?, String.append_assoc]

namespace Entries

theorem map_text_walkEach (entries : Entries) :
    entries.walkEach.map Part.text = entries.printEach := by
  cases entries with
  | values vs => simp [walkEach, printEach, Part.leaf?, Leaf.print?]
  | pairs ps => simp [walkEach, printEach, Pair.text_walk]

theorem length_printEach (entries : Entries) : entries.printEach.length = entries.length := by
  cases entries <;> simp [printEach, length]

/-- With commas for all entries, a row of them writes what is printed; commas to spare are in
neither. -/
theorem text_walkRest {separators : List Leaf} {entries : List (List Part)}
    (h : entries.length ≤ separators.length) :
    Part.text (walkRest separators entries) = joinRest separators (entries.map Part.text) := by
  fun_induction walkRest separators entries with
  | case1 => rw [List.map_nil, joinRest, Part.text_nil]
  | case2 entry entries ih => simp at h
  | case3 comma commas entry entries ih =>
    have hrest : entries.length ≤ commas.length := Nat.le_of_succ_le_succ h
    rw [Part.text_cons, Part.text_append, ih hrest, List.map_cons, joinRest,
      String.append_assoc]
    rfl

theorem text_walkJoined {separators : List Leaf} {entries : Entries}
    (h : entries.length - 1 ≤ separators.length) :
    Part.text (walkJoined separators entries.walkEach) = join separators entries.printEach := by
  rw [← length_printEach] at h
  rw [← map_text_walkEach] at h ⊢
  cases heach : entries.walkEach with
  | nil => rfl
  | cons entry rest =>
    rw [heach, List.length_map, List.length_cons, Nat.add_sub_cancel] at h
    rw [walkJoined, Part.text_append, text_walkRest h, List.map_cons, join]

end Entries

theorem Listing.text_walk {list : Listing} (h : Part.HaveCommas list.walk) :
    Part.text list.walk = list.print := by
  have hrow := Entries.text_walkJoined (h list (by simp [walk]))
  simp [walk, hrow, print, Part.leaf?, Leaf.print?, String.append_assoc]

/-! ## Trees -/

mutual

theorem Block.text_walk : ∀ {block : Block}, Part.HaveCommas block.walk →
    Part.text block.walk = block.print
  | ⟨key, colon, name?, opening, inner, closing⟩, h => by
    rw [Block.walk, Part.haveCommas_append, Part.haveCommas_append] at h
    have hinner := Container.text_walk h.1.2
    simp [Block.walk, hinner, Block.print, Part.leaf?, Leaf.print?, String.append_assoc]

/-- Where no list lacks a comma, the leaves of a container are what it prints. -/
theorem Container.text_walk : ∀ {c : Container}, Part.HaveCommas c.walk →
    Part.text c.walk = c.print
  | ⟨items, topLevel⟩, h => by
    have hitems : Part.HaveCommas (Item.walkAll items) := fun list hl =>
      h list (List.mem_cons_of_mem _ hl)
    rw [Container.walk, Part.text_cons, Item.text_walkAll hitems, Container.print]
    exact String.empty_append

theorem Item.text_walkAll : ∀ {items : List Item}, Part.HaveCommas (Item.walkAll items) →
    Part.text (Item.walkAll items) = Item.printAll items
  | [], _ => rfl
  | item :: items, h => by
    rw [Item.walkAll, Part.haveCommas_append] at h
    rw [Item.walkAll, Part.text_append, Item.text_walk h.1, Item.text_walkAll h.2, Item.printAll]

theorem Item.text_walk : ∀ {item : Item}, Part.HaveCommas item.walk →
    Part.text item.walk = item.print
  | .pair pair, _ => pair.text_walk
  | .listing _, h => Listing.text_walk h
  | .block _, h => Block.text_walk h

end

/-- Where each list has a comma for each entry but the first, a document is printed as the trivia
before it, the leaves of its walk in order, and the trivia after it. -/
theorem Document.print_eq_leaves {d : Document}
    (h : ∀ list, .listing list ∈ d.walk → list.entries.length - 1 ≤ list.separators.length) :
    d.before ++ String.join (d.leaves.map Leaf.print) ++ d.after = d.print := by
  have hcommas : Part.HaveCommas d.container.walk := fun list hl =>
    h list (List.mem_cons_of_mem _ hl)
  have htext : String.join (d.leaves.map Leaf.print) = Part.text d.container.walk := rfl
  rw [htext, Container.text_walk hcommas, print]

/-- A list with commas to spare, in a block without a name. -/
def Samples.spare : Document where
  before := "# c\n"
  container := ⟨[.block (.plain (.word "link") none ⟨[.listing
    { key := .word "f"
      entries := .values [.word "x", .quoted "y"]
      separators := [.mark .comma, .mark .comma, .mark .comma]
      trailing? := some (.mark .comma) }], false⟩)], true⟩
  after := " "

theorem print_eq_leaves_spare :
    (∀ list, .listing list ∈ Samples.spare.walk →
      list.entries.length - 1 ≤ list.separators.length) ∧
    Samples.spare.before ++ String.join (Samples.spare.leaves.map Leaf.print) ++
      Samples.spare.after = "# c\nlink: \x7bf: [x,\"y\",]\x7d " := by
  have hcommas : ∀ list, .listing list ∈ Samples.spare.walk →
      list.entries.length - 1 ≤ list.separators.length := by
    intro list hl
    simp [Samples.spare, Document.walk, Container.walk, Item.walkAll, Item.walk, Block.plain,
      Block.walk, Listing.walk, Entries.walkEach, Entries.walkJoined, Entries.walkRest,
      Part.ofLeaf?] at hl
    subst hl
    decide
  refine ⟨hcommas, ?_⟩
  rw [Document.print_eq_leaves hcommas]
  decide +kernel

end LookML
