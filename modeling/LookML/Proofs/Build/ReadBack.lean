import LookML.Proofs.Build.Tidy
import LookML.Proofs.Text.Trim

/-!
# Reading back — a tidy tree with its keys in place is scanned as its phrases

Each part is scanned by itself, from the last one to the first: what follows a part matters only
in that it ends an unquoted literal.  A key, with its colon and the blank after it, takes the
blank into the text of an expression, which is why `Item.reading` is not `Item.phrase`.
-/

namespace LookML

/-! ## The phrases of what is read -/

/-- The value of a pair as it is read: the blank after the colon is part of an expression. -/
def Leaf.reading (leaf : Leaf) : Datum :=
  match leaf.form with
  | .expression left right => .expression (" " ++ left ++ leaf.value ++ right)
  | _ => .scalar leaf.scalar

mutual

def Block.reading : Block → Phrase
  | ⟨key, _, name?, _, container, _⟩ =>
    .block key.value (name?.map Leaf.value) container.readings

def Container.readings : Container → List Phrase
  | ⟨items, _⟩ => Item.readingAll items

def Item.readingAll : List Item → List Phrase
  | [] => []
  | item :: items => item.reading :: Item.readingAll items

/-- An item as it is read. -/
def Item.reading : Item → Phrase
  | .pair pair => .pair pair.key.value pair.value.reading
  | .listing listing => listing.phrase
  | .block block => block.reading

end

/-! ## Leaves -/

open Token

variable {rest : List Char}

/-- Whether a text in a list or a pair is over where `text` goes on. -/
def Ends (text : List Char) : Prop :=
  ∀ c ∈ text.head?, endsWord c = true ∧ c ≠ ':'

theorem Ends.nil : Ends [] := by
  simp [Ends]

theorem Ends.cons {c : Char} (h : endsWord c = true) (hc : c ≠ ':') (rest : List Char) :
    Ends (c :: rest) := by
  simpa [Ends] using ⟨h, hc⟩

theorem Ends.exits (h : Ends rest) : Exits rest :=
  fun c hc => (h c hc).1

theorem Ends.head? (h : Ends rest) : rest.head? ≠ some ':' :=
  fun hc => (h ':' hc).2 rfl

theorem ends_cons_layout {c : Char} (h : isLayout c = true) (rest : List Char) :
    Ends (c :: rest) := by
  simp only [isLayout, Bool.or_eq_true, beq_iff_eq] at h
  rcases h with (rfl | rfl) | rfl <;> exact .cons rfl (by decide) rest

theorem ends_layout {blanks : List Char} (h : ∀ c ∈ blanks, isLayout c = true) (hr : Ends rest) :
    Ends (blanks ++ rest) := by
  cases blanks with
  | nil => exact hr
  | cons c blanks => exact ends_cons_layout (h c (by simp)) _

namespace Leaf

variable {leaf : Leaf} {m : Mark}

theorem IsBare.print_eq (h : leaf.IsBare) : leaf.print = leaf.before ++ leaf.value := by
  rw [print, h.after, written, h.form, String.append_empty]

theorem IsBare.sentence? (h : leaf.IsBare) (hr : Exits rest)
    (hc : Keys.isExpression leaf.value = true → rest.head? ≠ some ':') :
    sentence? (leaf.print.toList ++ rest) = (sentence? rest).map (.word leaf.value :: ·) := by
  rw [h.print_eq, String.toList_append, List.append_assoc, sentence?_layout h.before]
  exact sentence?_word h.bare hr hc

/-- White space before a word ends the text before it. -/
theorem IsBare.ends (h : leaf.IsBare) (hb : leaf.before ≠ "") (rest : List Char) :
    Ends (leaf.print.toList ++ rest) := by
  rw [h.print_eq, String.toList_append, List.append_assoc]
  cases hc : leaf.before.toList with
  | nil => exact absurd (String.toList_inj.mp hc) hb
  | cons c blanks => exact ends_cons_layout (h.before c (by simp [hc])) _

theorem IsMark.sentence? (h : leaf.IsMark m) (rest : List Char) :
    sentence? (leaf.print.toList ++ rest) = (sentence? rest).map (.mark m :: ·) := by
  rw [print, written, h.form, String.toList_append, String.toList_append, List.append_assoc,
    List.append_assoc, sentence?_layout h.before, sentence?_mark, sentence?_layout h.after]

/-- Every mark but a colon and an opening bracket ends a text. -/
theorem IsMark.ends (h : leaf.IsMark m) (hb : m ≠ .bracketOpen) (hc : m ≠ .colon)
    (rest : List Char) : Ends (leaf.print.toList ++ rest) := by
  rw [print, written, h.form, String.toList_append, String.toList_append, List.append_assoc,
    List.append_assoc]
  refine ends_layout h.before ?_
  cases m with
  | bracketOpen => exact absurd rfl hb
  | colon => exact absurd rfl hc
  | _ => simp [Ends, Mark.symbol, endsWord]

theorem isMark_colon : Leaf.colon.IsMark .colon := by
  refine ⟨rfl, by simp [colon, mark], ?_⟩
  simp [colon, isLayout]

theorem exits_colon : Exits (Leaf.colon.print.toList ++ rest) :=
  Exits.cons (c := ':') rfl (' ' :: rest)

/-- A text that is no expression is scanned as one token. -/
theorem IsValue.sentence? (h : leaf.IsValue) (he : leaf.isExpression = false) (hr : Ends rest) :
    sentence? (leaf.print.toList ++ rest) = (sentence? rest).map (leaf.scalar.lexeme :: ·) := by
  have hform := h.form
  obtain ⟨form, value, before, after, line?⟩ := leaf
  obtain rfl : after = "" := h.after
  have hb : ∀ c ∈ before.toList, isLayout c = true := h.before
  rw [print, String.toList_append, String.toList_append, List.append_assoc, List.append_assoc,
    sentence?_layout hb]
  rcases form with _ | (_ | raw) | ⟨left, right⟩ | m
  · exact sentence?_word hform hr.exits fun _ => hr.head?
  · simpa [written, scalar, Scalar.lexeme] using sentence?_quoted value rest
  · exact hform.elim
  · simp [isExpression] at he
  · exact hform.elim

end Leaf

theorem Leaf.reading_of_not_isExpression {leaf : Leaf} (h : leaf.isExpression = false) :
    leaf.reading = .scalar leaf.scalar := by
  obtain ⟨form, value, before, after, line?⟩ := leaf
  cases form <;> first | rfl | simp [isExpression] at h

/-! ## Pairs -/

theorem sentence?_key {key : Leaf} (h : key.IsBare) (hk : Keys.isExpression key.value = false)
    (rest : List Char) :
    sentence? (key.print.toList ++ (Leaf.colon.print.toList ++ rest)) =
      (sentence? rest).map (Lexeme.key key.value ++ ·) := by
  rw [h.sentence? Leaf.exits_colon (by simp [hk]), Leaf.isMark_colon.sentence?, Option.map_map]
  rfl

namespace Pair

variable {pair : Pair}

theorem toList_print_append (pair : Pair) (rest : List Char) : pair.print.toList ++ rest =
    pair.key.print.toList ++ (pair.colon.print.toList ++ (pair.value.print.toList ++ rest)) := by
  simp only [print, String.toList_append, List.append_assoc]

/-- The value of a tidy pair is no expression if its key is no expression key. -/
theorem IsTidy.isExpression_value (h : pair.IsTidy)
    (hk : Keys.isExpression pair.key.value = false) : pair.value.isExpression = false :=
  Bool.eq_false_iff.mpr fun he => by simp [h.expression he] at hk

theorem IsTidy.sentence?_scalar (h : pair.IsTidy) (hk : Keys.isExpression pair.key.value = false)
    (hr : Ends rest) : sentence? (pair.print.toList ++ rest) =
      (sentence? rest).map (Row.pairLexemes pair.scalar ++ ·) := by
  rw [toList_print_append, h.colon, sentence?_key h.key hk,
    h.value.sentence? (h.isExpression_value hk) hr, Option.map_map]
  rfl

theorem holdsExpressionEnd_margins {text : List Char}
    (h : Builder.holdsExpressionEnd text = false) :
    Builder.holdsExpressionEnd ((' ' :: text ++ [' ']) ++ [';']) = false := by
  rw [List.cons_append, List.cons_append, holdsExpressionEnd_cons_of_ne (by decide)]
  fun_induction Builder.holdsExpressionEnd text with
  | case1 => simp at h
  | case2 c text hne ih =>
    rw [List.cons_append, List.cons_append, Builder.holdsExpressionEnd, ih h]
    intro left hc hl
    cases text with
    | nil => simp at hl
    | cons d text =>
      obtain ⟨rfl, -⟩ := List.cons.inj hl
      exact hne text hc rfl
  | case3 => rfl

theorem IsTidy.sentence?_expression (h : pair.IsTidy) (he : pair.value.isExpression = true)
    (rest : List Char) : sentence? (pair.print.toList ++ rest) =
      (sentence? rest).map (Lexeme.key pair.key.value ++ pair.value.reading.lexemes ++ ·) := by
  have hkey := h.expression he
  obtain ⟨key, colon, form, value, before, after, line?⟩ := pair
  obtain rfl : before = "" := h.before
  obtain rfl : after = "" := h.value.after
  obtain rfl : colon = .colon := h.colon
  have hform := h.value.form
  cases form with
  | expression left right =>
    obtain ⟨rfl, rfl, -, hend⟩ := hform
    -- The blank after the colon and the one before the end belong to the expression.
    have hprint :
        (Pair.mk key .colon ⟨.expression "" " ", value, "", "", line?⟩).print.toList ++ rest =
        key.before.toList ++ (key.value.toList ++
          ':' :: ((' ' :: value.toList ++ [' ']) ++ ';' :: ';' :: rest)) := by
      rw [print, show key.print = _ from h.key.print_eq]
      simp [Leaf.print, Leaf.written, Leaf.colon, Leaf.mark, Mark.symbol]
    rw [hprint, sentence?_layout h.key.before,
      sentence?_expression rest hkey (holdsExpressionEnd_margins hend)]
    have htext : String.ofList (' ' :: value.toList ++ [' ']) = " " ++ "" ++ value ++ " " := by
      apply String.toList_inj.mp
      simp
    rw [htext]
    rfl
  | _ => simp [Leaf.isExpression] at he

/-- A tidy pair in its place is scanned as it is read. -/
theorem IsTidy.sentence? (h : pair.IsTidy) (hp : pair.InPlace) (hr : Ends rest) :
    LookML.sentence? (pair.print.toList ++ rest) =
      (LookML.sentence? rest).map ((Item.pair pair).reading.lexemes ++ ·) := by
  cases hk : Keys.isExpression pair.key.value with
  | true => exact h.sentence?_expression (hp hk) rest
  | false =>
    rw [h.sentence?_scalar hk hr, Item.reading, Leaf.reading_of_not_isExpression
      (h.isExpression_value hk)]
    rfl

end Pair

/-! ## Lists -/

section entries

variable {ε : Type} {text : ε → String} {commas : List Leaf}

/-- A comma that the list lacks is written as the one of a list on a line. -/
theorem Entries.joinRest_cons (hs : ∀ comma ∈ commas, comma.IsMark .comma) (first : String)
    (list : List String) : ∃ (comma : Leaf) (others : List Leaf), comma.IsMark .comma ∧
      (∀ other ∈ others, other.IsMark .comma) ∧
      joinRest commas (first :: list) = comma.print ++ first ++ joinRest others list := by
  cases commas with
  | nil =>
    refine ⟨{ Leaf.mark .comma with after := " " }, [], ⟨rfl, by simp [Leaf.mark], ?_⟩,
      by simp, rfl⟩
    simp [isLayout]
  | cons comma others =>
    exact ⟨comma, others, hs comma (by simp), fun c hc => hs c (by simp [hc]), rfl⟩

theorem Entries.ends_joinRest (hs : ∀ comma ∈ commas, comma.IsMark .comma) (list : List String)
    (hr : Ends rest) : Ends ((joinRest commas list).toList ++ rest) := by
  cases list with
  | nil => exact hr
  | cons first list =>
    obtain ⟨comma, others, hcomma, -, hprint⟩ := joinRest_cons hs first list
    rw [hprint, String.toList_append, String.toList_append, List.append_assoc, List.append_assoc]
    exact hcomma.ends (by simp) (by simp) _

theorem sentence?_joinRest (code : ε → List Lexeme) {list : List ε}
    (he : ∀ e ∈ list, ∀ {rest : List Char}, Ends rest →
      sentence? ((text e).toList ++ rest) = (sentence? rest).map (code e ++ ·))
    (hs : ∀ comma ∈ commas, comma.IsMark .comma) (hr : Ends rest) :
    sentence? ((Entries.joinRest commas (list.map text)).toList ++ rest) =
      (sentence? rest).map (Row.behindCommas code list ++ ·) := by
  induction list generalizing commas with
  | nil => simp [Entries.joinRest, Row.behindCommas]
  | cons e list ih =>
    obtain ⟨comma, others, hcomma, hothers, hprint⟩ :=
      Entries.joinRest_cons hs (text e) (list.map text)
    rw [List.map_cons, hprint, String.toList_append, String.toList_append, List.append_assoc,
      List.append_assoc, hcomma.sentence?, he e (by simp) (Entries.ends_joinRest hothers _ hr),
      ih (fun e' h => he e' (by simp [h])) hothers]
    simp [Row.behindCommas, Function.comp_def]

theorem sentence?_join (code : ε → List Lexeme) {first : ε} {list : List ε}
    (he : ∀ e ∈ first :: list, ∀ {rest : List Char}, Ends rest →
      sentence? ((text e).toList ++ rest) = (sentence? rest).map (code e ++ ·))
    (hs : ∀ comma ∈ commas, comma.IsMark .comma) (hr : Ends rest) :
    sentence? ((Entries.join commas ((first :: list).map text)).toList ++ rest) =
      (sentence? rest).map (code first ++ Row.behindCommas code list ++ ·) := by
  rw [List.map_cons, Entries.join, String.toList_append, List.append_assoc,
    he first (by simp) (Entries.ends_joinRest hs _ hr),
    sentence?_joinRest code (fun e h => he e (List.mem_cons_of_mem first h)) hs hr]
  simp [Function.comp_def]

end entries

/-- The entries of a tidy list are scanned as its row. -/
theorem Entries.IsTidy.sentence? {entries : Entries} (h : entries.IsTidy) (hp : entries.InPlace)
    {commas : List Leaf} (hs : ∀ comma ∈ commas, comma.IsMark .comma) (hr : Ends rest) :
    LookML.sentence? ((join commas entries.printEach).toList ++ rest) =
      (LookML.sentence? rest).map ((entries.row?.map Row.lexemes).getD [] ++ ·) := by
  rcases entries with (_ | ⟨v, vs⟩) | (_ | ⟨p, ps⟩)
  · simp [printEach, join, row?]
  · rw [printEach, sentence?_join (fun v : Leaf => [v.scalar.lexeme])
      (fun v hv _ hr => (h v hv).1.sentence? (h v hv).2 hr) hs hr]
    simp [row?, Row.lexemes, Row.behindCommas, List.flatMap_map]
  · simp [printEach, join, row?]
  · rw [printEach, sentence?_join (fun p : Pair => Row.pairLexemes p.scalar)
      (fun p hp' _ hr => (h p hp').sentence?_scalar (hp p hp') hr) hs hr]
    simp [row?, Row.lexemes, Row.behindCommas, List.flatMap_map]

theorem Entries.exists_row? {entries : Entries} (h : entries.isEmpty = false) :
    ∃ row, entries.row? = some row := by
  rcases entries with (_ | ⟨v, vs⟩) | (_ | ⟨p, ps⟩)
  · simp [isEmpty, length] at h
  · exact ⟨_, rfl⟩
  · simp [isEmpty, length] at h
  · exact ⟨_, rfl⟩

/-- A tidy list with its keys in place is scanned as it is read. -/
theorem Listing.IsTidy.sentence? {listing : Listing} (h : listing.IsTidy) (hp : listing.InPlace)
    (rest : List Char) : LookML.sentence? (listing.print.toList ++ rest) =
      (LookML.sentence? rest).map (listing.phrase.lexemes ++ ·) := by
  obtain ⟨key, colon, opening, leading?, entries, commas, trailing?, closing⟩ := listing
  obtain rfl : colon = .colon := h.colon
  obtain rfl : leading? = none := h.leading
  have hclose := h.closing.sentence? rest
  have hends := h.closing.ends (by simp) (by simp) rest
  simp only [Listing.print, String.toList_append, List.append_assoc]
  rw [sentence?_key h.key hp.1, h.opening.sentence?]
  -- The comma after the last entry ends it, or else the bracket does.
  cases trailing? with
  | none =>
    simp only [Leaf.print?, String.toList_empty, List.nil_append]
    rw [h.entries.sentence? hp.2 h.separators hends, hclose]
    cases hrow : entries.row? <;>
      simp [hrow, Listing.phrase, Phrase.lexemes, Row.lexemes?, Lexeme.markIf, Function.comp_def]
  | some comma =>
    obtain ⟨hcomma, hne⟩ := h.trailing comma rfl
    simp only [Leaf.print?, String.toList_empty, List.nil_append]
    rw [h.entries.sentence? hp.2 h.separators (hcomma.ends (by simp) (by simp) _),
      hcomma.sentence?, hclose]
    obtain ⟨row, hrow⟩ := Entries.exists_row? hne
    simp [hrow, Listing.phrase, Phrase.lexemes, Row.lexemes?, Lexeme.markIf, Function.comp_def]

/-! ## Blocks and items -/

/-- White space before an item ends a text. -/
theorem Item.IsTidy.ends {item : Item} (h : item.IsTidy) (hb : item.keyLeaf.before ≠ "")
    (rest : List Char) : Ends (item.print.toList ++ rest) := by
  rcases item with p | l | ⟨key, colon, name?, opening, ⟨items, topLevel⟩, closing⟩
  · rw [print, Pair.toList_print_append]
    exact (show p.IsTidy from h).key.ends hb _
  · simp only [print, Listing.print, String.append_assoc]
    rw [String.toList_append, List.append_assoc]
    exact (show l.IsTidy from h).key.ends hb _
  · simp only [print, Block.print, String.append_assoc]
    rw [String.toList_append, List.append_assoc]
    exact Leaf.IsBare.ends h.1.1 hb _

theorem Item.AllTidy.ends {items : List Item} (h : Item.AllTidy items)
    (hb : ∀ next ∈ items.head?, next.keyLeaf.before ≠ "") (hr : Ends rest) :
    Ends ((Item.printAll items).toList ++ rest) := by
  cases items with
  | nil => exact hr
  | cons next items =>
    rw [Item.printAll, String.toList_append, List.append_assoc]
    exact h.1.ends (hb next rfl) _

theorem sentence?_name {name? : Option Leaf} (h : ∀ name ∈ name?, name.IsBare)
    (hr : Ends rest) : sentence? ((Leaf.print? name?).toList ++ rest) =
      (sentence? rest).map ((name?.map Leaf.value).toList.map .word ++ ·) := by
  cases name? with
  | none => simp [Leaf.print?]
  | some name => exact (h name rfl).sentence? hr.exits fun _ => hr.head?

mutual

/-- A tidy item with its keys in place is scanned as it is read. -/
theorem Item.IsTidy.sentence? : ∀ {item : Item}, item.IsTidy → item.InPlace →
    ∀ {rest : List Char}, Ends rest → LookML.sentence? (item.print.toList ++ rest) =
      (LookML.sentence? rest).map (item.reading.lexemes ++ ·)
  | .pair p, h, hp, rest, hr => Pair.IsTidy.sentence? h hp hr
  | .listing l, h, hp, rest, hr => Listing.IsTidy.sentence? h hp rest
  | .block ⟨key, colon, name?, opening, ⟨items, topLevel⟩, closing⟩, h, hp, rest, hr => by
    obtain ⟨⟨hkey, rfl, hname, hopen, hclose⟩, -, hitems⟩ := h
    -- The closing brace ends the last item inside.
    have hinner := Item.AllTidy.sentence? hitems hp.2 (hclose.ends (by simp) (by simp) rest)
    simp only [Item.print, Block.print, Container.print, String.toList_append, List.append_assoc]
    rw [sentence?_key hkey hp.1, sentence?_name hname (hopen.ends (by simp) (by simp) _),
      hopen.sentence?, hinner, hclose.sentence?]
    simp [Item.reading, Block.reading, Container.readings, Phrase.lexemes, Function.comp_def]

theorem Item.AllTidy.sentence? : ∀ {items : List Item}, Item.AllTidy items →
    Item.AllInPlace items → ∀ {rest : List Char}, Ends rest →
      LookML.sentence? ((Item.printAll items).toList ++ rest) =
        (LookML.sentence? rest).map (Phrase.lexemesAll (Item.readingAll items) ++ ·)
  | [], _, _, rest, _ => by simp [Item.printAll, Item.readingAll, Phrase.lexemesAll]
  | item :: items, h, hp, rest, hr => by
    have hrest := Item.AllTidy.sentence? h.2.2 hp.2 hr
    rw [Item.printAll, String.toList_append, List.append_assoc,
      Item.IsTidy.sentence? h.1 hp.1 (Item.AllTidy.ends h.2.2 h.2.1 hr), hrest]
    simp [Item.readingAll, Phrase.lexemesAll, Function.comp_def]

end

/-! ## What is read -/

theorem Leaf.IsValue.text_reading {leaf : Leaf} (h : leaf.IsValue) :
    leaf.reading.text = leaf.value := by
  have hform := h.form
  obtain ⟨form, value, before, after, line?⟩ := leaf
  rcases form with _ | (_ | raw) | ⟨left, right⟩ | m
  · rfl
  · rfl
  · exact hform.elim
  · obtain ⟨rfl, rfl, htrim, -⟩ := hform
    have htext : (" " ++ "" ++ value ++ " ") = " " ++ value ++ " " := by rw [String.append_empty]
    exact (congrArg Text.trim htext).trans (Text.trim_margins htrim)
  · exact hform.elim

mutual

/-- What is read of a tidy item is what the item says. -/
theorem Item.sketch_reading : ∀ {item : Item}, item.IsTidy → item.reading.sketch = item.sketch
  | .pair p, h => congrArg (Sketch.pair p.key.value) (Pair.IsTidy.value h).text_reading
  | .listing l, _ => Item.sketch_phrase (.listing l) trivial
  | .block ⟨key, colon, name?, opening, ⟨items, topLevel⟩, closing⟩, h => by
    have hs := Item.sketchAll_readingAll h.2.2
    simp only [reading, Block.reading, Phrase.sketch, sketch, Block.sketch, Container.readings,
      Container.sketch, hs]

theorem Item.sketchAll_readingAll : ∀ {items : List Item}, Item.AllTidy items →
    Phrase.sketchAll (Item.readingAll items) = Item.sketchAll items
  | [], _ => rfl
  | item :: items, h => by
    rw [readingAll, Phrase.sketchAll, sketchAll, Item.sketch_reading h.1,
      Item.sketchAll_readingAll h.2.2]

end

theorem Item.key_reading (item : Item) : item.reading.key = item.key := by
  rcases item with pair | listing | ⟨key, colon, name?, opening, container, closing⟩
  · rfl
  · rfl
  · simp only [reading, Block.reading, Phrase.key, Item.key, keyLeaf]

theorem Item.map_key_readingAll (items : List Item) :
    (Item.readingAll items).map Phrase.key = items.map Item.key := by
  induction items with
  | nil => rfl
  | cons item items ih => rw [readingAll, List.map_cons, List.map_cons, ih, item.key_reading]

mutual

/-- In a tidy item no braced container repeats a key. -/
theorem Item.not_hasRepeat : ∀ {item : Item}, item.IsTidy → ¬ item.reading.HasRepeat
  | .pair p, _ => id
  | .listing l, _ => id
  | .block ⟨key, colon, name?, opening, ⟨items, topLevel⟩, closing⟩, h => by
    have hn := Item.not_anyRepeat h.2.2
    have hkeys := (Container.firstRepeat?_eq_none.mp h.2.1).2
    simp only [reading, Block.reading, Container.readings, Phrase.HasRepeat, not_or,
      Phrase.RepeatsKey, Item.map_key_readingAll, Classical.not_not]
    exact ⟨hkeys, hn⟩

theorem Item.not_anyRepeat : ∀ {items : List Item}, Item.AllTidy items →
    ¬ Phrase.AnyRepeat (Item.readingAll items)
  | [], _ => id
  | _ :: _, h => not_or.mpr ⟨Item.not_hasRepeat h.1, Item.not_anyRepeat h.2.2⟩

end

/-- A tidy document with its keys in place is parsed as a document that says the same. -/
theorem Document.IsTidy.parse_print {d : Document} (h : d.IsTidy) (hp : d.KeysInPlace) :
    ∃ e, parse d.print = .ok e ∧ e.sketch = d.sketch := by
  obtain ⟨⟨items, topLevel⟩, before, after⟩ := d
  obtain rfl : before = "" := h.before
  obtain rfl : after = "" := h.after
  have hitems : Item.AllTidy items := h.container
  have hs : sentence? (Document.print ⟨⟨items, topLevel⟩, "", ""⟩).toList =
      some (Phrase.lexemesAll (Item.readingAll items)) := by
    have := hitems.sentence? hp .nil
    rw [List.append_nil, sentence?_nil, Option.map_some, List.append_nil] at this
    rwa [Document.print, Container.print, String.empty_append, String.append_empty]
  -- The sentence has a derivation that repeats no key, so the parse gives that derivation.
  obtain ⟨tokens, ht, hsent⟩ := tokenize_of_sentence? hs
  obtain ⟨e, he, hphrases⟩ := parse_of_derivation ht hsent.symm (Item.not_anyRepeat hitems)
  refine ⟨e, he, ?_⟩
  rw [← Document.sketch_phrases (isTrimmed_of_parse he), hphrases]
  exact Item.sketchAll_readingAll hitems

end LookML
