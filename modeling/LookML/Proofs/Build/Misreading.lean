import LookML.Proofs.Build.ReadBack

/-!
# Misreading — a tree with an expression key out of place is not read back

Behind an expression key with its colon a scan takes an expression, whatever was written there.
A list or a block is lost that way, and so is a quoted text: the expression has its quotes, or ends
before them.  So a tidy tree is read back exactly if its keys are in place.
-/

namespace LookML

open Token

variable {rest : List Char} {tail : List Lexeme}

/-! ## Quoted texts -/

namespace Text

theorem length_le_escapeChars (text : List Char) : text.length ≤ (escapeChars text).length := by
  induction text with
  | nil => exact Nat.zero_le _
  | cons c text ih =>
    rw [escapeChars]
    split <;> simp only [List.length_cons] <;> omega

/-- No escape and no quote makes an end of an expression. -/
theorem holdsExpressionEnd_escapeChars (text : List Char) :
    Builder.holdsExpressionEnd (escapeChars text ++ ['"']) =
      Builder.holdsExpressionEnd text := by
  fun_induction Builder.holdsExpressionEnd text with
  | case1 rest => simp [escapeChars, needsEscape, Builder.holdsExpressionEnd]
  | case2 c rest hne ih =>
    rw [escapeChars]
    split
    · rename_i hc
      -- An escaped character is a backslash or a quote.
      have hs : c ≠ ';' := by
        rintro rfl
        simp [needsEscape] at hc
      rw [List.cons_append, List.cons_append, holdsExpressionEnd_cons_of_ne (by decide),
        holdsExpressionEnd_cons_of_ne hs, ih]
    · rw [List.cons_append, Builder.holdsExpressionEnd, ih]
      rintro left rfl hl
      cases rest with
      | nil => simp [escapeChars] at hl
      | cons d rest =>
        rw [escapeChars] at hl
        split at hl
        · simp at hl
        · obtain ⟨rfl, -⟩ := List.cons.inj hl
          exact hne rest rfl rfl
  | case3 => rfl

/-- A text that ends in no blank stays whole at the front of what is trimmed. -/
theorem concat_isPrefix_dropTrailing {p : Char → Bool} {c : Char} (hc : p c = false)
    (text more : List Char) : text ++ [c] <+: dropTrailing p (text ++ c :: more) := by
  have hc' : (c :: text.reverse).dropWhile p = c :: text.reverse := by
    rw [List.dropWhile_cons_of_neg (by simp [hc])]
  have hsuffix : c :: text.reverse <:+ (more.reverse ++ c :: text.reverse).dropWhile p := by
    rw [List.dropWhile_append, hc']
    split
    · exact List.suffix_rfl
    · exact List.suffix_append _ _
  have := List.reverse_prefix.mpr hsuffix
  simpa [dropTrailing] using this

end Text

/-- Where a literal holds no end, an expression that begins with it has all of it. -/
theorem append_of_taken {literal taken left : List Char}
    (h : literal ++ ['"'] ++ rest = taken ++ ';' :: ';' :: left)
    (hl : Builder.holdsExpressionEnd (literal ++ ['"']) = false) :
    ∃ more, taken = literal ++ '"' :: more := by
  rcases List.append_eq_append_iff.mp h with ⟨x, rfl, -⟩ | ⟨x, hx, hends⟩
  · exact ⟨x, by simp⟩
  · -- What is left of the literal would begin with the end, or be half of it.
    rcases x with _ | ⟨c, _ | ⟨d, x⟩⟩
    · exact ⟨[], by simpa using hx.symm⟩
    · obtain ⟨-, hc⟩ := List.append_inj' hx rfl
      rw [← (List.cons.inj hc).1] at hends
      simp at hends
    · obtain ⟨rfl, hsecond⟩ := List.cons.inj hends
      obtain ⟨rfl, -⟩ := List.cons.inj hsecond
      have hpart : [';', ';'] <:+: taken ++ ';' :: ';' :: x := ⟨taken, x, by simp⟩
      rw [← hx] at hpart
      simp [holdsExpressionEnd_iff.mpr hpart] at hl

/-- An expression that has a whole literal is longer than the text of the literal. -/
theorem trim_ne_of_long (text : String) (more : List Char) :
    Text.trim (String.ofList (' ' :: '"' :: ((Text.escape text).toList ++ '"' :: more))) ≠
      text := by
  intro htrim
  have htext := congrArg String.toList htrim
  rw [Text.toList_trim, String.toList_ofList, List.dropWhile_cons_of_pos (by decide),
    List.dropWhile_cons_of_neg (by decide)] at htext
  have hlong : ('"' :: (Text.escape text).toList ++ ['"']).length ≤
      (Text.dropTrailing Text.isBlank ('"' :: ((Text.escape text).toList ++ '"' :: more))).length :=
    (Text.concat_isPrefix_dropTrailing rfl _ more).length_le
  rw [htext, Text.escape, String.toList_ofList] at hlong
  have := Text.length_le_escapeChars text.toList
  simp only [List.length_append, List.length_cons, List.length_nil] at hlong
  omega

/-- A quoted literal that is taken for an expression does not mean its text. -/
theorem trim_ne_of_quoted {text : String} {taken left : List Char}
    (h : ' ' :: '"' :: ((Text.escape text).toList ++ '"' :: rest) = taken ++ ';' :: ';' :: left)
    (ht : Builder.holdsExpressionEnd taken = false) : Text.trim (String.ofList taken) ≠ text := by
  intro htrim
  -- The text is a part of what was taken, so neither it nor its literal holds an end.
  have hinfix : text.toList <:+: taken := by
    have := Text.trim_isInfix (String.ofList taken)
    rwa [htrim, String.toList_ofList] at this
  have hquoted : Builder.holdsExpressionEnd
      (' ' :: '"' :: (Text.escape text).toList ++ ['"']) = false := by
    rw [List.cons_append, List.cons_append, Text.escape, String.toList_ofList,
      holdsExpressionEnd_cons_of_ne (by decide), holdsExpressionEnd_cons_of_ne (by decide),
      Text.holdsExpressionEnd_escapeChars]
    exact holdsExpressionEnd_of_isInfix hinfix ht
  -- So what was taken has all of the literal, which makes it too long.
  have hwhole : ' ' :: '"' :: (Text.escape text).toList ++ ['"'] ++ rest =
      taken ++ ';' :: ';' :: left := by
    rw [← h]
    simp
  obtain ⟨more, rfl⟩ := append_of_taken hwhole hquoted
  exact trim_ne_of_long text more htrim

/-! ## Keys -/

section keys

variable {key : Leaf} {s : List Lexeme}

/-- Behind an expression key, a scan takes an expression. -/
theorem sentence?_expressionKey (h : key.IsBare) (hk : Keys.isExpression key.value = true)
    (hs : sentence? (key.print.toList ++ (Leaf.colon.print.toList ++ rest)) = some s) :
    ∃ taken left s', ' ' :: rest = taken ++ ';' :: ';' :: left ∧
      Builder.holdsExpressionEnd taken = false ∧
      s = Lexeme.key key.value ++ .expression (String.ofList taken) :: .expressionEnd :: s' := by
  rw [h.print_eq, String.toList_append, List.append_assoc, sentence?_layout h.before] at hs
  have hcolon : Leaf.colon.print.toList ++ rest = ':' :: ' ' :: rest := rfl
  rw [hcolon] at hs
  obtain ⟨taken, left, s', hsplit, hend, rfl⟩ := sentence?_key_eq_some hk hs
  exact ⟨taken, left, s', hsplit, hend, rfl⟩

/-- Where a key with its colon is written, a scan finds them. -/
theorem sentence?_key_eq_cons (h : key.IsBare)
    (hs : sentence? (key.print.toList ++ (Leaf.colon.print.toList ++ rest)) = some s) :
    ∃ s', s = Lexeme.key key.value ++ s' := by
  cases hk : Keys.isExpression key.value with
  | true =>
    obtain ⟨taken, left, s', -, -, rfl⟩ := sentence?_expressionKey h hk hs
    exact ⟨_, rfl⟩
  | false =>
    rw [sentence?_key h hk] at hs
    obtain ⟨s', -, rfl⟩ := Option.map_eq_some_iff.mp hs
    exact ⟨s', rfl⟩

/-- No expression key is scanned with anything but an expression behind it. -/
theorem isExpression_of_sentence? (h : key.IsBare)
    (hs : sentence? (key.print.toList ++ (Leaf.colon.print.toList ++ rest)) =
      some (Lexeme.key key.value ++ tail))
    (ht : ∀ text s, tail ≠ .expression text :: s) : Keys.isExpression key.value = false := by
  refine Bool.eq_false_iff.mpr fun hk => ?_
  obtain ⟨taken, left, s', -, -, h'⟩ := sentence?_expressionKey h hk hs
  exact ht _ _ (List.append_cancel_left h')

end keys

/-- A tidy item is scanned from its key on. -/
theorem Item.IsTidy.sentence?_eq_cons {item : Item} (h : item.IsTidy) {s : List Lexeme}
    (hs : LookML.sentence? (item.print.toList ++ rest) = some s) :
    ∃ s', s = .word item.key :: s' := by
  rcases item with p | l | ⟨key, colon, name?, opening, ⟨items, topLevel⟩, closing⟩
  · have ht : p.IsTidy := h
    rw [print, Pair.toList_print_append, ht.colon] at hs
    obtain ⟨s', rfl⟩ := sentence?_key_eq_cons ht.key hs
    exact ⟨_, rfl⟩
  · have ht : l.IsTidy := h
    simp only [print, Listing.print, ht.colon, String.toList_append, List.append_assoc] at hs
    obtain ⟨s', rfl⟩ := sentence?_key_eq_cons ht.key hs
    exact ⟨_, rfl⟩
  · obtain ⟨⟨hkey, rfl, -⟩, -⟩ := h
    simp only [print, Block.print, String.toList_append, List.append_assoc] at hs
    obtain ⟨s', rfl⟩ := sentence?_key_eq_cons hkey hs
    exact ⟨_, rfl⟩

/-! ## Pairs and lists -/

namespace Pair

variable {pair : Pair}

/-- A tidy pair that is read back with its value is in place. -/
theorem IsTidy.inPlace (h : pair.IsTidy) {value : Datum} (hv : value.text = pair.value.value)
    (hs : LookML.sentence? (pair.print.toList ++ rest) =
      some (Lexeme.key pair.key.value ++ (value.lexemes ++ tail))) : pair.InPlace := by
  intro hk
  have hword := h.word
  have hform := h.value.form
  obtain ⟨key, colon, form, text, before, after, line?⟩ := pair
  obtain rfl : before = "" := h.before
  obtain rfl : after = "" := h.value.after
  obtain rfl : colon = .colon := h.colon
  -- A word has no expression key here, and an expression is in place: a quoted text is left.
  rcases form with _ | (_ | raw) | ⟨left, right⟩ | m
  · simp [hword rfl] at hk
  · rw [toList_print_append] at hs
    obtain ⟨taken, left, s', hsplit, hend, htail⟩ := sentence?_expressionKey h.key hk hs
    -- The value that is read is the expression that the scan takes.
    have hvalue : value = .expression (String.ofList taken) := by
      have hlex := List.append_cancel_left htail
      rcases value with (w | ⟨raw, w⟩) | w <;>
        simp [Datum.lexemes, Scalar.lexeme] at hlex
      rw [hlex.1]
    rw [hvalue] at hv
    have hquoted : ' ' :: '"' :: ((Text.escape text).toList ++ '"' :: rest) =
        taken ++ ';' :: ';' :: left := by
      rw [← hsplit]
      simp [Leaf.print, Leaf.written]
    exact absurd hv (trim_ne_of_quoted hquoted hend)
  · exact hform.elim
  · rfl
  · exact hform.elim

/-- A tidy pair of a list that is read back as a pair of a list has no expression key. -/
theorem IsTidy.isExpression_key (h : pair.IsTidy) {p : String × Scalar}
    (hs : LookML.sentence? (pair.print.toList ++ rest) = some (Row.pairLexemes p ++ tail)) :
    Keys.isExpression pair.key.value = false := by
  rw [toList_print_append, h.colon] at hs
  obtain ⟨s', hkey⟩ := sentence?_key_eq_cons h.key hs
  rw [hkey] at hs
  refine isExpression_of_sentence? h.key hs ?_
  rintro text s rfl
  obtain ⟨key, w | ⟨raw, w⟩⟩ := p <;>
    simp [Row.pairLexemes, Lexeme.key, Scalar.lexeme] at hkey

end Pair

/-- Tidy pairs behind commas that are read back as so many pairs have no expression key. -/
theorem Pair.isExpression_of_joinRest {commas : List Leaf} {ps : List Pair}
    {row : List (String × Scalar)} (h : ∀ p ∈ ps, p.IsTidy)
    (hc : ∀ comma ∈ commas, comma.IsMark .comma) (hr : Ends rest) (hl : row.length = ps.length)
    (hs : sentence? ((Entries.joinRest commas (ps.map Pair.print)).toList ++ rest) =
      some (Row.behindCommas Row.pairLexemes row ++ tail)) :
    ∀ p ∈ ps, Keys.isExpression p.key.value = false := by
  induction ps generalizing commas row with
  | nil => simp
  | cons p ps ih =>
    cases row with
    | nil => simp at hl
    | cons first row =>
      obtain ⟨comma, others, hcomma, hothers, hprint⟩ :=
        Entries.joinRest_cons hc p.print (ps.map Pair.print)
      rw [List.map_cons, hprint, String.toList_append, String.toList_append, List.append_assoc,
        List.append_assoc, hcomma.sentence?] at hs
      obtain ⟨s, hs, hcode⟩ := Option.map_eq_some_iff.mp hs
      obtain rfl : s = Row.pairLexemes first ++ (Row.behindCommas Row.pairLexemes row ++ tail) := by
        simpa [Row.behindCommas] using hcode
      have hp := h p (by simp)
      have hkey := hp.isExpression_key hs
      rw [hp.sentence?_scalar hkey (Entries.ends_joinRest hothers _ hr)] at hs
      obtain ⟨s, hs, hcode⟩ := Option.map_eq_some_iff.mp hs
      obtain ⟨-, rfl⟩ := Row.pairLexemes_append_inj hcode
      have hrest := ih (fun q hq => h q (by simp [hq])) hothers (by simpa using hl) hs
      simpa using ⟨hkey, hrest⟩

/-- The phrase of a list says that it has these pairs: its row is so many pairs. -/
theorem Row.exists_pairs {row? : Option (Row × Bool)} {p : Pair} {ps : List Pair}
    (h : (row?.map fun row => row.1.plain).getD [] = Projector.entries (.pairs (p :: ps))) :
    ∃ first more trailing, row? = some (.pairs first more, trailing) ∧
      more.length = ps.length := by
  rcases row? with _ | ⟨first | ⟨first, more⟩, trailing⟩
  · simp [Projector.entries] at h
  · simp [Row.plain, Projector.entries, Value.single] at h
  · have hl := congrArg List.length h
    exact ⟨first, more, trailing, rfl, by simpa [Row.plain, Projector.entries] using hl⟩

/-- The entries of a tidy list that are read back as they are have no expression key. -/
theorem Entries.IsTidy.inPlace {entries : Entries} (h : entries.IsTidy) {leading : Bool}
    {row? : Option (Row × Bool)} {commas : List Leaf}
    (hp : (row?.map fun row => row.1.plain).getD [] = Projector.entries entries)
    (hc : ∀ comma ∈ commas, comma.IsMark .comma) (hr : Ends rest)
    (hs : LookML.sentence? ((join commas entries.printEach).toList ++ rest) =
      some (Lexeme.markIf .comma leading ++ (Row.lexemes? row? ++ tail))) : entries.InPlace := by
  rcases entries with vs | (_ | ⟨p, ps⟩)
  · trivial
  · simp [InPlace]
  · obtain ⟨first, more, trailing, rfl, hl⟩ := Row.exists_pairs hp
    have htidy : p.IsTidy := h p (by simp)
    rw [printEach, List.map_cons, join, String.toList_append, List.append_assoc] at hs
    -- A key comes first, so there is no comma before it.
    obtain rfl : leading = false := by
      have hitem : (Item.pair p).IsTidy := htidy
      obtain ⟨s', hfirst⟩ := hitem.sentence?_eq_cons hs
      cases leading with
      | false => rfl
      | true => simp [Lexeme.markIf] at hfirst
    simp only [Lexeme.markIf, Bool.false_eq_true, if_false, List.nil_append, Row.lexemes?,
      Row.lexemes, List.append_assoc] at hs
    have hkey := htidy.isExpression_key hs
    rw [htidy.sentence?_scalar hkey (ends_joinRest hc _ hr)] at hs
    obtain ⟨s, hs, hcode⟩ := Option.map_eq_some_iff.mp hs
    obtain ⟨-, rfl⟩ := Row.pairLexemes_append_inj hcode
    have hrest := Pair.isExpression_of_joinRest (fun q hq => h q (by simp [hq])) hc hr hl hs
    simpa [InPlace] using ⟨hkey, hrest⟩

/-- A tidy list that is read back as it is has its keys in place. -/
theorem Listing.IsTidy.inPlace {listing : Listing} (h : listing.IsTidy) {leading : Bool}
    {row? : Option (Row × Bool)}
    (hp : (row?.map fun row => row.1.plain).getD [] = Projector.entries listing.entries)
    (hs : LookML.sentence? (listing.print.toList ++ rest) =
      some ((Phrase.listing listing.key.value leading row?).lexemes ++ tail)) :
    listing.InPlace := by
  obtain ⟨key, colon, opening, leading?, entries, commas, trailing?, closing⟩ := listing
  obtain rfl : colon = .colon := h.colon
  obtain rfl : leading? = none := h.leading
  simp only [Listing.print, String.toList_append, List.append_assoc, Phrase.lexemes] at hs
  have hkey := isExpression_of_sentence? h.key hs (by simp)
  refine ⟨hkey, ?_⟩
  rw [sentence?_key h.key hkey, h.opening.sentence?, Option.map_map] at hs
  obtain ⟨s, hs, hcode⟩ := Option.map_eq_some_iff.mp hs
  obtain rfl : s = Lexeme.markIf .comma leading ++ (Row.lexemes? row? ++
      (.mark .bracketClose :: tail)) := by
    simpa using hcode
  simp only [Leaf.print?, String.toList_empty, List.nil_append] at hs
  refine h.entries.inPlace hp h.separators ?_ hs
  have hends := h.closing.ends (by simp) (by simp) rest
  cases trailing? with
  | none => exact hends
  | some comma => exact (h.trailing comma rfl).1.ends (by simp) (by simp) _

/-! ## Items -/

/-- What is scanned after an item goes on with a key, or as what follows all items does. -/
theorem follows_of_sentence?_printAll {items : List Item} (h : Item.AllTidy items)
    (hr : ∀ s, sentence? rest = some s → Phrase.Closes s) {s : List Lexeme}
    (hs : sentence? ((Item.printAll items).toList ++ rest) = some s) : Phrase.Follows s := by
  cases items with
  | nil => exact (hr s hs).follows
  | cons item items =>
    rw [Item.printAll, String.toList_append, List.append_assoc] at hs
    obtain ⟨s', rfl⟩ := h.1.sentence?_eq_cons hs
    simp [Phrase.Follows]

mutual

/-- A tidy item that is read back as it is has its keys in place. -/
theorem Item.IsTidy.inPlace : ∀ {item : Item}, item.IsTidy → ∀ {q : Phrase},
    q.sketch = item.sketch → ∀ {rest : List Char} {tail : List Lexeme},
      LookML.sentence? (item.print.toList ++ rest) = some (q.lexemes ++ tail) → item.InPlace
  | .pair p, h, q, hq, rest, tail, hs => by
    cases q <;> simp only [Phrase.sketch, sketch, Sketch.pair.injEq, reduceCtorEq] at hq
    case pair key value =>
      obtain ⟨rfl, hv⟩ := hq
      exact Pair.IsTidy.inPlace h hv (by simpa [Phrase.lexemes, Item.print] using hs)
  | .listing l, h, q, hq, rest, tail, hs => by
    cases q <;> simp only [Phrase.sketch, sketch, Sketch.listing.injEq, reduceCtorEq] at hq
    case listing key leading row? =>
      obtain ⟨rfl, hp⟩ := hq
      exact Listing.IsTidy.inPlace h hp hs
  | .block ⟨key, colon, name?, opening, ⟨items, topLevel⟩, closing⟩, h, q, hq, rest, tail, hs => by
    obtain ⟨⟨hkey, rfl, hname, hopen, hclose⟩, -, hitems⟩ := h
    cases q <;> simp only [Phrase.sketch, sketch, Block.sketch, Container.sketch,
      Sketch.block.injEq, reduceCtorEq] at hq
    case block key' name' qs =>
      obtain ⟨rfl, rfl, hqs⟩ := hq
      simp only [Item.print, Block.print, Container.print, String.toList_append,
        List.append_assoc, Phrase.lexemes] at hs
      -- Behind the key a name or a brace is read, so the key is no expression key.
      have hk := isExpression_of_sentence? hkey hs (by cases name? <;> simp)
      refine ⟨hk, ?_⟩
      rw [sentence?_key hkey hk, sentence?_name hname (hopen.ends (by simp) (by simp) _),
        hopen.sentence?, Option.map_map, Option.map_map] at hs
      obtain ⟨s, hs, hcode⟩ := Option.map_eq_some_iff.mp hs
      obtain rfl : s = Phrase.lexemesAll qs ++ (.mark .braceClose :: tail) := by
        simpa using hcode
      refine Item.AllTidy.inPlace hitems (hclose.ends (by simp) (by simp) rest) ?_ hqs
        (.inr (.inl rfl)) hs
      intro s hs
      rw [hclose.sentence?] at hs
      obtain ⟨s', -, rfl⟩ := Option.map_eq_some_iff.mp hs
      exact .inr (.inl rfl)

theorem Item.AllTidy.inPlace : ∀ {items : List Item}, Item.AllTidy items →
    ∀ {rest : List Char}, Ends rest → (∀ s, LookML.sentence? rest = some s → Phrase.Closes s) →
      ∀ {qs : List Phrase}, Phrase.sketchAll qs = Item.sketchAll items →
        ∀ {tail : List Lexeme}, Phrase.Closes tail →
          LookML.sentence? ((Item.printAll items).toList ++ rest) =
            some (Phrase.lexemesAll qs ++ tail) → Item.AllInPlace items
  | [], _, _, _, _, _, _, _, _, _ => trivial
  | item :: items, h, rest, hr, hclose, [], hq, tail, ht, hs => by
    simp [Phrase.sketchAll, sketchAll] at hq
  | item :: items, h, rest, hr, hclose, q :: qs, hq, tail, ht, hs => by
    obtain ⟨hitem, hnext, hitems⟩ := h
    obtain ⟨hq, hqs⟩ := List.cons.inj hq
    rw [Item.printAll, String.toList_append, List.append_assoc, Phrase.lexemesAll_cons,
      List.append_assoc] at hs
    have hp := Item.IsTidy.inPlace hitem hq hs
    -- The first item is read as its own phrase, so the rest is read as the phrases after it.
    rw [Item.IsTidy.sentence? hitem hp (hitems.ends hnext hr)] at hs
    obtain ⟨s, hs, hcode⟩ := Option.map_eq_some_iff.mp hs
    obtain ⟨-, rfl⟩ := Phrase.lexemes_append_inj _ _
      (follows_of_sentence?_printAll hitems hclose hs) (Phrase.follows_lexemesAll_append qs ht)
      hcode
    exact ⟨hp, Item.AllTidy.inPlace hitems hr hclose hqs ht hs⟩

end

/-! ## Documents -/

/-- A tidy document that is parsed as one that says the same has its keys in place. -/
theorem Document.IsTidy.keysInPlace {d e : Document} (h : d.IsTidy)
    (he : parse d.print = .ok e) (hs : e.sketch = d.sketch) : d.KeysInPlace := by
  obtain ⟨⟨items, topLevel⟩, before, after⟩ := d
  obtain rfl : before = "" := h.before
  obtain rfl : after = "" := h.after
  have hitems : Item.AllTidy items := h.container
  have hq : Phrase.sketchAll e.phrases = Item.sketchAll items :=
    (Document.sketch_phrases (isTrimmed_of_parse he)).trans hs
  -- What is parsed derives the sentence that is scanned.
  obtain ⟨body, last, ht, -⟩ := body_of_parse he
  have hsent := sentence?_of_tokenize ht
  rw [← lexemesAll_phrases ht he, Document.print, Container.print, String.empty_append,
    String.append_empty, ← List.append_nil (Item.printAll items).toList,
    ← List.append_nil (Phrase.lexemesAll e.phrases)] at hsent
  refine hitems.inPlace .nil (fun s hs => ?_) hq (.inl rfl) hsent
  rw [sentence?_nil] at hs
  exact .inl (Option.some.inj hs).symm

/-- A tidy document is parsed as one that says the same exactly if its keys are in place. -/
theorem Document.IsTidy.parse_print_iff {d : Document} (h : d.IsTidy) :
    (∃ e, parse d.print = .ok e ∧ e.sketch = d.sketch) ↔ d.KeysInPlace :=
  ⟨fun ⟨_, he, hs⟩ => h.keysInPlace he hs, h.parse_print⟩

end LookML
