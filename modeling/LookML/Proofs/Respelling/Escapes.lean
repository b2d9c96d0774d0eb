import LookML.Proofs.Respelling.LineEnds
import LookML.Proofs.Syntax.Rebuilding

/-!
# Escapes — a document reads back with its quoted literals escaped anew

The raw text of a quoted literal may have a backslash before any character.  The escaped form of
what it means has one only before quotes and backslashes.  Both have the same line feeds, and a scan
goes on after either in the same way.  So a source in which each raw text is replaced by the escaped
form has the same tokens but for the raw texts, on the same lines, and no production looks at a raw
text.
-/

namespace LookML

/-! ## Escaped literals -/

/-- Every quoted literal is written as the escaped form of what it means. -/
def Respelling.escaped : Respelling where
  char c := [c]
  raw _ text := Text.escape text
  char_of_not_blank _ := rfl
  blank_of_mem h d hd := List.mem_singleton.mp hd ▸ h
  injective a b h := by simpa using h

namespace Respelling

@[simp] theorem chars_escaped (text : List Char) : escaped.chars text = text :=
  List.flatMap_singleton' text

@[simp] theorem text_escaped (s : String) : escaped.text s = s := by
  rw [text, chars_escaped, String.ofList_toList]

theorem lexeme_escaped {l : Lexeme} (h : ∀ raw text, l ≠ .quoted raw text) :
    escaped.lexeme l = l := by
  cases l with
  | quoted raw text => exact absurd rfl (h raw text)
  | blanks _ | breaks _ | comment _ | word _ | expression _ => simp [lexeme]
  | streamStart | streamEnd | expressionEnd | mark _ => rfl

theorem token_escaped_quoted (raw text : String) (line : Nat) :
    escaped.token ⟨.quoted raw text, line⟩ = ⟨.quoted (Text.escape text) text, line⟩ := by
  rw [token, lexeme, text_escaped]
  rfl

end Respelling

open Respelling (escaped)

/-! ## Steps -/

namespace Token

/-- A quoted literal has the line feeds of what it means, one behind a backslash included. -/
theorem lineFeeds_of_quoted? {text : List Char} {span : QuotedSpan} (h : quoted? text = some span) :
    lineFeeds span.raw = lineFeeds span.text := by
  fun_induction quoted? text generalizing span with
  | case1 => simp at h
  | case2 rest =>
    obtain rfl := Option.some.inj h
    rfl
  | case3 => simp at h
  | case4 e rest _ ih =>
    obtain ⟨inner, hi, rfl⟩ := Option.map_eq_some_iff.mp h
    show lineFeeds ('\\' :: e :: inner.raw) = lineFeeds (e :: inner.text)
    rw [lineFeeds_cons_of_ne (by decide), lineFeeds_cons_congr (ih hi)]
  | case5 c rest _ _ ih =>
    obtain ⟨inner, hi, rfl⟩ := Option.map_eq_some_iff.mp h
    exact lineFeeds_cons_congr (ih hi) c

variable {line after : Nat} {c : Char} {rest left left' : List Char} {tokens : List Token}

/-- A step emits a quoted literal, or tokens that have no raw text. -/
theorem quoted_or_map_escaped (h : step line c rest = ⟨tokens, .ok (after, left)⟩) :
    (c = '"' ∧ ∃ span, quoted? rest = some span ∧ after = line + lineFeeds span.raw ∧
      tokens = [⟨.quoted (String.ofList span.raw) (String.ofList span.text), line⟩]) ∨
    tokens.map escaped.token = tokens := by
  have hs := stepCase_step line c rest
  rw [h] at hs
  generalize hstep : (⟨tokens, .ok (after, left)⟩ : Step) = s at hs
  -- A step that emits one token but a quoted literal.
  have hone {l : Lexeme} {next : Nat} {left' : List Char}
      (hstep : (⟨tokens, .ok (after, left)⟩ : Step) = .one l line next left')
      (hl : ∀ raw text, l ≠ .quoted raw text) : tokens.map escaped.token = tokens := by
    obtain ⟨rfl, -, -⟩ := Step.eq_one hstep
    rw [List.map_singleton, Respelling.token, Respelling.lexeme_escaped hl]
  cases hs with
  | breaks hb => exact .inr (hone hstep (by simp))
  | blanks hb hw => exact .inr (hone hstep (by simp))
  | comment => exact .inr (hone hstep (by simp))
  | quoted =>
    unfold quotedStep at hstep
    cases hq : quoted? rest with
    | none => simp [hq] at hstep
    | some span =>
      rw [hq] at hstep
      obtain ⟨rfl, rfl, -⟩ := Step.eq_one hstep
      exact .inl ⟨rfl, span, rfl, rfl, rfl⟩
  | ending => exact .inr (hone hstep (by simp))
  | mark hm he =>
    rcases end_or_mark_of_ofChar? hm with rfl | ⟨m, rfl⟩ <;> exact .inr (hone hstep (by simp))
  | @expression _ _ key ho hk =>
    -- A key, its colon and an expression.
    right
    unfold expressionStep at hstep
    cases he : expression? (rest.drop key.length) with
    | none => simp [he] at hstep
    | some span =>
      rw [he] at hstep
      simp only [Step.mk.injEq] at hstep
      rw [hstep.1]
      simp [Respelling.token, Respelling.lexeme]
  | word ho hk => exact .inr (hone hstep (by simp))

theorem toList_source_quoted (raw text : String) :
    (Lexeme.quoted raw text).source.toList = '"' :: (raw.toList ++ ['"']) := by
  simp [Lexeme.source]

theorem SameFront.quote (rest rest' : List Char) : SameFront ('"' :: rest) ('"' :: rest') :=
  ⟨rfl, rfl, rfl, by simp [startsExpressionEnd]⟩

/-- The source of the escaped tokens of a step is taken by the same step. -/
theorem stepsTo_escaped (h : step line c rest = ⟨tokens, .ok (after, left)⟩)
    (hl : SameFront left left') :
    StepsTo line ((sourceAll (tokens.map escaped.token)).toList ++ left')
      ⟨tokens.map escaped.token, .ok (after, left')⟩ := by
  rcases quoted_or_map_escaped h with ⟨-, span, hq, rfl, rfl⟩ | hsame
  · have hquoted := quoted?_escapeChars span.text left'
    have hescape : Text.escape (String.ofList span.text) =
        String.ofList (Text.escapeChars span.text) := by
      rw [Text.escape, String.toList_ofList]
    rw [List.map_singleton, Respelling.token_escaped_quoted, hescape, toList_sourceAll_singleton,
      toList_source_quoted, String.toList_ofList]
    refine ⟨'"', Text.escapeChars span.text ++ '"' :: left', ?_, ?_⟩
    · simp
    · -- The step comes to the same line, since both forms have the same line feeds.
      rw [step_quote, quotedStep, hquoted]
      show Step.one _ line (line + lineFeeds (Text.escapeChars span.text)) left' = _
      rw [lineFeeds_escapeChars, ← lineFeeds_of_quoted? hq]
      rfl
  · rw [hsame]
    exact stepsTo_sourceAll h hl

/-- Before a step, a text looks the same as the source of the escaped tokens. -/
theorem sameFront_escaped (h : step line c rest = ⟨tokens, .ok (after, left)⟩)
    (hl : SameFront left left') :
    SameFront (c :: rest) ((sourceAll (tokens.map escaped.token)).toList ++ left') := by
  rcases quoted_or_map_escaped h with ⟨rfl, span, hq, rfl, rfl⟩ | hsame
  · -- Whatever stands in it, a quoted literal begins with its quote.
    rw [List.map_singleton, Respelling.token_escaped_quoted, toList_sourceAll_singleton,
      toList_source_quoted]
    exact .quote rest _
  · obtain ⟨taken, htext, hsource⟩ := exists_taken h
    rw [hsame, hsource]
    exact .of_step h htext hl

/-! ## Scans -/

/-- The source of the escaped tokens of a scan is scanned as these tokens. -/
theorem GoesThrough.ofChars_escaped {text : List Char} (h : GoesThrough line text) :
    SameFront text (sourceAll ((Scan.ofChars line text).tokens.map escaped.token)).toList ∧
      Scan.ofChars line (sourceAll ((Scan.ofChars line text).tokens.map escaped.token)).toList =
        ⟨(Scan.ofChars line text).tokens.map escaped.token, none⟩ := by
  -- The scan goes on into the source of what it emits later, which looks the same to each step.
  induction h with
  | nil line =>
    rw [Scan.ofChars]
    exact ⟨⟨rfl, rfl, rfl, id⟩, Scan.ofChars.eq_1 line⟩
  | step hs htext hsource more ih =>
    obtain ⟨hfront, hscan⟩ := ih
    rw [ofChars_of_step hs, Scan.after, List.map_append, sourceAll_append, String.toList_append,
      (stepsTo_escaped hs hfront).ofChars, hscan]
    exact ⟨sameFront_escaped hs hfront, rfl⟩

end Token

/-- A source in which every raw text is replaced by the escaped form of its meaning has the same
tokens but for the raw texts. -/
theorem tokenize_escaped {source : String} {tokens : List Token}
    (h : tokenize source = .ok tokens) :
    tokenize (Token.sourceAll (tokens.map escaped.token)) = .ok (tokens.map escaped.token) := by
  obtain ⟨herror, rfl⟩ := Token.tokenize_eq_ok_iff.mp h
  obtain ⟨-, hscan⟩ := (Token.goesThrough_of_error? herror).ofChars_escaped
  have hstart : Token.sourceAll ((⟨.streamStart, 1⟩ :: (Scan.ofChars 1 source.toList).tokens).map
      escaped.token) =
        Token.sourceAll ((Scan.ofChars 1 source.toList).tokens.map escaped.token) := by
    rw [List.map_cons, Token.sourceAll_cons]
    exact String.empty_append
  rw [hstart, Token.tokenize_eq_ok_iff, hscan]
  exact ⟨rfl, rfl⟩

/-! ## Documents -/

/-- A leaf with the escaped form of its value for a raw text, if it is a quoted literal. -/
def Leaf.escapeRaw (leaf : Leaf) : Leaf :=
  if leaf.isQuoted then { leaf with form := .quoted (some (Text.escape leaf.value)) } else leaf

theorem Leaf.leaf_escaped {leaf : Leaf} (h : leaf.form ≠ .quoted none) :
    escaped.leaf leaf = leaf.escapeRaw := by
  obtain ⟨form, value, before, after, line?⟩ := leaf
  rcases form with _ | (_ | raw) | _ | _
  case quoted.none => exact absurd rfl h
  all_goals simp [Respelling.leaf, Respelling.form, escapeRaw, isQuoted]
  rfl

theorem Edit.value_unrawLeaf (leaf : Leaf) : (unrawLeaf leaf).value = leaf.value := by
  unfold unrawLeaf
  split <;> rfl

/-- A literal without a raw text is written as its escaped form. -/
theorem printAlike_unraw : PrintAlike Edit.unrawLeaf Leaf.escapeRaw := by
  intro leaf
  obtain ⟨form, value, before, after, line?⟩ := leaf
  cases form <;> rfl

/-- The leaves of a parsed document are respelled as its tokens are: each quoted literal has a raw
text to replace. -/
theorem document_escaped_of_parse {source : String} {d : Document} (h : parse source = .ok d) :
    escaped.document d = { d with container := d.container.map Leaf.escapeRaw } := by
  obtain ⟨-, hwalk⟩ := allWellMade_of_parse h
  obtain ⟨before, run, after, last, -, -, -, -, hcovers, -⟩ := leaves_of_parse h
  have hagree : ∀ part ∈ d.container.walk, part.Agrees escaped.leaf Leaf.escapeRaw := by
    intro part hpart
    cases part with
    | leaf leaf =>
      have hmem : leaf ∈ d.leaves :=
        List.mem_filterMap.mpr ⟨.leaf leaf, List.mem_cons_of_mem _ hpart, rfl⟩
      obtain ⟨tokens, -, hread⟩ := hcovers.exists_readFrom hmem
      exact Leaf.leaf_escaped hread.form_ne
    | listing list =>
      -- A parsed list has no comma that its walk passes over.
      have hlist : .listing list ∈ Item.walkAll d.container.items := by
        obtain ⟨⟨items, topLevel⟩, _, _⟩ := d
        simpa [Container.walk] using hpart
      exact (hwalk _ hlist).separators
    | _ => trivial
  rw [Respelling.document, Container.map_congr hagree, Respelling.text_escaped,
    Respelling.text_escaped]

/-- The tokens of a parsed source are what its document prints. -/
theorem sourceAll_of_parse {source : String} {tokens : List Token} {d : Document}
    (h : parse source = .ok d) (ht : tokenize source = .ok tokens) :
    Token.sourceAll tokens = d.print := by
  obtain ⟨body, last, hbody, -, hprint, -⟩ := body_of_parse h
  obtain rfl := Except.ok.inj (ht.symm.trans hbody)
  rw [← hprint]
  simp [Token.sourceAll, Token.source, Lexeme.source]

/-- The source of the escaped tokens of a parsed source is parsed as the respelled document. -/
theorem parse_escaped {source : String} {tokens : List Token} {d : Document}
    (h : parse source = .ok d) (ht : tokenize source = .ok tokens) :
    parse (Token.sourceAll (tokens.map escaped.token)) = .ok (escaped.document d) := by
  rw [parse_eq, ht] at h
  rw [parse_eq, tokenize_escaped ht]
  have halike := parseTokens_respell escaped tokens
  dsimp only at h ⊢
  rw [h] at halike
  generalize (parseTokens (tokens.map escaped.token)).1 = result at halike ⊢
  cases halike with
  | ok => rfl

/-- A parsed document reads back after all raw texts are dropped.  It is printed with every quoted
literal escaped, and this is parsed as the same document but for the raw texts, which are the
escaped forms of the values. -/
theorem parse_print_unraw {source : String} {d : Document} (h : parse source = .ok d) :
    ∃ d', d.mapLeaves Edit.unrawLeaf = .ok d' ∧ ({ dropRaw := true } : Edit).apply d = .ok d' ∧
      parse d'.print = .ok { d with container := d.container.map Leaf.escapeRaw } := by
  have hpass := allPass_of_parse h Edit.value_unrawLeaf
  refine ⟨{ d with container := d.container.map Edit.unrawLeaf },
    Document.mapLeaves_eq_ok hpass, Edit.apply_dropRaw_eq_ok hpass, ?_⟩
  obtain ⟨body, last, ht, -⟩ := body_of_parse h
  have hdocument := document_escaped_of_parse h
  have hparse := parse_escaped h ht
  have hsource := sourceAll_of_parse hparse (tokenize_escaped ht)
  rw [hsource, hdocument] at hparse
  -- What is parsed here is what the document prints without its raw texts.
  have hprint : Document.print { d with container := d.container.map Edit.unrawLeaf } =
      Document.print { d with container := d.container.map Leaf.escapeRaw } := by
    simp only [Document.print, printAlike_unraw.container]
  rw [hprint]
  exact hparse

/-- Backslashes before a quote, a backslash, a letter and a line feed, and an expression that holds
quotes. -/
def Samples.escapes : String :=
  "a: \"\\\"\\\\\\n\\\n\" sql: \"\\\";;"

theorem parse_print_unraw_escapes : ∃ d d', parse Samples.escapes = .ok d ∧
    d.mapLeaves Edit.unrawLeaf = .ok d' ∧ d'.print = "a: \"\\\"\\\\n\n\" sql: \"\\\";;" ∧
    parse d'.print = .ok { d with container := d.container.map Leaf.escapeRaw } := by
  have hok : (parse Samples.escapes).toOption.bind
      (fun d => (d.mapLeaves Edit.unrawLeaf).toOption.map Document.print) =
        some "a: \"\\\"\\\\n\n\" sql: \"\\\";;" := by
    decide +kernel
  cases hd : parse Samples.escapes with
  | error e => simp [hd, Except.toOption] at hok
  | ok d =>
    obtain ⟨d', hd', -, hparse⟩ := parse_print_unraw hd
    have hprint : d'.print = "a: \"\\\"\\\\n\n\" sql: \"\\\";;" := by
      simpa [hd, hd', Except.toOption] using hok
    exact ⟨d, d', rfl, hd', hprint, hparse⟩

end LookML
