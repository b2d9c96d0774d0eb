import LookML.Proofs.Build.Stripped
import LookML.Proofs.Parser.Decision
import LookML.Proofs.Parser.Parts
import LookML.Proofs.Scan.Seams
import LookML.Proofs.Syntax.Recovery

/-!
# Concatenation — two sources that parse make one with a line break between them

What a parse gives is settled by the tokens that are no trivia: their lexemes derive its phrases and
they are its leaves, but for what stands around these.  The tokens of two sources with a line break
between them are those of the first and then those of the second, further down.  So the whole has
the items of both, one after the other (`parse_append`).
-/

namespace LookML

open Token (lineFeeds)

/-! ## Derivations -/

namespace Phrase

theorem lexemesAll_append (ps qs : List Phrase) :
    lexemesAll (ps ++ qs) = lexemesAll ps ++ lexemesAll qs := by
  induction ps with
  | nil => rfl
  | cons p ps ih => rw [List.cons_append, lexemesAll, lexemesAll, ih, List.append_assoc]

/-- No container holds both the items of two rows, so none repeats a key because they meet. -/
theorem anyRepeat_append {ps qs : List Phrase} :
    AnyRepeat (ps ++ qs) ↔ AnyRepeat ps ∨ AnyRepeat qs := by
  induction ps with
  | nil => simp [AnyRepeat]
  | cons p ps ih => rw [List.cons_append, AnyRepeat, AnyRepeat, ih, or_assoc]

end Phrase

/-- A document that is parsed repeats no key below its root. -/
theorem not_anyRepeat_of_parse {source : String} {d : Document} (h : parse source = .ok d) :
    ¬ Phrase.AnyRepeat d.phrases := by
  intro hr
  obtain ⟨body, last, ht, hspells, -, hsig⟩ := body_of_parse h
  obtain ⟨e, he⟩ := (parseTokens_of_derivation 1 last hspells hsig.symm).1 hr
  rw [parse_eq, ht] at h
  simp [he] at h

/-! ## Shapes -/

namespace Parser

open Production

variable {p q : Parser}

theorem entries_ne_of_listing {list : Listing} (h : listing p = .matched list q) :
    list.entries ≠ .pairs [] := by
  obtain ⟨q, hb, -⟩ := attempt_eq_matched h
  simp only [bind_eq_matched, pure_apply, Reply.matched.injEq] at hb
  obtain ⟨kc, p₁, -, before, p₂, -, line, p₃, -, leading?, p₄, -, v, p₅, hv, closing, p₆, -, rfl,
    -⟩ := hb
  obtain ⟨rfl, -⟩ | ⟨first, p₁, -, hmore⟩ | ⟨first, p₁, -, hmore⟩ := listValues_eq_matched hv
  · simp
  -- Entries that are read are those that follow the first one.
  all_goals
    obtain ⟨more, -, he, -⟩ := entriesFrom_eq_matched hmore
    simp [he]

theorem makes_entries : Makes (fun _ => True) fun part =>
    ∀ list, part = .listing list → list.entries ≠ .pairs [] where
  left _ := trivial
  plain _ hl _ := by
    rintro list rfl
    simp [Part.isListing] at hl
  pair _ _ := by simp
  block _ _ := by simp
  listing _ h := by
    rintro list ⟨⟩
    exact entries_ne_of_listing h

end Parser

/-- The parts of a parsed document are in shape, but for its root. -/
theorem allShaped_of_parse {source : String} {d : Document} (h : parse source = .ok d) :
    Part.AllShaped (Item.walkAll d.container.items) := by
  intro part hpart
  have hmade := (allWellMade_of_parse h).2 part hpart
  cases part with
  | container c => exact hmade.1
  | listing list =>
    have hwalk : .listing list ∈ d.walk := by
      rw [d.walk_eq]
      exact .tail _ (.tail _ hpart)
    have hentries := forall_part_of_parse Parser.makes_entries (fun _ _ => trivial) h _ hwalk
    exact ⟨hmade.separators, hmade.trailing, hentries list rfl⟩
  | _ => trivial

/-! ## Leaves -/

/-- A leaf that stands `n` lines further down. -/
def Leaf.shift (n : Nat) (leaf : Leaf) : Leaf :=
  { leaf with line? := leaf.line?.map (· + n) }

theorem Leaf.ofToken?_shift (n : Nat) (t : Token) :
    ofToken? (t.shift n) = (ofToken? t).map (shift n) := by
  obtain ⟨lexeme, line⟩ := t
  cases lexeme <;> rfl

theorem Leaf.filterMap_ofToken?_shift (n : Nat) (tokens : List Token) :
    (tokens.map (Token.shift n)).filterMap ofToken? =
      (tokens.filterMap ofToken?).map (shift n) := by
  rw [List.filterMap_map, List.map_filterMap]
  exact List.filterMap_congr fun t _ => ofToken?_shift n t

/-- Trivia makes no leaves. -/
theorem Leaf.filterMap_seen (tokens : List Token) :
    (Token.seen tokens).filterMap ofToken? = tokens.filterMap ofToken? := by
  rw [Token.seen, List.filterMap_filter]
  refine List.filterMap_congr fun t _ => ?_
  cases ht : t.isTrivia with
  | true => rw [ofToken?_of_isTrivia ht]; rfl
  | false => rfl

/-! ## Concatenation -/

/-- The tokens that a document is read from, between the ends of the stream: the stream ends on the
line behind all line feeds of the source, and the tokens but for trivia derive the phrases of the
document and are its leaves. -/
structure Document.ReadFrom (d : Document) (source : String) (body : List Token) : Prop where
  tokens : tokenize source =
    .ok (⟨.streamStart, 1⟩ :: (body ++ [⟨.streamEnd, 1 + lineFeeds source.toList⟩]))
  sentence : Token.significant body = Phrase.lexemesAll d.phrases
  leaves : d.leaves.map Leaf.stripped = (Token.seen body).filterMap Leaf.ofToken?

theorem readFrom_of_parse {source : String} {d : Document} (h : parse source = .ok d) :
    ∃ body, d.ReadFrom source body := by
  obtain ⟨before, run, after, last, ht, hsource, hbefore, -, hcovers, hafter, -⟩ :=
    leaves_of_parse h
  obtain ⟨body, last', ht', -, -, hsig⟩ := body_of_parse h
  rw [← List.append_assoc, ← List.append_assoc, ht', Except.ok.injEq] at ht
  rw [← List.append_assoc] at hsource
  obtain ⟨rfl, -⟩ := Token.stream_inj ht
  have hlast : last' = 1 + lineFeeds source.toList := by
    -- The end of the stream is on the line that the tokens before it reach.
    obtain ⟨-, hlines⟩ := Token.linesFrom_of_tokenize ht'
    have hend := (Token.linesFrom_append.mp hlines).2.1
    rw [Token.lineAfter, hsource] at hend
    exact hend
  refine ⟨_, hlast ▸ ht', hsig, ?_⟩
  rw [Leaf.filterMap_seen, List.filterMap_append, List.filterMap_append,
    Leaf.filterMap_ofToken?_eq_nil hbefore, Leaf.filterMap_ofToken?_eq_nil hafter,
    hcovers.filterMap_ofToken?, List.nil_append, List.append_nil]
  rfl

/-- Tokens that derive phrases without a repeated key are parsed as these. -/
theorem parse_of_sentence {source : String} {body : List Token} {last : Nat} {ps : List Phrase}
    (ht : tokenize source = .ok (⟨.streamStart, 1⟩ :: (body ++ [⟨.streamEnd, last⟩])))
    (hps : Token.significant body = Phrase.lexemesAll ps) (hr : ¬ Phrase.AnyRepeat ps) :
    ∃ d, parse source = .ok d ∧ d.phrases = ps := by
  obtain ⟨body', last', hstream, hspells⟩ := Token.tokenize_eq_ok ht
  obtain ⟨rfl, -⟩ := Token.stream_inj hstream
  exact parse_of_derivation ht (hps.symm.trans hspells.sentence_eq.symm) hr

/-- Two sources that parse make one with a line break between them: its items are those of the
first and then those of the second, but for trivia, and the lines of the second go on behind those
of the first. -/
theorem parse_append {s t : String} {d e : Document} (hs : parse s = .ok d)
    (ht : parse t = .ok e) : ∃ g, parse (s ++ "\n" ++ t) = .ok g ∧
      g.container.items.map (Item.map Leaf.stripped) =
        d.container.items.map (Item.map Leaf.stripped) ++
          e.container.items.map
            (Item.map fun leaf => (leaf.shift (lineFeeds (s ++ "\n").toList)).stripped) := by
  obtain ⟨body, hd⟩ := readFrom_of_parse hs
  obtain ⟨next, he⟩ := readFrom_of_parse ht
  obtain ⟨whole, hwhole, hseen⟩ := tokenize_append hd.tokens he.tokens
  have hsentence : Token.significant whole = Phrase.lexemesAll (d.phrases ++ e.phrases) := by
    rw [Phrase.lexemesAll_append, ← hd.sentence, ← he.sentence, ← Token.map_lexeme_seen, hseen,
      List.map_append, List.map_map, Token.map_lexeme_seen, ← Token.map_lexeme_seen next]
    rfl
  -- Only the root holds items of both, and it may repeat a key.
  have hkeys : ¬ Phrase.AnyRepeat (d.phrases ++ e.phrases) := by
    rw [Phrase.anyRepeat_append, not_or]
    exact ⟨not_anyRepeat_of_parse hs, not_anyRepeat_of_parse ht⟩
  obtain ⟨g, hg, hphrases⟩ := parse_of_sentence hwhole hsentence hkeys
  obtain ⟨whole', hg'⟩ := readFrom_of_parse hg
  obtain ⟨rfl, -⟩ := Token.stream_inj (Except.ok.inj (hg'.tokens.symm.trans hwhole))
  have hlines : 1 + lineFeeds s.toList = lineFeeds (s ++ "\n").toList := by
    rw [String.toList_append, Token.lineFeeds_append, Nat.add_comm]
    rfl
  -- The leaves of the whole are those of both, as the tokens that make them are.
  have hleaves : g.leaves.map Leaf.stripped = d.leaves.map Leaf.stripped ++
      e.leaves.map fun leaf => (leaf.shift (lineFeeds (s ++ "\n").toList)).stripped := by
    rw [hg'.leaves, hseen, List.filterMap_append, Leaf.filterMap_ofToken?_shift, ← hd.leaves,
      ← he.leaves, List.map_map, hlines]
    rfl
  rw [d.phrases_eq, e.phrases_eq, g.phrases_eq] at hphrases
  rw [d.leaves_eq, e.leaves_eq, g.leaves_eq] at hleaves
  exact ⟨g, hg, Item.map_eq_append hphrases (allShaped_of_parse hg) (allShaped_of_parse hs)
    (allShaped_of_parse ht) hleaves⟩

/-- A source whose last pair could go on as a block.  The carriage return that ends its comment
joins a line feed that follows. -/
def Samples.front : String :=
  "view: v \x7b sql: a ;; f: [x, y] \x7d g: h # c\r"

def Samples.back : String :=
  " hidden: yes\nview: w \x7b\x7d"

theorem parse_append_seam : ∃ d e g, parse Samples.front = .ok d ∧ parse Samples.back = .ok e ∧
    parse (Samples.front ++ "\n" ++ Samples.back) = .ok g ∧
    g.container.items.map (Item.map Leaf.stripped) =
      d.container.items.map (Item.map Leaf.stripped) ++
        e.container.items.map (Item.map fun leaf => (leaf.shift 1).stripped) ∧
    g.container.items.map (fun item => (item.key, item.line?)) =
      [("view", some 1), ("g", some 1), ("hidden", some 2), ("view", some 3)] := by
  have hs : (parse Samples.front).isOk = true := by decide +kernel
  have ht : (parse Samples.back).isOk = true := by decide +kernel
  have hlines : (parse (Samples.front ++ "\n" ++ Samples.back)).toOption.map
      (fun d => d.container.items.map fun item => (item.key, item.line?)) =
        some [("view", some 1), ("g", some 1), ("hidden", some 2), ("view", some 3)] := by
    decide +kernel
  obtain ⟨d, hd⟩ := exists_of_isOk hs
  obtain ⟨e, he⟩ := exists_of_isOk ht
  obtain ⟨g, hg, hitems⟩ := parse_append hd he
  rw [hg] at hlines
  exact ⟨d, e, g, hd, he, hg, hitems, Option.some.inj hlines⟩

end LookML
