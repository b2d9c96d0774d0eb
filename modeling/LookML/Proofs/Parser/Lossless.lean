import LookML.Parse
import LookML.Proofs.Parser.Consumption

/-!
# Losslessness — a parsed document prints as its source

A document is made of all tokens of its source between the start and the end of the stream
(`reads_of_document`), and without trivia these derive its phrases.  In phrases each expression
has its end and no end stands alone, so no lone `;` is among the tokens and their source is the
text they were scanned from.
-/

namespace LookML

/-! ## Sentences are paired -/

theorem Lexeme.Paired.append {a b : List Lexeme} (ha : Paired a) (hb : Paired b) :
    Paired (a ++ b) := by
  fun_induction Paired a with
  | case1 => exact hb
  | case2 _ rest ih => exact ih ha
  | case3 | case4 | case5 | case6 => exact ha.elim
  | case7 l rest _ _ _ _ _ ih => cases l <;> simp_all [Paired]

theorem Lexeme.paired_key (key : String) : Paired (Lexeme.key key) := trivial

theorem Lexeme.paired_markIf (m : Mark) (present : Bool) : Paired (markIf m present) := by
  cases present <;> trivial

theorem Scalar.paired (s : Scalar) : Lexeme.Paired [s.lexeme] := by
  cases s <;> trivial

theorem Datum.paired (d : Datum) : Lexeme.Paired d.lexemes := by
  cases d with
  | scalar s => exact s.paired
  | expression text => trivial

namespace Row

theorem paired_pairLexemes (pair : String × Scalar) : Lexeme.Paired (pairLexemes pair) :=
  (Lexeme.paired_key pair.1).append pair.2.paired

theorem paired_behindCommas {α : Type} {code : α → List Lexeme}
    (h : ∀ entry, Lexeme.Paired (code entry)) (entries : List α) :
    Lexeme.Paired (behindCommas code entries) := by
  induction entries with
  | nil => trivial
  | cons entry entries ih =>
    exact Lexeme.Paired.append (a := .mark .comma :: code entry) (h entry) ih

theorem paired (row : Row) : Lexeme.Paired row.lexemes := by
  cases row with
  | values first more => exact first.paired.append (paired_behindCommas Scalar.paired more)
  | pairs first more =>
    exact (paired_pairLexemes first).append (paired_behindCommas paired_pairLexemes more)

theorem paired_lexemes? (row? : Option (Row × Bool)) : Lexeme.Paired (lexemes? row?) := by
  cases row? with
  | none => trivial
  | some row => exact row.1.paired.append (Lexeme.paired_markIf _ _)

end Row

namespace Phrase

mutual

/-- In the lexemes of an item, ends stand after expressions only. -/
theorem paired : ∀ p : Phrase, Lexeme.Paired p.lexemes
  | .pair key value => (Lexeme.paired_key key).append value.paired
  | .listing key leading row? =>
    have hrow := (Lexeme.paired_markIf .comma leading).append (Row.paired_lexemes? row?)
    (Lexeme.paired_key key).append (b := .mark .bracketOpen :: _) (hrow.append trivial)
  | .block key name? items => by
    have hname : Lexeme.Paired (Lexeme.key key ++ name?.toList.map .word) := by
      cases name? <;> trivial
    exact hname.append (b := .mark .braceOpen :: _) ((pairedAll items).append trivial)

theorem pairedAll : ∀ ps : List Phrase, Lexeme.Paired (lexemesAll ps)
  | [] => trivial
  | p :: ps => p.paired.append (pairedAll ps)

end

end Phrase

/-! ## The whole stream -/

namespace Parser

open Production

variable {p q : Parser}

theorem nothingLeft_eq_matched {u : Unit} (h : nothingLeft p = .matched u q) :
    (∀ t ∈ p.rest.head?, t.lexeme = .streamEnd) ∧ q = p := by
  obtain ⟨token?, p₁, h₁, h₂⟩ := bind_eq_matched.mp h
  obtain ⟨rfl, rfl⟩ := Reply.matched.inj h₁
  rw [← peek?_eq_head?]
  cases hp : p.peek? with
  | none =>
    rw [hp] at h₂
    exact ⟨by simp, (Reply.matched.inj h₂).2.symm⟩
  | some t =>
    rw [hp] at h₂
    by_cases he : t.lexeme = .streamEnd
    · simp only [he, ne_eq, not_true_eq_false, if_false] at h₂
      exact ⟨by simpa using he, (Reply.matched.inj h₂).2.symm⟩
    · simp [he, failAt] at h₂

theorem streamStart_of_rest {line : Nat} {tokens : List Token}
    (h : p.rest = ⟨.streamStart, line⟩ :: tokens) : streamStart p = .matched () (p.seek 1) := by
  rw [streamStart, take, peek?_of_rest h]
  rfl

/-- A document is read as trivia, a container and trivia, after the start of the stream and before
its end. -/
theorem document_eq_matched {d : Document} {line : Nat} {tokens : List Token}
    (hp : p.rest = ⟨.streamStart, line⟩ :: tokens) (h : document p = .matched d q) :
    ∃ p₁ p₂ p₃ p₄, p₁.rest = tokens ∧ Kept p p₁ ∧ trivia p₁ = .matched d.before p₂ ∧
      container p₂ = .matched d.container p₃ ∧ trivia p₃ = .matched d.after p₄ ∧
      q.rest = p₄.rest ∧ ∀ t ∈ q.rest.head?, t.lexeme = .streamEnd := by
  unfold document at h
  simp only [bind_eq_matched, pure_apply, Reply.matched.injEq] at h
  obtain ⟨n, p₁, h₁, u, p₂, h₂, s?, p₃, h₃, before, p₄, h₄, c, p₅, h₅, after, p₆, h₆, u', p₇, h₇,
    u'', p₈, h₈, rfl, rfl⟩ := h
  obtain ⟨-, rfl⟩ := Reply.matched.inj h₁
  obtain ⟨-, rfl⟩ := Reply.matched.inj h₂
  obtain ⟨-, rfl⟩ := Reply.matched.inj h₈
  obtain ⟨hend, rfl⟩ := nothingLeft_eq_matched h₇
  have hnote : (p.note (.started n)).rest = ⟨.streamStart, line⟩ :: tokens := hp
  rw [Production.optional, streamStart_of_rest hnote] at h₃
  obtain ⟨-, rfl⟩ := Reply.matched.inj h₃
  exact ⟨_, p₄, p₅, p₇, rest_seek_one hnote, .seek (p.note (.started n)) 1, h₄, h₅, h₆, rfl, hend⟩

/-- A document is made of all tokens after the start of the stream and before its end. -/
theorem reads_of_document {d : Document} {line : Nat} {tokens : List Token}
    (hp : p.rest = ⟨.streamStart, line⟩ :: tokens) (h : document p = .matched d q) :
    Reads tokens d.print (Phrase.lexemesAll d.phrases) q.rest ∧
      ∀ t ∈ q.rest.head?, t.lexeme = .streamEnd := by
  obtain ⟨p₁, p₂, p₃, p₄, rfl, -, h₁, h₂, h₃, hq, hend⟩ := document_eq_matched hp h
  have hr := ((reads_of_trivia h₁).trans (readsContainers_container h₂)).trans (reads_of_trivia h₃)
  rw [List.nil_append, List.append_nil, ← hq] at hr
  exact ⟨hr, hend⟩

end Parser

/-! ## Parsing a source -/

/-- A source is parsed by its tokens. -/
theorem parse_eq (source : String) :
    parse source = match tokenize source with
      | .ok tokens => (parseTokens tokens).1
      | .error e => .error (.lexical e) := by
  unfold parse parseLogged tokenize Scan.result
  dsimp only
  cases (scan source).error? <;> rfl

theorem parseTokens_eq_ok {tokens : List Token} {d : Document}
    (h : (parseTokens tokens).1 = .ok d) :
    ∃ q, Parser.document (.ofTokens tokens) = .matched d q := by
  unfold parseTokens at h
  split at h
  · rename_i document next hd
    obtain rfl := Except.ok.inj h
    exact ⟨next, hd⟩
  · simp at h
  · simp at h

theorem Parser.rest_ofTokens (tokens : List Token) : (ofTokens tokens).rest = tokens := by
  simp [ofTokens, rest]

/-- A source that parses is read as its document up to the end of the stream. -/
theorem document_of_parse {source : String} {d : Document} (h : parse source = .ok d) :
    ∃ body last q, tokenize source = .ok (⟨.streamStart, 1⟩ :: (body ++ [⟨.streamEnd, last⟩])) ∧
      Token.Spells body source.toList ∧
      Parser.document (.ofTokens (⟨.streamStart, 1⟩ :: (body ++ [⟨.streamEnd, last⟩]))) =
        .matched d q ∧ q.rest = [⟨.streamEnd, last⟩] := by
  rw [parse_eq] at h
  cases ht : tokenize source with
  | error e => simp [ht] at h
  | ok tokens =>
    rw [ht] at h
    obtain ⟨q, hq⟩ := parseTokens_eq_ok h
    obtain ⟨body, last, rfl, hs⟩ := Token.tokenize_eq_ok ht
    obtain ⟨⟨taken, hsplit, -, hsig⟩, hend⟩ :=
      Parser.reads_of_document (Parser.rest_ofTokens _) hq
    refine ⟨body, last, q, rfl, hs, hq, ?_⟩
    -- The document takes the whole body: it stops at the end of the stream.
    cases hrest : q.rest with
    | nil =>
      -- The end of the stream would be among the lexemes of the phrases.
      rw [hrest, List.append_nil] at hsplit
      refine absurd ?_ (Phrase.pairedAll d.phrases).streamEnd_notMem
      rw [← hsig, ← hsplit, Token.significant_append]
      exact List.mem_append_right _ (by simp [Token.significant, Lexeme.isTrivia])
    | cons t more =>
      rw [hrest] at hsplit hend
      have hte : t.lexeme = .streamEnd := hend t rfl
      rcases List.append_eq_append_iff.mp hsplit with ⟨x, rfl, hx⟩ | ⟨x, rfl, hx⟩
      · cases x with
        | nil => exact hx.symm
        | cons y x => simp at hx
      · cases x with
        | nil => exact hx
        | cons y x =>
          obtain ⟨rfl, -⟩ := List.cons.inj hx
          exact absurd hte (hs.not_stream t (by simp)).2

/-- What a source that parses is made of: between the start and the end of the stream, its tokens
spell it, print as its document and derive the phrases of its document. -/
theorem body_of_parse {source : String} {d : Document} (h : parse source = .ok d) :
    ∃ body last, tokenize source = .ok (⟨.streamStart, 1⟩ :: (body ++ [⟨.streamEnd, last⟩])) ∧
      Token.Spells body source.toList ∧ Token.sourceAll body = d.print ∧
      Token.significant body = Phrase.lexemesAll d.phrases := by
  obtain ⟨body, last, q, ht, hs, hq, hrest⟩ := document_of_parse h
  obtain ⟨⟨taken, hsplit, hsource, hsig⟩, -⟩ :=
    Parser.reads_of_document (Parser.rest_ofTokens _) hq
  rw [hrest] at hsplit
  obtain rfl := List.append_cancel_right hsplit
  exact ⟨body, last, ht, hs, hsource, hsig⟩

/-- Tokens that derive phrases are spelled exactly. -/
theorem toList_sourceAll_of_phrases {body : List Token} {text : List Char} {phrases : List Phrase}
    (h : Token.Spells body text) (hsig : Token.significant body = Phrase.lexemesAll phrases) :
    (Token.sourceAll body).toList = text := by
  have hpaired : Lexeme.Paired (Token.significant body ++ []) := by
    rw [hsig, List.append_nil]
    exact Phrase.pairedAll phrases
  exact h.toList_sourceAll hpaired

/-- Printing a parsed document gives back its source, character for character. -/
theorem print_of_parse {source : String} {d : Document} (h : parse source = .ok d) :
    d.print = source := by
  obtain ⟨body, last, -, hspells, hsource, hsig⟩ := body_of_parse h
  rw [← hsource]
  exact String.toList_inj.mp (toList_sourceAll_of_phrases hspells hsig)

/-- A comment, both kinds of line break, a lone carriage return, an unnamed block, escapes, a NUL
in an expression, and a list with a comma at either end. -/
def Samples.mixed : String :=
  "# c\r\nview: v \x7b\r link: \x7b\n url: \"a\\\"b\" \x7d\n sql: a\x00;;\n f: [, x, y ,]\n\x7d\n"

theorem print_of_parse_mixed :
    ∃ d, parse Samples.mixed = .ok d ∧ d.print = Samples.mixed := by
  have hok : (parse Samples.mixed).isOk = true := by decide +kernel
  cases hd : parse Samples.mixed with
  | ok d => exact ⟨d, rfl, print_of_parse hd⟩
  | error e => simp [hd, Except.isOk, Except.toBool] at hok

end LookML
