import LookML.Proofs.Grammar.Phrase
import LookML.Proofs.Parser.Rules
import LookML.Proofs.Scan.Spelling
import LookML.Syntax.Print

/-!
# Consumption — a production reads what it prints

Where a production matches, the tokens that it has moved past are those of its value: their source
is the printed value, and without trivia they are the lexemes of its phrase.  This holds over any
tokens, whether or not a scan made them.
-/

namespace LookML

/-! ## Reading -/

/-- The tokens `before` begin with a run whose source is `text` and whose lexemes without trivia
are `lexemes`, and `after` follows it. -/
def Reads (before : List Token) (text : String) (lexemes : List Lexeme) (after : List Token) :
    Prop :=
  ∃ taken, before = taken ++ after ∧ Token.sourceAll taken = text ∧
    Token.significant taken = lexemes

namespace Reads

variable {a b c : List Token} {s t : String} {l m : List Lexeme}

theorem refl (a : List Token) : Reads a "" [] a :=
  ⟨[], rfl, rfl, rfl⟩

theorem trans (h : Reads a s l b) (h' : Reads b t m c) : Reads a (s ++ t) (l ++ m) c := by
  obtain ⟨x, rfl, rfl, rfl⟩ := h
  obtain ⟨y, rfl, rfl, rfl⟩ := h'
  exact ⟨x ++ y, by rw [List.append_assoc], Token.sourceAll_append x y,
    Token.significant_append x y⟩

theorem single {t : Token} (h : t.isTrivia = false) (rest : List Token) :
    Reads (t :: rest) t.source [t.lexeme] rest :=
  ⟨[t], rfl, by simp [Token.sourceAll], Token.significant_cons_of_not_trivia h []⟩

/-- Reading takes its lexemes off the front of those to come. -/
theorem significant_eq (h : Reads a s l b) : Token.significant a = l ++ Token.significant b := by
  obtain ⟨x, rfl, -, rfl⟩ := h
  exact Token.significant_append x b

theorem length_le (h : Reads a s l b) : b.length + l.length ≤ a.length := by
  obtain ⟨x, rfl, -, rfl⟩ := h
  have : (Token.significant x).length ≤ x.length := by
    simpa [Token.significant] using List.length_filter_le (!·.isTrivia) (x.map Token.lexeme)
  rw [List.length_append]
  omega

end Reads

namespace Parser

open Production

variable {p q r : Parser}

/-! ## Single tokens and trivia -/

theorem reads_readTrivia (onlyLines : Bool) (p : Parser) :
    Reads p.rest (p.readTrivia onlyLines).1 [] (p.readTrivia onlyLines).2.rest := by
  have hrun := run_eq_takeWhile (keepsTrivia onlyLines) p
  refine ⟨p.run (keepsTrivia onlyLines), ?_, rfl, Token.significant_eq_nil fun t ht => ?_⟩
  · rw [readTrivia, rest_seek, hrun]
    exact (List.prefix_iff_eq_append.mp (List.takeWhile_prefix _)).symm
  · rw [hrun] at ht
    have hk := List.all_eq_true.mp (List.all_takeWhile (p := keepsTrivia onlyLines)) t ht
    cases onlyLines with
    | true => exact Lexeme.isTrivia_of_isLineTrivia hk
    | false => exact hk

theorem reads_of_trivia {s : String} (h : trivia p = .matched s q) : Reads p.rest s [] q.rest := by
  obtain ⟨rfl, rfl⟩ := Reply.matched.inj h
  exact reads_readTrivia false p

theorem reads_of_lineTrivia {s : String} (h : lineTrivia p = .matched s q) :
    Reads p.rest s [] q.rest := by
  obtain ⟨rfl, rfl⟩ := Reply.matched.inj h
  exact reads_readTrivia true p

theorem reads_of_mark {m : Mark} {line : Nat} (h : mark m p = .matched line q) :
    Reads p.rest m.symbol [.mark m] q.rest := by
  rw [mark_eq_matched h]
  exact .single rfl _

theorem reads_of_word {leaf : Leaf} (h : word p = .matched leaf q) :
    ∃ text line, leaf = { Leaf.word text with line? := some line } ∧
      Reads p.rest text [.word text] q.rest := by
  obtain ⟨text, line, hl, hr⟩ := word_eq_matched h
  refine ⟨text, line, hl, ?_⟩
  rw [hr]
  exact .single rfl _

/-! ## Leaves -/

theorem reads_of_comma {leaf : Leaf} (h : comma p = .matched leaf q) :
    Reads p.rest leaf.print [.mark .comma] q.rest := by
  obtain ⟨q, hb, rfl⟩ := attempt_eq_matched h
  simp only [bind_eq_matched, pure_apply, Reply.matched.injEq] at hb
  obtain ⟨before, p₁, h₁, line, p₂, h₂, after, p₃, h₃, rfl, rfl⟩ := hb
  have hr := ((reads_of_trivia h₁).trans (reads_of_mark h₂)).trans (reads_of_trivia h₃)
  exact hr

theorem reads_of_key {k c : Leaf} (h : key p = .matched (k, c) q) :
    Reads p.rest (k.print ++ c.print) (Lexeme.key k.value) q.rest := by
  obtain ⟨q, hb, rfl⟩ := attempt_eq_matched h
  simp only [bind_eq_matched, pure_apply, Reply.matched.injEq, Prod.mk.injEq] at hb
  obtain ⟨before, p₁, h₁, leaf, p₂, h₂, colonBefore, p₃, h₃, line, p₄, h₄, after, p₅, h₅,
    ⟨rfl, rfl⟩, rfl⟩ := hb
  obtain ⟨text, l, rfl, hw⟩ := reads_of_word h₂
  have hk := (reads_of_trivia h₁).trans hw
  have hc := ((reads_of_trivia h₃).trans (reads_of_mark h₄)).trans (reads_of_trivia h₅)
  simpa [Leaf.print, Leaf.written, Leaf.word, Leaf.mark, Lexeme.key, String.append_assoc]
    using hk.trans hc

theorem reads_of_bracket {m : Mark} {leaf : Leaf} (h : bracket m p = .matched leaf q) :
    Reads p.rest leaf.print [.mark m] q.rest := by
  unfold bracket at h
  simp only [bind_eq_matched, pure_apply, Reply.matched.injEq] at h
  obtain ⟨before, p₁, h₁, line, p₂, h₂, after, p₃, h₃, rfl, rfl⟩ := h
  exact ((reads_of_trivia h₁).trans (reads_of_mark h₂)).trans (reads_of_lineTrivia h₃)

/-- A value from its first token on has no trivia before it. -/
theorem reads_of_literal {leaf : Leaf} (h : literal p = .matched leaf q) :
    leaf.before = "" ∧ Reads p.rest leaf.print leaf.datum.lexemes q.rest := by
  cases literal_eq_matched h with
  | @word text after line p₁ _ hr ht =>
    rw [hr]
    exact ⟨rfl, (Reads.single (t := ⟨.word text, line⟩) rfl _).trans (reads_of_trivia ht)⟩
  | @quoted raw text after line p₁ _ hr ht =>
    rw [hr]
    exact ⟨rfl, (Reads.single (t := ⟨.quoted raw text, line⟩) rfl _).trans
      (reads_of_lineTrivia ht)⟩
  | @expression text after line last p₁ _ hr ht =>
    have hread := (Reads.single (t := ⟨.expression text, line⟩) rfl _).trans
      ((Reads.single (t := ⟨.expressionEnd, last⟩) rfl _).trans (reads_of_lineTrivia ht))
    -- A tree keeps the margins of an expression, so its print is its whole text.
    have hw : ({ Leaf.expressionOf text with after, line? := some line } : Leaf).print =
        text ++ (";;" ++ after) := by
      show "" ++ (Leaf.expressionOf text).written ++ after = _
      rw [Leaf.written_expressionOf, String.empty_append, String.append_assoc]
    have hd : ({ Leaf.expressionOf text with after, line? := some line } : Leaf).datum =
        .expression text := Leaf.datum_expressionOf text
    refine ⟨rfl, ?_⟩
    rw [hr, hw, hd]
    exact hread

theorem reads_of_value {leaf : Leaf} (h : value p = .matched leaf q) :
    Reads p.rest leaf.print leaf.datum.lexemes q.rest := by
  obtain ⟨q, hb, rfl⟩ := attempt_eq_matched h
  simp only [bind_eq_matched, pure_apply, Reply.matched.injEq] at hb
  obtain ⟨before, p₁, h₁, leaf, p₂, h₂, rfl, rfl⟩ := hb
  obtain ⟨hb, hr⟩ := reads_of_literal h₂
  have hp := (reads_of_trivia h₁).trans hr
  rw [Leaf.print, hb, String.empty_append, ← String.append_assoc] at hp
  exact hp

/-! ## Pairs and lists -/

theorem reads_of_pair {pair : Pair} (h : Parser.pair p = .matched pair q) :
    Reads p.rest pair.print pair.phrase.lexemes q.rest := by
  obtain ⟨q, hb, rfl⟩ := attempt_eq_matched h
  simp only [bind_eq_matched, pure_apply, Reply.matched.injEq] at hb
  obtain ⟨⟨k, c⟩, p₁, h₁, v, p₂, h₂, rfl, rfl⟩ := hb
  have hr := (reads_of_key h₁).trans (reads_of_value h₂)
  exact hr

def ListEntry.print : ListEntry → String
  | pair p => p.print
  | value v => v.print

def ListEntry.lexemes : ListEntry → List Lexeme
  | pair p => Row.pairLexemes p.scalar
  | value v => [v.scalar.lexeme]

theorem datum_of_not_isExpression {leaf : Leaf} (h : leaf.isExpression = false) :
    leaf.datum = .scalar leaf.scalar := by
  obtain ⟨form, value, before, after, line?⟩ := leaf
  cases form <;> first | rfl | simp [Leaf.isExpression] at h

theorem reads_of_listEntry {entry : ListEntry} (h : listEntry p = .matched entry q) :
    Reads p.rest entry.print entry.lexemes q.rest := by
  obtain ⟨hx, ⟨pair, hp, rfl⟩ | ⟨p₁, leaf, hrest, hv, rfl⟩⟩ := listEntry_eq_matched h
  · have hr := reads_of_pair hp
    rw [Pair.phrase, show pair.value.datum = _ from datum_of_not_isExpression hx] at hr
    exact hr
  · have hr := reads_of_value hv
    rw [show leaf.datum = _ from datum_of_not_isExpression hx, hrest] at hr
    exact hr

section entries

variable {α : Type} {as : ListEntry → Except Fault α} {text : α → String}
  {code : α → List Lexeme}

theorem reads_of_moreEntries
    (has : ∀ {e a}, as e = .ok a → e.print = text a ∧ e.lexemes = code a) {fuel : Nat}
    {more : List (Leaf × α)} {trailing? : Option Leaf}
    (h : moreEntries as fuel p = .matched (more, trailing?) q) :
    Reads p.rest
      (Entries.joinRest (more.map Prod.fst) (more.map fun e => text e.2) ++ Leaf.print? trailing?)
      (Row.behindCommas code (more.map Prod.snd) ++ Lexeme.markIf .comma trailing?.isSome)
      q.rest := by
  induction fuel generalizing p more trailing? with
  | zero => simp [moreEntries, mismatch] at h
  | succ fuel ih =>
    obtain ⟨rfl, rfl, rfl⟩ | ⟨leaf, hc, rfl, rfl⟩ |
      ⟨leaf, p₁, entry, p₂, a, rest, hc, he, ha, hrest, rfl⟩ := moreEntries_eq_matched h
    · exact .refl _
    · simpa [Entries.joinRest, Leaf.print?, Row.behindCommas, Lexeme.markIf]
        using reads_of_comma hc
    · have hr := ((reads_of_comma hc).trans (reads_of_listEntry he)).trans (ih hrest)
      rw [(has ha).1, (has ha).2] at hr
      simpa [Entries.joinRest, Row.behindCommas, String.append_assoc] using hr

theorem reads_of_entriesFrom
    (has : ∀ {e a}, as e = .ok a → e.print = text a ∧ e.lexemes = code a)
    {gather : List α → Entries} {first : α} {v : ListValues}
    (h : entriesFrom as gather first p = .matched v q) :
    ∃ more : List (Leaf × α), v.entries = gather (first :: more.map Prod.snd) ∧
      v.separators = more.map Prod.fst ∧
      Reads p.rest
        (Entries.joinRest v.separators (more.map fun e => text e.2) ++ Leaf.print? v.trailing?)
        (Row.behindCommas code (more.map Prod.snd) ++ Lexeme.markIf .comma v.trailing?.isSome)
        q.rest := by
  obtain ⟨more, hmore, he, hs⟩ := entriesFrom_eq_matched h
  refine ⟨more, he, hs, ?_⟩
  rw [hs]
  exact reads_of_moreEntries has hmore

end entries

theorem lexemes_of_asPair {e : ListEntry} {pair : Pair} (h : e.asPair = .ok pair) :
    e.print = pair.print ∧ e.lexemes = Row.pairLexemes pair.scalar := by
  rw [asPair_eq_ok h]
  exact ⟨rfl, rfl⟩

theorem lexemes_of_asValue {e : ListEntry} {leaf : Leaf} (h : e.asValue = .ok leaf) :
    e.print = leaf.print ∧ e.lexemes = [leaf.scalar.lexeme] := by
  rw [asValue_eq_ok h]
  exact ⟨rfl, rfl⟩

theorem reads_of_listValues {v : ListValues} (h : listValues p = .matched v q) :
    Reads p.rest (Entries.join v.separators v.entries.printEach ++ Leaf.print? v.trailing?)
      (Row.lexemes? (v.entries.row?.map (·, v.trailing?.isSome))) q.rest := by
  obtain ⟨rfl, rfl⟩ | ⟨first, p₁, he, hmore⟩ | ⟨first, p₁, he, hmore⟩ := listValues_eq_matched h
  · exact .refl _
  · obtain ⟨entries, separators, trailing?⟩ := v
    obtain ⟨more, rfl, rfl, hr⟩ := reads_of_entriesFrom lexemes_of_asPair hmore
    simpa [Entries.printEach, Entries.join, Entries.row?, Row.lexemes?, Row.lexemes,
      Row.behindCommas, List.flatMap_map, Function.comp_def, String.append_assoc,
      ListEntry.print, ListEntry.lexemes] using (reads_of_listEntry he).trans hr
  · obtain ⟨entries, separators, trailing?⟩ := v
    obtain ⟨more, rfl, rfl, hr⟩ := reads_of_entriesFrom lexemes_of_asValue hmore
    simpa [Entries.printEach, Entries.join, Entries.row?, Row.lexemes?, Row.lexemes,
      Row.behindCommas, List.flatMap_map, Function.comp_def, String.append_assoc,
      ListEntry.print, ListEntry.lexemes] using (reads_of_listEntry he).trans hr

theorem reads_of_optional_comma {leaf? : Option Leaf}
    (h : Production.optional comma p = .matched leaf? q) :
    Reads p.rest (Leaf.print? leaf?) (Lexeme.markIf .comma leaf?.isSome) q.rest := by
  obtain ⟨leaf, hc, rfl⟩ | ⟨hrest, rfl⟩ := optional_comma_eq_matched h
  · exact reads_of_comma hc
  · rw [← hrest]
    exact .refl _

theorem reads_of_listing {l : Listing} (h : listing p = .matched l q) :
    Reads p.rest l.print l.phrase.lexemes q.rest := by
  obtain ⟨q, hb, rfl⟩ := attempt_eq_matched h
  simp only [bind_eq_matched, pure_apply, Reply.matched.injEq] at hb
  obtain ⟨⟨k, c⟩, p₁, h₁, before, p₂, h₂, line, p₃, h₃, leading?, p₄, h₄, v, p₅, h₅, closing, p₆,
    h₆, rfl, rfl⟩ := hb
  have ho := (reads_of_trivia h₂).trans (reads_of_mark h₃)
  have hr := (((((reads_of_key h₁).trans ho).trans (reads_of_optional_comma h₄)).trans
    (reads_of_listValues h₅)).trans (reads_of_bracket h₆))
  simpa [Listing.print, Listing.phrase, Phrase.lexemes, Leaf.print, Leaf.written, Leaf.mark,
    String.append_assoc] using hr

/-! ## Blocks and containers -/

theorem reads_of_optional_word {leaf? : Option Leaf}
    (h : Production.optional word p = .matched leaf? q) :
    Reads p.rest (Leaf.print? leaf?) ((leaf?.map Leaf.value).toList.map .word) q.rest := by
  obtain ⟨leaf, hw, rfl⟩ | ⟨hu, rfl⟩ := optional_eq_matched.mp h
  · obtain ⟨text, line, rfl, hr⟩ := reads_of_word hw
    simpa [Leaf.print?, Leaf.print, Leaf.written, Leaf.word] using hr
  · rw [rest_of_word_unmatched hu]
    exact .refl _

/-- A production of containers that reads what it prints. -/
def ReadsContainers (container : Production Container) : Prop :=
  ∀ {p q : Parser} {c : Container}, container p = .matched c q →
    Reads p.rest c.print (Phrase.lexemesAll c.phrases) q.rest

theorem reads_of_blockOf {container : Production Container} (hc : ReadsContainers container)
    {b : Block} (h : blockOf container p = .matched b q) :
    Reads p.rest b.print b.phrase.lexemes q.rest := by
  obtain ⟨q, hb, rfl⟩ := attempt_eq_matched h
  simp only [bind_eq_matched, pure_apply, Reply.matched.injEq] at hb
  obtain ⟨⟨k, c⟩, p₁, h₁, name?, p₂, h₂, opening, p₃, h₃, inner, p₄, h₄, closing, p₅, h₅, rfl, rfl⟩
    := hb
  have hr := ((((reads_of_key h₁).trans (reads_of_optional_word h₂)).trans
    (reads_of_bracket h₃)).trans (hc h₄)).trans (reads_of_bracket h₅)
  simpa [Block.print, Block.phrase, Phrase.lexemes] using hr

theorem reads_of_itemOf {container : Production Container} (hc : ReadsContainers container)
    (hs : Scripted container) {item : Item} (h : itemOf container p = .matched item q) :
    Reads p.rest item.print item.phrase.lexemes q.rest := by
  obtain ⟨b, hb, rfl⟩ | ⟨p₁, hrest, ⟨pair, hp, rfl⟩ | ⟨l, hl, rfl⟩⟩ := itemOf_eq_matched hs h
  · exact reads_of_blockOf hc hb
  · rw [← hrest]
    exact reads_of_pair hp
  · rw [← hrest]
    exact reads_of_listing hl

theorem reads_of_items {item : Production Item}
    (hi : ∀ {p q : Parser} {i : Item}, item p = .matched i q →
      Reads p.rest i.print i.phrase.lexemes q.rest)
    {fuel : Nat} {list : List Item} (h : items item fuel p = .matched list q) :
    Reads p.rest (Item.printAll list) (Phrase.lexemesAll (Item.phraseAll list)) q.rest := by
  induction fuel generalizing p list with
  | zero => simp [items, mismatch] at h
  | succ fuel ih =>
    obtain ⟨rfl, rfl⟩ | ⟨first, p₁, rest, hfirst, hrest, rfl⟩ := items_eq_matched h
    · exact .refl _
    · exact (hi hfirst).trans (ih hrest)

theorem readsContainers_containerOf {item : Production Item} (hs : Scripted item)
    (hi : ∀ {p q : Parser} {i : Item}, item p = .matched i q →
      Reads p.rest i.print i.phrase.lexemes q.rest) : ReadsContainers (containerOf item) := by
  intro p q c h
  obtain ⟨list, p₁, hlist, hrest, hc⟩ := containerOf_eq_matched hs h
  have hr := reads_of_items hi hlist
  obtain ⟨items, topLevel⟩ := c
  rw [← Container.items_of hc, ← hrest] at hr
  exact hr

theorem readsContainers_containerWithin (fuel : Nat) :
    ReadsContainers (containerWithin fuel) := by
  induction fuel with
  | zero =>
    intro p q c h
    simp [containerWithin, mismatch] at h
  | succ fuel ih =>
    exact readsContainers_containerOf (scriptedItemOf (scriptedContainerWithin fuel))
      (reads_of_itemOf ih (scriptedContainerWithin fuel))

theorem readsContainers_container : ReadsContainers container :=
  fun h => readsContainers_containerWithin _ h

end Parser

end LookML
