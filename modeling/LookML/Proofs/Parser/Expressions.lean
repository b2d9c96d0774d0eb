import LookML.Proofs.Parser.Acceptance
import LookML.Proofs.Parser.Parts
import LookML.Proofs.Scan.Expressions

/-!
# Expressions — an expression key at its colon has an expression for its value

A scan reads an expression behind the tokens of an expression key and a colon and nowhere else.  A
tree keeps trivia apart from them, so there its sign is an expression key and a colon with nothing
before it.  A pair has an expression for its value exactly where its key is such a sign, and what
comes after the sign opens no list and no block.
-/

namespace LookML

/-! ## Keys -/

/-- Whether an expression comes after a key with its colon. -/
def Leaf.OpensExpression (key colon : Leaf) : Prop :=
  key.value ∈ Keys.expressionKeys ∧ colon.before = ""

/-- Whether a part has an expression for its value exactly if its key says so. -/
def Part.FitsKey : Part → Prop
  | .pair p => p.value.isExpression = true ↔ p.key.OpensExpression p.colon
  | .listing l => ¬ l.key.OpensExpression l.colon
  | .block b => ¬ b.key.OpensExpression b.colon
  | .document _ | .container _ | .leaf _ => True

/-! ## Tokens -/

namespace Token

theorem EntersAtKeys.of_append {a b : List Token} (h : EntersAtKeys (a ++ b)) : EntersAtKeys b := by
  induction a with
  | nil => exact h
  | cons t a ih => exact ih (entersAtKeys_cons.mp h).2

/-- Before an expression stands a colon, and before that an expression key. -/
theorem EntersAtKeys.of_expression {a b : List Token} {u v : Token}
    (h : EntersAtKeys (a ++ u :: v :: b)) (ha : a ≠ []) (hv : v.IsExpression) :
    u.IsColon ∧ ∀ t ∈ a.getLast?, t.IsExpressionKey := by
  obtain ⟨a, t, rfl⟩ := (List.eq_nil_or_concat a).resolve_left ha
  rw [List.concat_eq_append, List.append_assoc] at h
  obtain ⟨hkey, hcolon⟩ := (entersAtKeys_cons.mp h.of_append).1.mp (by simpa using hv)
  exact ⟨by simpa using hcolon, by simpa using hkey⟩

/-- What a parser relies on: where expressions stand, and that trivia shows in a tree. -/
structure IsKeyed (tokens : List Token) : Prop where
  enters : EntersAtKeys tokens
  source_ne : ∀ t ∈ tokens, t.isTrivia = true → t.source ≠ ""

theorem IsKeyed.of_append {a b : List Token} (h : IsKeyed (a ++ b)) : IsKeyed b where
  enters := h.enters.of_append
  source_ne t ht := h.source_ne t (List.mem_append_right a ht)

theorem isTrivia_eq_false {t : Token} (h : t.IsExpressionKey ∨ t.IsColon ∨ t.IsExpression) :
    t.isTrivia = false := by
  rcases h with ⟨key, -, h⟩ | h | ⟨e, h⟩ <;>
    simp [isTrivia, show t.lexeme = _ from h, Lexeme.isTrivia]

/-- A run of trivia with no source is no run. -/
theorem IsKeyed.eq_nil {a run b : List Token} (h : IsKeyed (a ++ (run ++ b)))
    (ht : ∀ t ∈ run, t.isTrivia = true) (hs : sourceAll run = "") : run = [] := by
  cases run with
  | nil => rfl
  | cons t run =>
    rw [sourceAll_cons, String.append_eq_empty_iff] at hs
    exact absurd hs.1 (h.source_ne t (by simp) (ht t (by simp)))

/-- Behind a word and a colon, with trivia around it, comes an expression exactly if the word is an
expression key with nothing between it and the colon. -/
theorem IsKeyed.isExpression_iff {word : String} {l line : Nat} {run run' rest : List Token}
    (h : IsKeyed (⟨.word word, l⟩ :: (run ++ ⟨.mark .colon, line⟩ :: (run' ++ rest))))
    (ht : ∀ t ∈ run, t.isTrivia = true) (ht' : ∀ t ∈ run', t.isTrivia = true) :
    (∃ t ∈ rest.head?, t.IsExpression) ↔ word ∈ Keys.expressionKeys ∧ sourceAll run = "" := by
  constructor
  · rintro ⟨v, hv, hexpr⟩
    obtain ⟨more, rfl⟩ := List.head?_eq_some_iff.mp hv
    -- What stands right before the expression is no trivia, so it is the colon.
    obtain rfl : run' = [] := by
      refine (List.eq_nil_or_concat run').resolve_right ?_
      rintro ⟨r, x, rfl⟩
      have hx := EntersAtKeys.of_expression
        (a := ⟨.word word, l⟩ :: (run ++ ⟨.mark .colon, line⟩ :: r)) (u := x) (b := more)
        (by simpa using h.enters) (by simp) hexpr
      exact absurd (ht' x (by simp)) (by simp [isTrivia_eq_false (.inr (.inl hx.1))])
    have hkey := (EntersAtKeys.of_expression (a := ⟨.word word, l⟩ :: run) (by simpa using h.enters)
      (by simp) hexpr).2
    -- What stands right before the colon is no trivia either, so it is the word.
    obtain rfl | ⟨r, x, rfl⟩ := List.eq_nil_or_concat run
    · obtain ⟨key, hmem, hk⟩ := hkey _ rfl
      exact ⟨Lexeme.word.inj hk ▸ hmem, rfl⟩
    · have hx : x.IsExpressionKey := hkey x (by
        rw [List.concat_eq_append, ← List.cons_append, List.getLast?_concat]
        rfl)
      exact absurd (ht x (by simp)) (by simp [isTrivia_eq_false (.inl hx)])
  · rintro ⟨hmem, hs⟩
    obtain rfl := h.eq_nil (a := [_]) ht hs
    obtain ⟨v, hv, hexpr⟩ := (entersAtKeys_cons.mp h.enters).1.mpr
      ⟨⟨word, hmem, rfl⟩, _, rfl, rfl⟩
    cases run' with
    | nil => exact ⟨v, by simpa [List.head?_eq_getElem?] using hv, hexpr⟩
    | cons t run' =>
      obtain rfl : t = v := by simpa using hv
      exact absurd (ht' t (by simp)) (by simp [isTrivia_eq_false (.inr (.inr hexpr))])

end Token

/-! ## Rules -/

namespace Parser

open Production
open Token (IsKeyed)

variable {p q : Parser}

/-- No trivia is read where none comes first. -/
theorem rest_of_trivia_settled {s : String} (h : trivia p = .matched s q) (hp : Settled p.rest) :
    q.rest = p.rest := by
  obtain ⟨-, rfl⟩ := Reply.matched.inj h
  rw [rest_readTrivia]
  cases hr : p.rest with
  | nil => rfl
  | cons t tokens =>
    rw [hr] at hp
    have ht : t.lexeme.isTrivia = false := hp t rfl
    exact List.dropWhile_cons_of_neg (by simp [keepsTrivia, ht])

/-- A key is read up to what is no trivia, which is an expression exactly if the key opens one. -/
theorem opensExpression_iff_of_key {k c : Leaf} (hp : IsKeyed p.rest)
    (h : key p = .matched (k, c) q) :
    Settled q.rest ∧ ((∃ t ∈ q.rest.head?, t.IsExpression) ↔ k.OpensExpression c) := by
  obtain ⟨q, hb, rfl⟩ := attempt_eq_matched h
  simp only [bind_eq_matched, pure_apply, Reply.matched.injEq, Prod.mk.injEq] at hb
  obtain ⟨before, p₁, h₁, leaf, p₂, h₂, colonBefore, p₃, h₃, line, p₄, h₄, after, p₅, h₅,
    ⟨rfl, rfl⟩, rfl⟩ := hb
  obtain ⟨lead, hlead, -, -⟩ := reads_of_trivia h₁
  obtain ⟨word, l, rfl, hword⟩ := word_eq_matched h₂
  obtain ⟨run, hrun, rfl, hrt⟩ := reads_of_trivia h₃
  obtain ⟨run', hrun', -, hrt'⟩ := reads_of_trivia h₅
  rw [rest_enter] at hlead
  rw [hlead, hword, hrun, mark_eq_matched h₄, hrun'] at hp
  refine ⟨?_, hp.of_append.isExpression_iff (isTrivia_of_significant hrt)
    (isTrivia_of_significant hrt')⟩
  obtain ⟨-, rfl⟩ := Reply.matched.inj h₅
  rw [rest_leave, rest_readTrivia]
  exact settled_dropWhile p₄.rest

theorem isExpression_iff_of_value {leaf : Leaf} (hp : Settled p.rest)
    (h : value p = .matched leaf q) :
    leaf.isExpression = true ↔ ∃ t ∈ p.rest.head?, t.IsExpression := by
  obtain ⟨q, hb, rfl⟩ := attempt_eq_matched h
  simp only [bind_eq_matched, pure_apply, Reply.matched.injEq] at hb
  obtain ⟨before, p₁, h₁, leaf, p₂, h₂, rfl, rfl⟩ := hb
  have hrest : p₁.rest = p.rest := rest_of_trivia_settled (p := p.enter "value") h₁ hp
  rw [← hrest]
  cases literal_eq_matched h₂ with
  | word hr ht => simp [hr, Leaf.word, Leaf.isExpression, Token.IsExpression]
  | quoted hr ht => simp [hr, Leaf.quotedRaw, Leaf.isExpression, Token.IsExpression]
  | expression hr ht => simp [hr, Leaf.expressionOf, Leaf.isExpression, Token.IsExpression]

theorem not_isExpression_of_mark {m : Mark} {s : String} {line : Nat} {r : Parser}
    (hp : Settled p.rest) (h : trivia p = .matched s q) (h' : mark m q = .matched line r) :
    ¬ ∃ t ∈ p.rest.head?, t.IsExpression := by
  rw [← rest_of_trivia_settled h hp, mark_eq_matched h']
  simp [Token.IsExpression]

/-- What the rules of the grammar make fits its key. -/
theorem makes_fitsKey : Makes IsKeyed Part.FitsKey where
  left := IsKeyed.of_append
  plain {part} hp hl hb := by
    cases part with
    | pair => simp [Part.isPair] at hp
    | listing => simp [Part.isListing] at hl
    | block => simp [Part.isBlock] at hb
    | document | container | leaf => trivial
  pair {p q pair} hp h := by
    obtain ⟨q, hb, -⟩ := attempt_eq_matched h
    simp only [bind_eq_matched, pure_apply, Reply.matched.injEq] at hb
    obtain ⟨⟨k, c⟩, p₁, h₁, v, p₂, h₂, rfl, -⟩ := hb
    obtain ⟨hs, hk⟩ := opensExpression_iff_of_key (p := p.enter "pair") hp h₁
    exact (isExpression_iff_of_value hs h₂).trans hk
  listing {p q list} hp h := by
    intro hopens
    obtain ⟨q, hb, -⟩ := attempt_eq_matched h
    simp only [bind_eq_matched, pure_apply, Reply.matched.injEq] at hb
    obtain ⟨⟨k, c⟩, p₁, h₁, before, p₂, h₂, line, p₃, h₃, leading?, p₄, -, v, p₅, -, closing, p₆, -,
      rfl, -⟩ := hb
    obtain ⟨hs, hk⟩ := opensExpression_iff_of_key (p := p.enter "list") hp h₁
    exact not_isExpression_of_mark hs h₂ h₃ (hk.mpr hopens)
  block {p q container block} hp h := by
    intro hopens
    obtain ⟨q, hb, -⟩ := attempt_eq_matched h
    simp only [bind_eq_matched, pure_apply, Reply.matched.injEq] at hb
    obtain ⟨⟨k, c⟩, p₁, h₁, name?, p₂, h₂, opening, p₃, h₃, inner, p₄, -, closing, p₅, -,
      rfl, -⟩ := hb
    obtain ⟨hs, hk⟩ := opensExpression_iff_of_key (p := p.enter "block") hp h₁
    refine absurd (hk.mpr hopens) ?_
    obtain ⟨leaf, hw, -⟩ | ⟨hu, -⟩ := optional_eq_matched.mp h₂
    · obtain ⟨name, l, -, hr⟩ := word_eq_matched hw
      simp [hr, Token.IsExpression]
    · -- Without a name, the brace comes at once.
      have hrest := rest_of_word_unmatched hu
      unfold bracket at h₃
      simp only [bind_eq_matched, pure_apply, Reply.matched.injEq] at h₃
      obtain ⟨before, p₆, h₆, line, p₇, h₇, -⟩ := h₃
      rw [← hrest] at hs ⊢
      exact not_isExpression_of_mark hs h₆ h₇

end Parser

theorem fitsKey_of_parse {source : String} {d : Document} (h : parse source = .ok d) :
    ∀ part ∈ d.walk, part.FitsKey :=
  forall_part_of_parse Parser.makes_fitsKey
    (fun _ ht => ⟨Token.entersAtKeys_of_tokenize ht, Token.source_ne_of_tokenize ht⟩) h

/-- Expressions stand where their keys say so.  A few characters decide it, whatever the order of
the table, for at most one key with its colon comes next; on tokens, an expression is what stands
behind an expression key and a colon; in a document, it is the value of a pair whose key is an
expression key with its colon right behind it, and no list and no block has such a key. -/
theorem expressions_at_keys :
    (∀ text, Keys.expressionKeyOf? (text.take Keys.lookahead) = Keys.expressionKeyOf? text) ∧
    (∀ text, ∀ key ∈ Keys.expressionKeys, ∀ other ∈ Keys.expressionKeys,
      key.toList ++ [':'] <+: text → other.toList ++ [':'] <+: text → key = other) ∧
    (∀ table : List String, table.Perm Keys.expressionKeys → ∀ text,
      table.find? (fun key => (key.toList ++ [':']).isPrefixOf text) =
        Keys.expressionKeyOf? text) ∧
    (∀ source tokens, tokenize source = .ok tokens → ∀ i,
      (∃ t ∈ tokens[i + 2]?, t.IsExpression) ↔
        (∃ t ∈ tokens[i]?, t.IsExpressionKey) ∧ ∃ t ∈ tokens[i + 1]?, t.IsColon) ∧
    ∀ source d, parse source = .ok d → ∀ part ∈ d.walk, part.FitsKey := by
  refine ⟨Keys.expressionKeyOf?_take_lookahead, ?_, fun table => Keys.find?_of_perm,
    fun source tokens => Token.entersAtKeys_of_tokenize, fun source d => fitsKey_of_parse⟩
  intro text key hk other ho h h'
  exact Keys.eq_of_isPrefixOf hk ho (List.isPrefixOf_iff_prefix.mpr h)
    (List.isPrefixOf_iff_prefix.mpr h')

/-- Keys that are the start of other keys, a `;` before an end, and a pair, a list and a block whose
keys have their colons farther off. -/
def Samples.keyed : String :=
  "join: j \x7b sql_on:a;;sql_trigger_value: b; ;;sql : c html :[d] expression\n: e\x7b\x7d \x7d"

theorem expressions_at_keys_keyed : ∃ d, parse Samples.keyed = .ok d ∧
    (d.leaves.filter Leaf.isExpression).map Leaf.value = ["a", "b;"] ∧
    ∀ part ∈ d.walk, part.FitsKey := by
  have hok : (parse Samples.keyed).toOption.map
      (fun d => (d.leaves.filter Leaf.isExpression).map Leaf.value) = some ["a", "b;"] := by
    decide +kernel
  cases hd : parse Samples.keyed with
  | error e => simp [hd, Except.toOption] at hok
  | ok d =>
    exact ⟨d, rfl, by simpa [hd, Except.toOption] using hok,
      expressions_at_keys.2.2.2.2 _ d hd⟩

end LookML
