import LookML.Proofs.Parser.Lossless

/-!
# Acceptance — a production follows the derivation of what is ahead

Where the lexemes ahead begin with a sentence, the production of its rule accepts it: it matches
and moves past the sentence.  The productions that stand before it in a choice decline.  A
production of items has one more way out: where a braced container repeats a key, it refuses.
-/

namespace LookML

/-! ## What is ahead -/

/-- Tokens that carry `sentence`: it is their lexemes without trivia, and each expression has its
end right after it. -/
structure Carries (tokens : List Token) (sentence : List Lexeme) : Prop where
  significant : Token.significant tokens = sentence
  adjacent : ∀ {a b : List Token} {e : String} {l : Nat}, tokens = a ++ ⟨.expression e, l⟩ :: b →
    ∃ l' c, b = ⟨.expressionEnd, l'⟩ :: c

/-- Whether no trivia comes first. -/
def Settled (tokens : List Token) : Prop :=
  ∀ t ∈ tokens.head?, t.isTrivia = false

theorem settled_cons {t : Token} {rest : List Token} (h : t.isTrivia = false) :
    Settled (t :: rest) := by
  simpa [Settled] using h

theorem Token.significant_dropWhile (tokens : List Token) :
    significant (tokens.dropWhile isTrivia) = significant tokens := by
  induction tokens with
  | nil => rfl
  | cons t tokens ih =>
    cases ht : t.isTrivia with
    | true => rw [List.dropWhile_cons_of_pos ht, ih, significant_cons_of_trivia ht]
    | false => rw [List.dropWhile_cons_of_neg (by simp [ht])]

theorem settled_dropWhile (tokens : List Token) :
    Settled (tokens.dropWhile Token.isTrivia) := by
  intro t ht
  have h := List.head?_dropWhile_not Token.isTrivia tokens
  rw [show (tokens.dropWhile Token.isTrivia).head? = some t from ht] at h
  simpa using h

namespace Carries

variable {a b tokens : List Token} {l : Lexeme} {s r : List Lexeme}

/-- What follows some tokens carries what they leave of the sentence. -/
theorem of_append (h : Carries (a ++ b) s) (hb : Token.significant b = r) : Carries b r where
  significant := hb
  adjacent := by
    rintro x y e l rfl
    exact h.adjacent (a := a ++ x) (by rw [List.append_assoc])

theorem dropWhile (keep : Token → Bool) (hk : ∀ t, keep t = true → t.isTrivia = true)
    (h : Carries tokens s) : Carries (tokens.dropWhile keep) s := by
  have happ := List.takeWhile_append_dropWhile (p := keep) (l := tokens)
  -- What is dropped is trivia, which leaves no lexeme.
  have htrivia : Token.significant (tokens.takeWhile keep) = [] :=
    Token.significant_eq_nil fun t ht => hk t (List.all_eq_true.mp List.all_takeWhile t ht)
  have hsig := h.significant
  rw [← happ, Token.significant_append, htrivia, List.nil_append] at hsig
  exact of_append (a := tokens.takeWhile keep) (by rwa [happ]) hsig

/-- The first lexeme of a sentence is the first token, if no trivia is before it. -/
theorem eq_cons (h : Carries tokens (l :: r)) (hs : Settled tokens) :
    ∃ line rest, tokens = ⟨l, line⟩ :: rest ∧ Carries rest r := by
  cases tokens with
  | nil => exact absurd h.significant (by simp)
  | cons t rest =>
    have hsig := h.significant
    rw [Token.significant_cons_of_not_trivia (hs t rfl)] at hsig
    obtain ⟨rfl, hrest⟩ := List.cons.inj hsig
    exact ⟨t.line, rest, rfl, of_append (a := [t]) h hrest⟩

theorem length_le (h : Carries tokens s) : s.length ≤ tokens.length := by
  rw [← h.significant]
  simpa [Token.significant] using
    List.length_filter_le (!·.isTrivia) (tokens.map Token.lexeme)

/-- The next token that is no trivia has the first lexeme of the sentence. -/
theorem head? (h : Carries tokens s) :
    (tokens.dropWhile Token.isTrivia).head?.map Token.lexeme = s.head? := by
  have hs := settled_dropWhile tokens
  rw [← h.significant, ← Token.significant_dropWhile]
  cases hd : tokens.dropWhile Token.isTrivia with
  | nil => rfl
  | cons t rest =>
    rw [hd] at hs
    rw [Token.significant_cons_of_not_trivia (hs t rfl)]
    rfl

end Carries

namespace Parser

open Production

variable {α β : Type} {p q : Parser}

/-! ## Ways to answer -/

/-- The production matches, and `post` holds of its value and the parser that it leaves. -/
def Accepts (x : Production α) (p : Parser) (post : α → Parser → Prop) : Prop :=
  ∃ a q, x p = .matched a q ∧ post a q

/-- The production does not match. -/
def Declines (x : Production α) (p : Parser) : Prop :=
  ∃ q, x p = .unmatched q

/-- The production fails over a repeated key. -/
def Refuses (x : Production α) (p : Parser) : Prop :=
  ∃ e q, x p = .failed (.duplicate e) q

/-- The production refuses if a key is repeated, and accepts otherwise. -/
def Answers (repeats : Prop) (x : Production α) (p : Parser) (post : α → Parser → Prop) : Prop :=
  (¬ repeats ∧ Accepts x p post) ∨ (repeats ∧ Refuses x p)

section sequences

variable {x : Production α} {f : α → Production β} {P : α → Parser → Prop}
  {Q : β → Parser → Prop} {R R' : Prop}

theorem Accepts.of_eq {a : α} (h : x p = .matched a q) (hp : P a q) : Accepts x p P :=
  ⟨a, q, h, hp⟩

theorem Accepts.pure {a : α} (h : P a p) : Accepts (Pure.pure a : Production α) p P :=
  ⟨a, p, rfl, h⟩

theorem Accepts.mono {P' : α → Parser → Prop} (h : Accepts x p P) (hp : ∀ a q, P a q → P' a q) :
    Accepts x p P' := by
  obtain ⟨a, q, hx, ha⟩ := h
  exact ⟨a, q, hx, hp a q ha⟩

theorem Accepts.of_apply {y : Production α} (h : Accepts y p P) (hxy : x p = y p) :
    Accepts x p P := by
  rwa [Accepts, hxy]

theorem Accepts.with_eq (h : Accepts x p P) :
    Accepts x p fun a q => P a q ∧ x p = .matched a q := by
  obtain ⟨a, q, hx, ha⟩ := h
  exact ⟨a, q, hx, ha, hx⟩

theorem Accepts.bind (h : Accepts x p P) (hf : ∀ a q, P a q → Accepts (f a) q Q) :
    Accepts (x >>= f) p Q := by
  obtain ⟨a, q, hx, ha⟩ := h
  obtain ⟨b, r, hb, hq⟩ := hf a q ha
  exact ⟨b, r, by rw [bind_of_matched hx, hb], hq⟩

theorem Accepts.bind_declines (h : Accepts x p P) (hf : ∀ a q, P a q → Declines (f a) q) :
    Declines (x >>= f) p := by
  obtain ⟨a, q, hx, ha⟩ := h
  obtain ⟨r, hr⟩ := hf a q ha
  exact ⟨r, by rw [bind_of_matched hx, hr]⟩

theorem Declines.bind (h : Declines x p) : Declines (x >>= f) p := by
  obtain ⟨q, hx⟩ := h
  exact ⟨q, bind_of_unmatched hx⟩

/-- A scripted production keeps the depth where it accepts. -/
theorem Accepts.kept (hs : Scripted x) (h : Accepts x p P) :
    Accepts x p fun a q => P a q ∧ q.depth = p.depth := by
  obtain ⟨a, q, hx, ha⟩ := h
  exact ⟨a, q, hx, ha, (hs.kept hx).2⟩

theorem Accepts.answers (h : Accepts x p P) (hr : ¬ R) : Answers R x p P :=
  .inl ⟨hr, h⟩

theorem Answers.congr (h : Answers R x p P) (hr : R ↔ R') : Answers R' x p P := by
  rwa [propext hr] at h

theorem Answers.of_apply {y : Production α} (h : Answers R y p P) (hxy : x p = y p) :
    Answers R x p P := by
  rwa [Answers, Accepts, Refuses, hxy]

theorem Answers.with_eq (h : Answers R x p P) :
    Answers R x p fun a q => P a q ∧ x p = .matched a q :=
  h.imp_left fun h => ⟨h.1, h.2.with_eq⟩

theorem Answers.kept (hs : Scripted x) (h : Answers R x p P) :
    Answers R x p fun a q => P a q ∧ q.depth = p.depth :=
  h.imp_left fun h => ⟨h.1, h.2.kept hs⟩

theorem Accepts.bind_answers (h : Accepts x p P) (hf : ∀ a q, P a q → Answers R (f a) q Q) :
    Answers R (x >>= f) p Q := by
  obtain ⟨a, q, hx, ha⟩ := h
  -- The first part matched, so the answer of the second is the answer.
  rcases hf a q ha with ⟨hr, b, r, hb, hq⟩ | ⟨hr, e, r, hb⟩
  · exact .inl ⟨hr, b, r, by rw [bind_of_matched hx, hb], hq⟩
  · exact .inr ⟨hr, e, r, by rw [bind_of_matched hx, hb]⟩

/-- A sequence refuses as soon as one of its parts does. -/
theorem Answers.bind (h : Answers R x p P) (hf : ∀ a q, P a q → Answers R' (f a) q Q) :
    Answers (R ∨ R') (x >>= f) p Q := by
  rcases h with ⟨hr, a, q, hx, ha⟩ | ⟨hr, e, q, hx⟩
  · exact (Accepts.bind_answers ⟨a, q, hx, ha⟩ hf).congr (by simp [hr])
  · exact .inr ⟨.inl hr, e, q, bind_of_failed hx⟩

theorem Answers.bind_accepts (h : Answers R x p P) (hf : ∀ a q, P a q → Accepts (f a) q Q) :
    Answers R (x >>= f) p Q :=
  (h.bind fun a q ha => (hf a q ha).answers not_false).congr (or_false R).to_iff

end sequences

section rules

variable {x y : Production α} {P : α → Parser → Prop} {R : Prop} {rule : String}

theorem Accepts.attempt (h : Accepts x (p.enter rule) fun a q => P a q.leave) :
    Accepts (attempt rule x) p P := by
  obtain ⟨a, q, hx, ha⟩ := h
  exact ⟨a, q.leave, attempt_of_matched hx, ha⟩

theorem Declines.attempt (h : Declines x (p.enter rule)) : Declines (attempt rule x) p := by
  obtain ⟨q, hx⟩ := h
  exact ⟨_, attempt_of_unmatched hx⟩

theorem Answers.attempt (h : Answers R x (p.enter rule) fun a q => P a q.leave) :
    Answers R (attempt rule x) p P := by
  rcases h with ⟨hr, ha⟩ | ⟨hr, e, q, hx⟩
  · exact .inl ⟨hr, ha.attempt⟩
  · exact .inr ⟨hr, e, _, attempt_of_failed hx⟩

theorem Accepts.orElse (h : Accepts x p P) : Accepts (x.orElse y) p P := by
  obtain ⟨a, q, hx, ha⟩ := h
  exact ⟨a, q, orElse_of_matched hx, ha⟩

theorem Accepts.orFail {fault : Fault} (h : Accepts x p P) : Accepts (x.orFail fault) p P :=
  h.orElse

theorem Answers.orElse (h : Answers R x p P) : Answers R (x.orElse y) p P := by
  rcases h with ⟨hr, ha⟩ | ⟨hr, e, q, hx⟩
  · exact .inl ⟨hr, ha.orElse⟩
  · exact .inr ⟨hr, e, q, orElse_of_failed hx⟩

/-- Where the first rule of a choice declines, the second is tried on what was ahead. -/
theorem Declines.orElse (hk : ∀ q, x p = .unmatched q → q.rest = p.rest) (h : Declines x p)
    (hy : ∀ q : Parser, q.rest = p.rest → Accepts y q P) : Accepts (x.orElse y) p P := by
  obtain ⟨q, hx⟩ := h
  obtain ⟨a, r, ha, hp⟩ := hy q (hk q hx)
  exact ⟨a, r, by rw [orElse_of_unmatched hx, ha], hp⟩

theorem Accepts.optional {Q : Parser → Prop} (h : Accepts x p fun _ q => Q q) :
    Accepts (Production.optional x) p fun _ q => Q q := by
  obtain ⟨a, q, hx, hq⟩ := h
  exact ⟨some a, q, optional_eq_matched.mpr (.inl ⟨a, hx, rfl⟩), hq⟩

theorem Declines.optional {Q : Parser → Prop} (h : Declines x p)
    (hk : ∀ q, x p = .unmatched q → q.rest = p.rest) (hq : ∀ q : Parser, q.rest = p.rest → Q q) :
    Accepts (Production.optional x) p fun _ q => Q q := by
  obtain ⟨q, hx⟩ := h
  exact ⟨none, q, optional_eq_matched.mpr (.inr ⟨hx, rfl⟩), hq q (hk q hx)⟩

theorem Accepts.map {f : α → β} {Q : β → Parser → Prop}
    (h : Accepts x p fun a q => Q (f a) q) : Accepts (f <$> x) p Q :=
  h.bind fun _ _ ha => .pure ha

theorem Declines.map {f : α → β} (h : Declines x p) : Declines (f <$> x) p :=
  h.bind

theorem Answers.map {f : α → β} {Q : β → Parser → Prop}
    (h : Answers R x p fun a q => Q (f a) q) : Answers R (f <$> x) p Q :=
  h.bind_accepts fun _ _ ha => .pure ha

end rules

/-! ## Single tokens -/

section tokens

variable {s r : List Lexeme} {l : Lexeme} {m : Mark}

theorem drop_run (keep : Token → Bool) (p : Parser) :
    p.rest.drop (p.run keep).length = p.rest.dropWhile keep := by
  have happ := List.takeWhile_append_dropWhile (p := keep) (l := p.rest)
  rw [run_eq_takeWhile]
  exact List.append_cancel_left ((List.prefix_iff_eq_append.mp
    (List.takeWhile_prefix _)).trans happ.symm)

theorem rest_readTrivia (onlyLines : Bool) (p : Parser) :
    (p.readTrivia onlyLines).2.rest = p.rest.dropWhile (keepsTrivia onlyLines) := by
  rw [readTrivia, rest_seek, drop_run]

theorem isTrivia_of_keepsTrivia (onlyLines : Bool) (t : Token)
    (h : keepsTrivia onlyLines t = true) : t.isTrivia = true := by
  cases onlyLines with
  | true => exact Lexeme.isTrivia_of_isLineTrivia h
  | false => exact h

theorem accepts_trivia (h : Carries p.rest s) :
    Accepts trivia p fun _ q => Carries q.rest s ∧ Settled q.rest := by
  refine .of_eq rfl ?_
  rw [rest_readTrivia]
  exact ⟨h.dropWhile _ (isTrivia_of_keepsTrivia false), settled_dropWhile p.rest⟩

theorem accepts_lineTrivia (h : Carries p.rest s) :
    Accepts lineTrivia p fun _ q => Carries q.rest s := by
  refine .of_eq rfl ?_
  rw [rest_readTrivia]
  exact h.dropWhile _ (isTrivia_of_keepsTrivia true)

theorem accepts_take {accept : Token → Option α} {post : α → Parser → Prop}
    (h : Carries p.rest (l :: r)) (hs : Settled p.rest)
    (ha : ∀ line, ∃ a, accept ⟨l, line⟩ = some a ∧ ∀ q : Parser, Carries q.rest r → post a q) :
    Accepts (take accept) p post := by
  obtain ⟨line, rest, hp, hr⟩ := h.eq_cons hs
  obtain ⟨a, ha, hpost⟩ := ha line
  refine .of_eq (a := a) (q := p.seek 1) ?_ (hpost _ (by rwa [rest_seek_one hp]))
  rw [take, peek?_of_rest hp, Option.bind_some, ha]

theorem declines_take {accept : Token → Option α} (h : Carries p.rest s) (hs : Settled p.rest)
    (ha : ∀ l ∈ s.head?, ∀ line, accept ⟨l, line⟩ = none) : Declines (take accept) p := by
  refine ⟨p, ?_⟩
  rw [take, peek?_eq_head?]
  -- Only the next token is looked at, and it has the first lexeme of the sentence.
  cases hp : p.rest with
  | nil => rfl
  | cons t rest =>
    rw [hp] at h hs
    have hsig := h.significant
    rw [Token.significant_cons_of_not_trivia (hs t rfl)] at hsig
    rw [List.head?_cons, Option.bind_some, ha t.lexeme (by rw [← hsig]; rfl) t.line]

theorem accepts_mark (h : Carries p.rest (.mark m :: r)) (hs : Settled p.rest) :
    Accepts (mark m) p fun _ q => Carries q.rest r :=
  accepts_take h hs fun line => ⟨line, by simp, fun _ hq => hq⟩

theorem declines_mark (h : Carries p.rest s) (hs : Settled p.rest)
    (hm : s.head? ≠ some (.mark m)) : Declines (mark m) p :=
  declines_take h hs fun l hl line => by
    rw [if_neg]
    rintro rfl
    exact hm hl

theorem accepts_word {text : String} (h : Carries p.rest (.word text :: r))
    (hs : Settled p.rest) : Accepts word p fun _ q => Carries q.rest r :=
  accepts_take h hs fun _ => ⟨_, rfl, fun _ hq => hq⟩

theorem declines_word (h : Carries p.rest s) (hs : Settled p.rest)
    (hw : ∀ text, s.head? ≠ some (.word text)) : Declines word p :=
  declines_take h hs fun l hl line => by
    cases l with
    | word text => exact absurd hl (hw text)
    | _ => rfl

theorem nextSignificant?_eq (p : Parser) :
    p.nextSignificant? = (p.rest.dropWhile Token.isTrivia).head? := by
  rw [← drop_run, List.head?_drop]
  simp [nextSignificant?, rest]

theorem accepts_comesNext {b : Bool} (h : Carries p.rest s)
    (hc : s.head?.any (· == .mark m) = b) :
    Accepts (comesNext m) p fun comes q => comes = b ∧ Carries q.rest s :=
  .of_eq rfl ⟨by dsimp only; rw [nextSignificant?_eq, ← hc, ← h.head?, Option.any_map], h⟩

theorem accepts_atStreamEnd {b : Bool} (h : Carries p.rest s)
    (he : s.head?.all (· == .streamEnd) = b) :
    Accepts atStreamEnd p fun ends q => ends = b ∧ Carries q.rest s :=
  .of_eq rfl ⟨by dsimp only; rw [nextSignificant?_eq, ← he, ← h.head?, Option.all_map], h⟩

theorem accepts_beforeStreamEnd (h : Carries p.rest (l :: r)) (hl : l ≠ .streamEnd) :
    Accepts beforeStreamEnd p fun _ q => Carries q.rest (l :: r) :=
  (accepts_atStreamEnd h (b := false) (by simpa using hl)).bind fun ends q hq => by
    obtain ⟨rfl, hq⟩ := hq
    exact .pure hq

end tokens

/-! ## Leaves -/

section leaves

variable {s r : List Lexeme} {k : String} {m : Mark} {d : Datum}

theorem accepts_comma (h : Carries p.rest (.mark .comma :: r)) :
    Accepts comma p fun _ q => Carries q.rest r :=
  .attempt <| (accepts_trivia (p := p.enter _) h).bind fun _ _ h₁ =>
    (accepts_mark h₁.1 h₁.2).bind fun _ _ h₂ =>
      (accepts_trivia h₂).bind fun _ _ h₃ => .pure h₃.1

theorem declines_comma (h : Carries p.rest s) (hm : s.head? ≠ some (.mark .comma)) :
    Declines comma p :=
  .attempt <| (accepts_trivia (p := p.enter _) h).bind_declines fun _ _ h₁ =>
    (declines_mark h₁.1 h₁.2 hm).bind

theorem accepts_key (h : Carries p.rest (Lexeme.key k ++ r)) :
    Accepts key p fun _ q => Carries q.rest r ∧ Settled q.rest :=
  .attempt <| (accepts_trivia (p := p.enter _) h).bind fun _ _ h₁ =>
    (accepts_word h₁.1 h₁.2).bind fun _ _ h₂ =>
      (accepts_trivia h₂).bind fun _ _ h₃ =>
        (accepts_mark h₃.1 h₃.2).bind fun _ _ h₄ =>
          (accepts_trivia h₄).bind fun _ _ h₅ => .pure h₅

/-- A word that no colon follows is no key. -/
theorem declines_key_of_word (h : Carries p.rest (.word k :: r))
    (hc : r.head? ≠ some (.mark .colon)) : Declines key p :=
  .attempt <| (accepts_trivia (p := p.enter _) h).bind_declines fun _ _ h₁ =>
    (accepts_word h₁.1 h₁.2).bind_declines fun _ _ h₂ =>
      (accepts_trivia h₂).bind_declines fun _ _ h₃ => (declines_mark h₃.1 h₃.2 hc).bind

theorem declines_key (h : Carries p.rest s) (hw : ∀ text, s.head? ≠ some (.word text)) :
    Declines key p :=
  .attempt <| (accepts_trivia (p := p.enter _) h).bind_declines fun _ _ h₁ =>
    (declines_word h₁.1 h₁.2 hw).bind

theorem accepts_bracket (h : Carries p.rest (.mark m :: r)) :
    Accepts (bracket m) p fun _ q => Carries q.rest r :=
  (accepts_trivia h).bind fun _ _ h₁ => (accepts_mark h₁.1 h₁.2).bind fun _ _ h₂ =>
    (accepts_lineTrivia h₂).bind fun _ _ h₃ => .pure h₃

theorem declines_bracket (h : Carries p.rest s) (hm : s.head? ≠ some (.mark m)) :
    Declines (bracket m) p :=
  (accepts_trivia h).bind_declines fun _ _ h₁ => (declines_mark h₁.1 h₁.2 hm).bind

theorem accepts_expressionEnd (h : Carries p.rest (.expressionEnd :: r)) (hs : Settled p.rest) :
    Accepts expressionEnd p fun _ q => Carries q.rest r :=
  accepts_take h hs fun _ => ⟨(), rfl, fun _ hq => hq⟩

theorem accepts_literal (h : Carries p.rest (d.lexemes ++ r)) (hs : Settled p.rest) :
    Accepts literal p fun leaf q => leaf.datum = d ∧ Carries q.rest r := by
  rcases d with (text | ⟨raw, text⟩) | text
  · obtain ⟨line, rest, hp, hr⟩ := h.eq_cons hs
    refine .of_eq (literal_of_rest hp) ⟨rfl, ?_⟩
    rw [rest_readTrivia, rest_seek_one hp]
    exact hr.dropWhile _ (isTrivia_of_keepsTrivia false)
  · obtain ⟨line, rest, hp, hr⟩ := h.eq_cons hs
    refine .of_eq (literal_of_rest hp) ⟨rfl, ?_⟩
    rw [rest_readTrivia, rest_seek_one hp]
    exact hr.dropWhile _ (isTrivia_of_keepsTrivia true)
  · obtain ⟨line, rest, hp, hr⟩ := h.eq_cons hs
    obtain ⟨line', rest', hend⟩ := h.adjacent (a := []) hp
    rw [Accepts, literal_of_rest hp]
    rw [← rest_seek_one hp] at hr
    have hset : Settled (p.seek 1).rest := by
      rw [rest_seek_one hp, hend]
      exact settled_cons rfl
    exact (accepts_expressionEnd hr hset).orFail.bind fun _ _ h₁ =>
      (accepts_lineTrivia h₁).bind fun _ _ h₂ => .pure ⟨Leaf.datum_expressionOf text, h₂⟩

theorem declines_literal (h : Carries p.rest (.mark m :: r)) (hs : Settled p.rest) :
    Declines literal p := by
  obtain ⟨line, rest, hp, -⟩ := h.eq_cons hs
  exact ⟨p, literal_of_rest hp⟩

theorem accepts_value (h : Carries p.rest (d.lexemes ++ r)) :
    Accepts value p fun leaf q => leaf.datum = d ∧ Carries q.rest r :=
  .attempt <| (accepts_trivia (p := p.enter _) h).bind fun _ _ h₁ =>
    (accepts_literal h₁.1 h₁.2).bind fun _ _ h₂ => .pure h₂

theorem declines_value (h : Carries p.rest (.mark m :: r)) : Declines value p :=
  .attempt <| (accepts_trivia (p := p.enter _) h).bind_declines fun _ _ h₁ =>
    (declines_literal h₁.1 h₁.2).bind

end leaves

/-! ## Pairs and lists -/

section lists

variable {s r : List Lexeme} {k : String} {d : Datum}

theorem accepts_pair (h : Carries p.rest (Lexeme.key k ++ (d.lexemes ++ r))) :
    Accepts pair p fun pair q => pair.value.datum = d ∧ Carries q.rest r :=
  .attempt <| (accepts_key (p := p.enter _) h).bind fun _ _ h₁ =>
    (accepts_value h₁.1).bind fun _ _ h₂ => .pure h₂

/-- A list is no pair. -/
theorem declines_pair_of_listing
    (h : Carries p.rest (Lexeme.key k ++ .mark .bracketOpen :: r)) : Declines pair p :=
  .attempt <| (accepts_key (p := p.enter _) h).bind_declines fun _ _ h₁ =>
    (declines_value h₁.1).bind

/-- A value that no colon follows is no pair. -/
theorem declines_pair_of_scalar {v : Scalar} (h : Carries p.rest (v.lexeme :: r))
    (hc : r.head? ≠ some (.mark .colon)) : Declines pair p := by
  refine .attempt (Declines.bind ?_)
  cases v with
  | word text => exact declines_key_of_word (p := p.enter _) h hc
  | quoted raw text => exact declines_key (p := p.enter _) h (by simp [Scalar.lexeme])

theorem isExpression_of_datum {leaf : Leaf} {v : Scalar} (h : leaf.datum = .scalar v) :
    leaf.isExpression = false := by
  obtain ⟨form, value, before, after, line?⟩ := leaf
  cases form <;> first | rfl | simp [Leaf.datum] at h

theorem accepts_plainEntry {entry : ListEntry} {v : Scalar} {post : ListEntry → Parser → Prop}
    (h : entry.valueLeaf.datum = .scalar v) (hp : post entry p) :
    Accepts (plainEntry entry) p post :=
  .of_eq (by rw [plainEntry, isExpression_of_datum h]; rfl) hp

theorem accepts_listEntry_of_pair {e : String × Scalar}
    (h : Carries p.rest (Row.pairLexemes e ++ r)) :
    Accepts listEntry p fun entry q => (∃ pair, entry = .pair pair) ∧ Carries q.rest r := by
  rw [Row.pairLexemes, List.append_assoc] at h
  refine (Accepts.orElse (Accepts.map (Q := fun entry q =>
    (∃ pair, entry = .pair pair ∧ pair.value.datum = .scalar e.2) ∧ Carries q.rest r)
    ((accepts_pair (d := .scalar e.2) h).mono fun pair q hq => ⟨⟨pair, rfl, hq.1⟩, hq.2⟩))).bind ?_
  rintro entry q ⟨⟨pair, rfl, hd⟩, hq⟩
  exact accepts_plainEntry hd ⟨⟨pair, rfl⟩, hq⟩

theorem accepts_listEntry_of_scalar {v : Scalar} (h : Carries p.rest (v.lexeme :: r))
    (hc : r.head? ≠ some (.mark .colon)) :
    Accepts listEntry p fun entry q => (∃ leaf, entry = .value leaf) ∧ Carries q.rest r := by
  refine (Declines.orElse (P := fun entry q =>
    (∃ leaf, entry = .value leaf ∧ leaf.datum = .scalar v) ∧ Carries q.rest r)
    (fun q hq => rest_of_attempt_unmatched scriptedPair (map_eq_unmatched.mp hq))
    (declines_pair_of_scalar h hc).map fun q hq => ?_).bind ?_
  · rw [← hq] at h
    exact (Accepts.map ((accepts_value (d := .scalar v) h).mono fun leaf q hl =>
      ⟨⟨leaf, rfl, hl.1⟩, hl.2⟩)).orFail
  · rintro entry q ⟨⟨leaf, rfl, hd⟩, hq⟩
    exact accepts_plainEntry hd ⟨⟨leaf, rfl⟩, hq⟩

section entries

variable {ε : Type} {as : ListEntry → Except Fault α} {gather : List α → Entries}
  {code : ε → List Lexeme} {t : Bool}

/-- What the rules for the entries of a list need of one entry: it is accepted if no colon follows
it, it is of the kind that the list gathers, and it begins as no list ends. -/
structure EntryAccepted (as : ListEntry → Except Fault α) (code : ε → List Lexeme) : Prop where
  accepts : ∀ {p : Parser} {entry : ε} {r : List Lexeme}, Carries p.rest (code entry ++ r) →
    r.head? ≠ some (.mark .colon) →
      Accepts listEntry p fun e q => (∃ a, as e = .ok a) ∧ Carries q.rest r
  opens : ∀ entry, ∃ v : Scalar, ∃ r, code entry = v.lexeme :: r

theorem entryAccepted_scalar : EntryAccepted ListEntry.asValue fun v : Scalar => [v.lexeme] where
  accepts h hc := (accepts_listEntry_of_scalar h hc).mono fun _ _ hq => by
    obtain ⟨⟨leaf, rfl⟩, hq⟩ := hq
    exact ⟨⟨leaf, rfl⟩, hq⟩
  opens v := ⟨v, [], rfl⟩

theorem entryAccepted_pair : EntryAccepted ListEntry.asPair Row.pairLexemes where
  accepts h _ := (accepts_listEntry_of_pair h).mono fun _ _ hq => by
    obtain ⟨⟨pair, rfl⟩, hq⟩ := hq
    exact ⟨⟨pair, rfl⟩, hq⟩
  opens e := ⟨.word e.1, _, rfl⟩

theorem EntryAccepted.head? (ha : EntryAccepted as code) (entry : ε) (r : List Lexeme) :
    ∃ l m, code entry ++ r = l :: m ∧ l ≠ .mark .bracketClose ∧ l ≠ .streamEnd := by
  obtain ⟨v, m, hv⟩ := ha.opens entry
  exact ⟨v.lexeme, m ++ r, by rw [hv]; rfl, by cases v <;> simp [Scalar.lexeme],
    by cases v <;> simp [Scalar.lexeme]⟩

theorem accepts_pick {a : α} {entry : ListEntry} (ha : as entry = .ok a)
    (h : Carries p.rest s) : Accepts (pick as entry) p fun _ q => Carries q.rest s :=
  .of_eq (a := a) (q := p) (by rw [pick, ha]; rfl) h

theorem accepts_moreEntries (ha : EntryAccepted as code) {entries : List ε} {fuel : Nat}
    (h : Carries p.rest (Row.behindCommas code entries ++ Row.ending t r))
    (hf : entries.length < fuel) :
    Accepts (moreEntries as fuel) p fun _ q => Carries q.rest (.mark .bracketClose :: r) := by
  induction fuel generalizing p entries with
  | zero => exact absurd hf (Nat.not_lt_zero _)
  | succ fuel ih =>
    cases entries with
    | nil =>
      cases t with
      | false =>
        -- The closing bracket comes next.
        refine (accepts_comesNext h rfl).bind ?_
        rintro _ q ⟨rfl, hq⟩
        exact .pure hq
      | true =>
        -- A comma comes next, and then the closing bracket.
        -- A comma before the bracket is the one after the last entry.
        refine (accepts_comesNext h rfl).bind ?_
        rintro _ q ⟨rfl, hq⟩
        refine (accepts_beforeStreamEnd hq (by simp)).bind fun _ q₁ h₁ => ?_
        refine (accepts_comma h₁).orFail.bind fun _ q₂ h₂ => ?_
        refine (accepts_comesNext h₂ rfl).bind ?_
        rintro _ q₃ ⟨rfl, h₃⟩
        exact .pure h₃
    | cons entry entries =>
      rw [Row.behindCommas, List.flatMap_cons, List.cons_append, List.cons_append,
        List.append_assoc, ← Row.behindCommas] at h
      -- After the comma an entry comes, so neither end of the list is met.
      obtain ⟨l, m, hlm, hclose, hstream⟩ :=
        ha.head? entry (Row.behindCommas code entries ++ Row.ending t r)
      refine (accepts_comesNext h rfl).bind ?_
      rintro _ q ⟨rfl, hq⟩
      refine (accepts_beforeStreamEnd hq (by simp)).bind fun _ q₁ h₁ => ?_
      refine (accepts_comma h₁).orFail.bind fun _ q₂ h₂ => ?_
      rw [hlm] at h₂
      refine (accepts_comesNext h₂ (b := false) (by simpa using hclose)).bind ?_
      rintro _ q₃ ⟨rfl, h₃⟩
      refine (accepts_beforeStreamEnd h₃ hstream).bind fun _ q₄ h₄ => ?_
      rw [← hlm] at h₄
      refine (ha.accepts h₄ (Row.head?_behindCommas_append_ending entries t r)).bind ?_
      rintro e q₅ ⟨⟨a, hea⟩, h₅⟩
      refine (accepts_pick hea h₅).bind fun _ q₆ h₆ => ?_
      exact (ih h₆ (Nat.lt_of_succ_lt_succ hf)).bind fun _ _ h₇ => .pure h₇

theorem length_le_behindCommas (entries : List ε) :
    entries.length ≤ (Row.behindCommas code entries).length := by
  induction entries with
  | nil => exact Nat.zero_le _
  | cons entry entries ih =>
    simp only [Row.behindCommas, List.flatMap_cons, List.length_append, List.length_cons] at ih ⊢
    omega

theorem accepts_entriesFrom (ha : EntryAccepted as code) {entries : List ε} {first : α}
    (h : Carries p.rest (Row.behindCommas code entries ++ Row.ending t r)) :
    Accepts (entriesFrom as gather first) p
      fun _ q => Carries q.rest (.mark .bracketClose :: r) := by
  have hle := h.length_le
  have hc : entries.length ≤ (Row.behindCommas code entries).length :=
    length_le_behindCommas entries
  rw [List.length_append] at hle
  have hmore : Accepts (moreEntries as (p.remaining + 1)) p
      fun _ q => Carries q.rest (.mark .bracketClose :: r) :=
    accepts_moreEntries ha h (by rw [remaining_eq]; omega)
  refine Accepts.bind (P := fun _ q => Carries q.rest (.mark .bracketClose :: r)) ?_
    fun _ _ hq => .pure hq
  exact hmore.of_apply rfl

end entries

/-- A closing bracket follows what stands in a list. -/
theorem accepts_listValues {row? : Option (Row × Bool)}
    (h : Carries p.rest (Row.lexemes? row? ++ .mark .bracketClose :: r)) :
    Accepts listValues p fun _ q => Carries q.rest (.mark .bracketClose :: r) := by
  rcases row? with _ | ⟨row, t⟩
  · refine (accepts_comesNext h rfl).bind ?_
    rintro _ q ⟨rfl, hq⟩
    exact .pure hq
  rw [Row.lexemes?, List.append_assoc] at h
  obtain ⟨v, m, hv⟩ := row.lexemes_eq_cons
  have hopen : row.lexemes ++ Row.ending t r = v.lexeme :: (m ++ Row.ending t r) := by rw [hv]; rfl
  change Carries p.rest (row.lexemes ++ Row.ending t r) at h
  rw [hopen] at h
  refine (accepts_comesNext h (b := false) (by cases v <;> simp [Scalar.lexeme])).bind ?_
  rintro _ q ⟨rfl, hq⟩
  refine (accepts_beforeStreamEnd hq (by cases v <;> simp [Scalar.lexeme])).bind fun _ q₁ h₁ => ?_
  rw [← hopen] at h₁
  -- The first entry decides what every entry has to be.
  cases row with
  | values first more =>
    have hfirst : Carries q₁.rest ([first.lexeme] ++
        (Row.behindCommas (fun s => [s.lexeme]) more ++ Row.ending t r)) := h₁
    refine (entryAccepted_scalar.accepts hfirst
      (Row.head?_behindCommas_append_ending more t r)).bind ?_
    rintro (pair | leaf) q₂ ⟨⟨a, ha⟩, h₂⟩
    · simp [ListEntry.asValue] at ha
    · exact accepts_entriesFrom entryAccepted_scalar h₂
  | pairs first more =>
    rw [Row.lexemes, List.append_assoc] at h₁
    refine (entryAccepted_pair.accepts h₁
      (Row.head?_behindCommas_append_ending more t r)).bind ?_
    rintro (pair | leaf) q₂ ⟨⟨a, ha⟩, h₂⟩
    · exact accepts_entriesFrom entryAccepted_pair h₂
    · simp [ListEntry.asPair] at ha

theorem accepts_optional_comma {leading : Bool} {row? : Option (Row × Bool)}
    (h : Carries p.rest (Lexeme.markIf .comma leading ++
      (Row.lexemes? row? ++ .mark .bracketClose :: r))) :
    Accepts (Production.optional comma) p
      fun _ q => Carries q.rest (Row.lexemes? row? ++ .mark .bracketClose :: r) := by
  cases leading with
  | true => exact (accepts_comma h).optional
  | false =>
    exact (declines_comma h (Row.head?_lexemes? row? r)).optional
      (fun _ => rest_of_attempt_unmatched scriptedComma) fun q hq => by rwa [hq]

theorem accepts_listing {leading : Bool} {row? : Option (Row × Bool)}
    (h : Carries p.rest ((Phrase.listing k leading row?).lexemes ++ r)) :
    Accepts listing p fun _ q => Carries q.rest r := by
  simp only [Phrase.lexemes, List.append_assoc, List.cons_append, List.nil_append] at h
  refine .attempt <| (accepts_key (p := p.enter _) h).bind fun _ p₁ h₁ => ?_
  refine (accepts_trivia h₁.1).bind fun _ p₂ h₂ => ?_
  refine (accepts_mark h₂.1 h₂.2).bind fun _ p₃ h₃ => ?_
  refine (accepts_optional_comma h₃).bind fun _ p₄ h₄ => ?_
  refine (accepts_listValues h₄).bind fun _ p₅ h₅ => ?_
  exact (accepts_bracket h₅).bind fun _ _ h₆ => .pure h₆

end lists

/-! ## Blocks and containers -/

section blocks

variable {s r : List Lexeme} {k : String} {container : Production Container} {R : Prop}

theorem accepts_optional_word (h : Carries p.rest (.word k :: r)) (hs : Settled p.rest) :
    Accepts (Production.optional word) p fun _ q => Carries q.rest r :=
  (accepts_word h hs).optional

theorem accepts_optional_word_of_none (h : Carries p.rest s) (hs : Settled p.rest)
    (hw : ∀ text, s.head? ≠ some (.word text)) :
    Accepts (Production.optional word) p fun _ q => Carries q.rest s :=
  (declines_word h hs hw).optional (fun _ => rest_of_word_unmatched) fun q hq => by rwa [hq]

theorem accepts_name {name? : Option String}
    (h : Carries p.rest (name?.toList.map .word ++ .mark .braceOpen :: r))
    (hs : Settled p.rest) :
    Accepts (Production.optional word) p fun _ q => Carries q.rest (.mark .braceOpen :: r) := by
  cases name? with
  | some name => exact accepts_optional_word h hs
  | none => exact accepts_optional_word_of_none h hs (by simp)

/-- A block is answered as its container is. -/
theorem answers_blockOf {name? : Option String} {ps : List Phrase}
    (h : Carries p.rest ((Phrase.block k name? ps).lexemes ++ r))
    (hc : ∀ q : Parser, q.depth ≠ 0 →
      Carries q.rest (Phrase.lexemesAll ps ++ .mark .braceClose :: r) →
        Answers R container q fun _ q => Carries q.rest (.mark .braceClose :: r)) :
    Answers R (blockOf container) p fun _ q => Carries q.rest r := by
  simp only [Phrase.lexemes, List.append_assoc, List.cons_append, List.nil_append] at h
  refine .attempt <| ((accepts_key (p := p.enter _) h).kept scriptedKey).bind_answers
    fun _ p₁ h₁ => ?_
  obtain ⟨⟨h₁, hs⟩, hd₁⟩ := h₁
  refine ((accepts_name h₁ hs).kept scriptedWord.optional).bind_answers
    fun _ p₂ h₂ => ?_
  refine ((accepts_bracket h₂.1).kept (scriptedBracket _)).bind_answers fun _ p₃ h₃ => ?_
  -- Inside the braces the depth is not that of the root, so keys are checked there.
  have hdepth : p₃.depth ≠ 0 := by
    rw [h₃.2, h₂.2, hd₁, depth_enter]
    exact Nat.succ_ne_zero _
  refine (hc p₃ hdepth h₃.1).bind_accepts fun _ p₄ h₄ => ?_
  exact (accepts_bracket h₄).bind fun _ _ h₅ => .pure h₅

/-- A pair that no opening brace follows is no block. -/
theorem declines_blockOf_of_pair {d : Datum}
    (h : Carries p.rest ((Phrase.pair k d).lexemes ++ r)) (hr : Phrase.Follows r) :
    Declines (blockOf container) p := by
  simp only [Phrase.lexemes, List.append_assoc] at h
  refine .attempt <| (accepts_key (p := p.enter _) h).bind_declines fun _ p₁ h₁ => ?_
  obtain ⟨h₁, hs⟩ := h₁
  -- A word could be the name of a block, so it is the brace after it that is missing.
  rcases d with (text | ⟨raw, text⟩) | text
  · exact (accepts_optional_word h₁ hs).bind_declines fun _ _ h₂ => (declines_bracket h₂ hr).bind
  · exact (accepts_optional_word_of_none h₁ hs
      (by simp [Datum.lexemes, Scalar.lexeme])).bind_declines
      fun _ _ h₂ => (declines_bracket h₂ (by simp [Datum.lexemes, Scalar.lexeme])).bind
  · exact (accepts_optional_word_of_none h₁ hs (by simp [Datum.lexemes])).bind_declines
      fun _ _ h₂ => (declines_bracket h₂ (by simp [Datum.lexemes])).bind

/-- A list is no block. -/
theorem declines_blockOf_of_listing {leading : Bool} {row? : Option (Row × Bool)}
    (h : Carries p.rest ((Phrase.listing k leading row?).lexemes ++ r)) :
    Declines (blockOf container) p := by
  simp only [Phrase.lexemes, List.append_assoc] at h
  refine .attempt <| (accepts_key (p := p.enter _) h).bind_declines fun _ p₁ h₁ => ?_
  exact (accepts_optional_word_of_none h₁.1 h₁.2 (by simp)).bind_declines
    fun _ _ h₂ => (declines_bracket h₂ (by simp)).bind

/-- An item is answered as its container is, if it has one. -/
theorem answers_itemOf {item : Phrase} (hs : Scripted container)
    (h : Carries p.rest (item.lexemes ++ r)) (hr : Phrase.Follows r)
    (hc : ∀ {ps : List Phrase} {q : Parser} {r : List Lexeme},
      (Phrase.lexemesAll ps).length < item.lexemes.length → q.depth ≠ 0 →
        Carries q.rest (Phrase.lexemesAll ps ++ .mark .braceClose :: r) →
          Answers (Phrase.RepeatsKey ps ∨ Phrase.AnyRepeat ps) container q
            fun _ q => Carries q.rest (.mark .braceClose :: r)) :
    Answers item.HasRepeat (itemOf container) p fun _ q => Carries q.rest r := by
  have hblock {q : Parser} (hu : (Item.block <$> blockOf container) p = .unmatched q) :
      q.rest = p.rest :=
    rest_of_attempt_unmatched (scriptedBlockOf hs) (map_eq_unmatched.mp hu)
  cases item with
  | pair key value =>
    refine Accepts.answers ?_ not_false
    -- The block is tried first, and declines.
    refine (declines_blockOf_of_pair h hr).map.orElse (fun _ => hblock) fun q hq => ?_
    rw [← hq] at h
    simp only [Phrase.lexemes, List.append_assoc] at h
    exact .orElse <| .map <| (accepts_pair h).mono fun _ _ h₁ => h₁.2
  | listing key leading row? =>
    refine Accepts.answers ?_ not_false
    refine (declines_blockOf_of_listing h).map.orElse (fun _ => hblock) fun q hq => ?_
    rw [← hq] at h
    have hl := h
    simp only [Phrase.lexemes, List.append_assoc, List.cons_append, List.nil_append] at hl
    -- The pair is tried before the list, and declines as well.
    refine (declines_pair_of_listing hl).map.orElse (fun _ hu =>
      rest_of_attempt_unmatched scriptedPair (map_eq_unmatched.mp hu)) fun q' hq' => ?_
    rw [← hq'] at h
    exact .orElse <| .map <| accepts_listing h
  | block key name? ps =>
    refine .orElse <| .map <| answers_blockOf h fun _ => hc ?_
    simp only [Phrase.lexemes, List.length_append, List.length_cons]
    omega

theorem accepts_atContainerEnd {b : Bool} (h : Carries p.rest s)
    (he : s.head?.all (fun l => l == .streamEnd || l == .mark .braceClose) = b) :
    Accepts atContainerEnd p fun ends q => ends = b ∧ Carries q.rest s :=
  .of_eq rfl ⟨by dsimp only; rw [nextSignificant?_eq, ← he, ← h.head?, Option.all_map], h⟩

/-- Items are answered one after the other. -/
theorem answers_items {item : Production Item} {fuel : Nat} {ps : List Phrase}
    (hi : ∀ phrase ∈ ps, ∀ {q : Parser} {r : List Lexeme}, Carries q.rest (phrase.lexemes ++ r) →
      Phrase.Follows r → Answers phrase.HasRepeat item q fun _ q => Carries q.rest r)
    (h : Carries p.rest (Phrase.lexemesAll ps ++ r)) (hr : Phrase.Closes r)
    (hf : ps.length < fuel) :
    Answers (Phrase.AnyRepeat ps) (items item fuel) p fun _ q => Carries q.rest r := by
  induction fuel generalizing p ps with
  | zero => exact absurd hf (Nat.not_lt_zero _)
  | succ fuel ih =>
    cases ps with
    | nil =>
      refine Accepts.answers ?_ not_false
      refine (accepts_atContainerEnd h (b := true) ?_).bind ?_
      · rcases hr with rfl | hr | hr <;> simp [Phrase.lexemesAll, *]
      · rintro _ q ⟨rfl, hq⟩
        exact .pure hq
    | cons phrase ps =>
      rw [Phrase.lexemesAll_cons, List.append_assoc] at h
      obtain ⟨m, hm⟩ := phrase.lexemes_eq_cons
      refine (accepts_atContainerEnd h (b := false) (by simp [hm])).bind_answers ?_
      rintro _ q ⟨rfl, hq⟩
      refine (hi phrase (by simp) hq (Phrase.follows_lexemesAll_append ps hr)).bind
        fun _ q₁ h₁ => ?_
      exact (ih (fun phrase hp => hi phrase (by simp [hp])) h₁
        (Nat.lt_of_succ_lt_succ hf)).bind_accepts fun _ _ h₂ => .pure h₂

/-- A container below the root is refused if it repeats a key. -/
theorem answers_checked {list : List Item} (h : Carries p.rest s) :
    Answers (p.depth ≠ 1 ∧ Phrase.RepeatsKey (Item.phraseAll list)) (checked list) p
      fun _ q => Carries q.rest s := by
  have hiff : (∃ c, Container.of list (p.depth == 1) = .ok c) ↔ _ := Container.of_eq_ok_iff
  cases hc : Container.of list (p.depth == 1) with
  | ok c =>
    refine .inl ⟨fun ⟨hd, hr⟩ => hiff.mp ⟨c, hc⟩ (by simpa using hd) hr, .of_eq (a := c) ?_ h⟩
    rw [checked, hc]
  | error e =>
    refine .inr ⟨?_, e, p, by rw [checked, hc]⟩
    simp only [hc, reduceCtorEq, exists_false, false_iff, Classical.not_imp,
      Classical.not_not] at hiff
    exact ⟨by simpa using hiff.1, hiff.2⟩

theorem answers_containerOf {item : Production Item} {ps : List Phrase} (hs : Scripted item)
    (hreads : ∀ {p q : Parser} {i : Item}, item p = .matched i q →
      Reads p.rest i.print i.phrase.lexemes q.rest)
    (hi : ∀ phrase ∈ ps, ∀ {q : Parser} {r : List Lexeme}, Carries q.rest (phrase.lexemes ++ r) →
      Phrase.Follows r → Answers phrase.HasRepeat item q fun _ q => Carries q.rest r)
    (h : Carries p.rest (Phrase.lexemesAll ps ++ r)) (hr : Phrase.Closes r) :
    Answers (Phrase.AnyRepeat ps ∨ p.depth ≠ 0 ∧ Phrase.RepeatsKey ps) (containerOf item) p
      fun _ q => Carries q.rest r := by
  have hlen := h.length_le
  have hps := Phrase.length_le_lexemesAll ps
  rw [List.length_append] at hlen
  have hitems : Answers (Phrase.AnyRepeat ps)
      (items item ((p.enter "container").remaining + 1)) (p.enter "container")
      fun _ q => Carries q.rest r :=
    answers_items hi h hr (by rw [remaining_eq, rest_enter]; omega)
  refine .attempt <| ((hitems.kept (scriptedItems hs _)).with_eq).bind ?_
  rintro list q ⟨⟨hq, hd⟩, he⟩
  -- The items that were read derive what the phrases derive, so they are those phrases.
  have hread := (reads_of_items hreads he).significant_eq
  rw [rest_enter, h.significant, hq.significant] at hread
  obtain ⟨rfl, -⟩ := Phrase.lexemesAll_append_inj _ _ hr hr hread
  refine (answers_checked hq).congr ?_
  rw [hd, depth_enter]
  simp

theorem answers_containerWithin {fuel : Nat} {ps : List Phrase}
    (h : Carries p.rest (Phrase.lexemesAll ps ++ r)) (hr : Phrase.Closes r)
    (hf : (Phrase.lexemesAll ps).length < fuel) :
    Answers (Phrase.AnyRepeat ps ∨ p.depth ≠ 0 ∧ Phrase.RepeatsKey ps) (containerWithin fuel) p
      fun _ q => Carries q.rest r := by
  -- The fuel bounds the length of the sentence, of which that of a block's container is a part.
  induction fuel generalizing p ps r with
  | zero => exact absurd hf (Nat.not_lt_zero _)
  | succ fuel ih =>
    refine answers_containerOf (scriptedItemOf (scriptedContainerWithin fuel))
      (reads_of_itemOf (readsContainers_containerWithin fuel) (scriptedContainerWithin fuel))
      (fun phrase hp q r hq hfollows => ?_) h hr
    -- A block's container is a part of its item, so its sentence is shorter.
    refine answers_itemOf (scriptedContainerWithin fuel) hq hfollows fun hlt hd hin => ?_
    have hle := Phrase.length_lexemes_le hp
    exact (ih hin (.inr (.inl rfl)) (by omega)).congr (by simp [hd, or_comm])

theorem answers_container {ps : List Phrase}
    (h : Carries p.rest (Phrase.lexemesAll ps ++ r)) (hr : Phrase.Closes r) :
    Answers (Phrase.AnyRepeat ps ∨ p.depth ≠ 0 ∧ Phrase.RepeatsKey ps) Parser.container p
      fun _ q => Carries q.rest r := by
  have hlen := h.length_le
  rw [List.length_append] at hlen
  have hwithin : Answers (Phrase.AnyRepeat ps ∨ p.depth ≠ 0 ∧ Phrase.RepeatsKey ps)
      (containerWithin (p.remaining + 1)) p fun _ q => Carries q.rest r :=
    answers_containerWithin h hr (by rw [remaining_eq]; omega)
  exact hwithin.of_apply rfl

end blocks

/-! ## Documents -/

theorem accepts_nothingLeft (h : Carries p.rest [.streamEnd]) (hs : Settled p.rest) :
    Accepts nothingLeft p fun _ _ => True := by
  obtain ⟨line, rest, hp, -⟩ := h.eq_cons hs
  refine Accepts.bind (.of_eq rfl (P := fun t? _ => t? = some ⟨.streamEnd, line⟩)
    (peek?_of_rest hp)) ?_
  rintro _ q rfl
  exact .pure trivial

/-- A document is accepted at the root unless a braced container repeats a key. -/
theorem answers_document {ps : List Phrase} (hd : p.depth = 0)
    (h : Carries p.rest (.streamStart :: (Phrase.lexemesAll ps ++ [.streamEnd])))
    (hs : Settled p.rest) :
    Answers (Phrase.AnyRepeat ps) document p fun _ _ => True := by
  refine Accepts.bind_answers (.of_eq rfl (P := fun _ q => q = p) rfl) ?_
  rintro n _ rfl
  refine Accepts.bind_answers (.of_eq rfl
    (P := fun _ q => q.depth = 0 ∧ Carries q.rest _ ∧ Settled q.rest) ⟨hd, h, hs⟩) ?_
  rintro _ p₂ ⟨hd₂, h₂, hs₂⟩
  have hstart : Accepts streamStart p₂ fun _ q =>
      Carries q.rest (Phrase.lexemesAll ps ++ [.streamEnd]) :=
    accepts_take h₂ hs₂ fun _ => ⟨(), rfl, fun _ hq => hq⟩
  refine (hstart.optional.kept (.optional (.take _))).bind_answers fun _ p₃ h₃ => ?_
  refine ((accepts_trivia h₃.1).kept scriptedTrivia).bind_answers fun _ p₄ h₄ => ?_
  have hroot : p₄.depth = 0 := by rw [h₄.2, h₃.2, hd₂]
  refine Answers.bind_accepts ((answers_container h₄.1.1 (.inr (.inr rfl))).congr
    (by simp [hroot])) fun _ p₅ h₅ => ?_
  refine (accepts_trivia h₅).bind fun _ p₆ h₆ => ?_
  refine (accepts_nothingLeft h₆.1 h₆.2).bind fun _ p₇ _ => ?_
  exact ⟨_, _, rfl, trivial⟩

end Parser

end LookML
