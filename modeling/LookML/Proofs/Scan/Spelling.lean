import LookML.Proofs.Scan.Step

/-!
# Spelling — the text that a sequence of tokens was scanned from

Every token of a scan stands for its source, with one exception: a lone `;` is scanned as the end
of an expression, whose source is `;;`.  The relation `Spells` says so for a whole sequence, and a
scan that goes through spells its text.  After the text of an expression the end is always there,
so a sequence in which ends stand nowhere else is spelled exactly.
-/

namespace LookML

/-! ## Ends of expressions -/

/-- Whether each expression is followed by its end at once, and no end stands elsewhere.  The
start and the end of the stream have no place here either. -/
def Lexeme.Paired : List Lexeme → Prop
  | [] => True
  | .expression _ :: .expressionEnd :: rest => Paired rest
  | .expression _ :: _ => False
  | .expressionEnd :: _ => False
  | .streamStart :: _ => False
  | .streamEnd :: _ => False
  | _ :: rest => Paired rest

theorem Lexeme.Paired.streamEnd_notMem {lexemes : List Lexeme} (h : Paired lexemes) :
    .streamEnd ∉ lexemes := by
  fun_induction Paired lexemes with
  | case1 => simp
  | case2 _ rest ih => simpa using ih h
  | case3 | case4 | case5 | case6 => exact h.elim
  | case7 l rest _ _ _ _ hend ih => simpa [Ne.symm hend] using ih h

/-- Whether a lexeme is part of a source and no expression. -/
def Lexeme.IsPlain : Lexeme → Prop
  | .streamStart | .streamEnd | .expression _ => False
  | _ => True

namespace Token

/-! ## Runs of tokens -/

/-- The lexemes of a run of tokens without its trivia. -/
def significant (tokens : List Token) : List Lexeme :=
  (tokens.map lexeme).filter (!·.isTrivia)

@[simp] theorem significant_nil : significant [] = [] := rfl

theorem significant_append (a b : List Token) :
    significant (a ++ b) = significant a ++ significant b := by
  simp [significant]

theorem significant_cons_of_trivia {t : Token} (h : t.isTrivia = true) (tokens : List Token) :
    significant (t :: tokens) = significant tokens := by
  simp [significant, show t.lexeme.isTrivia = true from h]

theorem significant_cons_of_not_trivia {t : Token} (h : t.isTrivia = false)
    (tokens : List Token) : significant (t :: tokens) = t.lexeme :: significant tokens := by
  simp [significant, show t.lexeme.isTrivia = false from h]

theorem significant_eq_nil {tokens : List Token} (h : ∀ t ∈ tokens, t.isTrivia = true) :
    significant tokens = [] := by
  simpa [significant, isTrivia] using h

@[simp] theorem sourceAll_nil : sourceAll [] = "" := rfl

theorem sourceAll_cons (t : Token) (tokens : List Token) :
    sourceAll (t :: tokens) = t.source ++ sourceAll tokens := by
  simp [sourceAll]

theorem sourceAll_append (a b : List Token) : sourceAll (a ++ b) = sourceAll a ++ sourceAll b := by
  simp [sourceAll]

/-! ## Spelling -/

/-- The text from which a sequence of tokens can have been scanned. -/
inductive Spells : List Token → List Char → Prop where
  | nil : Spells [] []
  | plain {t : Token} {ts : List Token} {text : List Char} (h : t.lexeme.IsPlain)
      (rest : Spells ts text) : Spells (t :: ts) (t.source.toList ++ text)
  | expression {e : String} {l l' : Nat} {ts : List Token} {text : List Char}
      (rest : Spells ts text) :
      Spells (⟨.expression e, l⟩ :: ⟨.expressionEnd, l'⟩ :: ts) (e.toList ++ ';' :: ';' :: text)
  | lone {l : Nat} {ts : List Token} {text : List Char}
      (h : startsExpressionEnd (';' :: text) = false) (rest : Spells ts text) :
      Spells (⟨.expressionEnd, l⟩ :: ts) (';' :: text)

/-- Where every end belongs to an expression, the text is the source of the tokens. -/
theorem Spells.toList_sourceAll {ts : List Token} {text : List Char} (h : Spells ts text)
    {after : List Lexeme} (hp : Lexeme.Paired (significant ts ++ after)) :
    (sourceAll ts).toList = text := by
  induction h with
  | nil => rfl
  | @plain t ts text ht rest ih =>
    rw [sourceAll_cons, String.toList_append, ih]
    obtain ⟨lexeme, line⟩ := t
    cases lexeme <;> simp_all [Lexeme.IsPlain, significant, Lexeme.isTrivia, Lexeme.Paired]
  | @expression e l l' ts text rest ih =>
    rw [sourceAll_cons, sourceAll_cons, String.toList_append, String.toList_append, ih (by
      simpa [significant, Lexeme.isTrivia, Lexeme.Paired] using hp)]
    simp [source, Lexeme.source]
  | lone h rest ih => simp [significant, Lexeme.isTrivia, Lexeme.Paired] at hp

/-- In a spelled sequence, the end of an expression follows at once. -/
theorem Spells.expressionEnd_next {ts : List Token} {text : List Char} (h : Spells ts text) :
    ∀ {a b : List Token} {e : String} {l : Nat}, ts = a ++ ⟨.expression e, l⟩ :: b →
      ∃ l' c, b = ⟨.expressionEnd, l'⟩ :: c := by
  induction h with
  | nil =>
    intro a b e l hs
    simp at hs
  | plain ht rest ih =>
    intro a b e l hs
    cases a with
    | nil =>
      obtain ⟨rfl, -⟩ := List.cons.inj hs
      exact ht.elim
    | cons t a => exact ih (List.cons.inj hs).2
  | expression rest ih =>
    intro a b e l hs
    match a, hs with
    | [], hs => exact ⟨_, _, (List.cons.inj hs).2.symm⟩
    | [t], hs => simp at hs
    | t :: t' :: a, hs => exact ih (List.cons.inj (List.cons.inj hs).2).2
  | lone ht rest ih =>
    intro a b e l hs
    cases a with
    | nil => simp at hs
    | cons t a => exact ih (List.cons.inj hs).2

/-- A spelled sequence has no stream tokens. -/
theorem Spells.not_stream {ts : List Token} {text : List Char} (h : Spells ts text) :
    ∀ t ∈ ts, t.lexeme ≠ .streamStart ∧ t.lexeme ≠ .streamEnd := by
  induction h with
  | nil => simp
  | @plain t ts text ht rest ih =>
    intro t' ht'
    rcases List.mem_cons.mp ht' with rfl | ht'
    · obtain ⟨lexeme, line⟩ := t'
      cases lexeme <;> simp_all [Lexeme.IsPlain]
    · exact ih t' ht'
  | expression rest ih => simpa using ih
  | lone ht rest ih => simpa using ih

/-- A sequence that spells a text with an end at its front begins with an end that is spelled
out. -/
theorem Spells.tail_of_expressionEnd {l : Nat} {ts : List Token} {text : List Char}
    (h : Spells (⟨.expressionEnd, l⟩ :: ts) (';' :: ';' :: text)) : Spells ts text := by
  generalize htext : ';' :: ';' :: text = whole at h
  cases h with
  | @plain t ts text' ht rest =>
    have : text = text' := by simpa [source, Lexeme.source] using htext
    exact this ▸ rest
  | lone hl rest =>
    rw [← htext] at hl
    simp [startsExpressionEnd] at hl

/-! ## Steps -/

/-- What a step does that goes on with `left` after `text`: it emits one plain token, scans a lone
`;`, or emits a key with its expression and leaves the end of the expression. -/
inductive StepSpells (text : List Char) (tokens : List Token) (left : List Char) : Prop where
  | plain (t : Token) (ht : tokens = [t]) (h : t.lexeme.IsPlain)
      (htext : text = t.source.toList ++ left)
  | lone (line : Nat) (ht : tokens = [⟨.expressionEnd, line⟩]) (htext : text = ';' :: left)
      (h : startsExpressionEnd text = false)
  | expression (key e : String) (line : Nat)
      (ht : tokens = [⟨.word key, line⟩, ⟨.mark .colon, line⟩, ⟨.expression e, line⟩])
      (htext : text = key.toList ++ ':' :: (e.toList ++ left))
      (h : startsExpressionEnd left = true)

theorem Step.one_next {lexeme : Lexeme} {line after next : Nat} {rest left : List Char}
    (h : (Step.one lexeme line after rest).next = .ok (next, left)) : left = rest := by
  simp only [Step.one, Except.ok.injEq, Prod.mk.injEq] at h
  exact h.2.symm

/-- A character with a lexeme of its own is its source, except that a semicolon is doubled. -/
theorem Lexeme.ofChar?_eq_some {c : Char} {l : Lexeme} (h : Lexeme.ofChar? c = some l) :
    l = .expressionEnd ∧ c = ';' ∨ l.IsPlain ∧ l.source.toList = [c] := by
  unfold Lexeme.ofChar? at h
  split at h <;> simp only [Option.some.injEq, reduceCtorEq] at h <;> subst h
  · exact .inr ⟨trivial, rfl⟩
  · exact .inr ⟨trivial, rfl⟩
  · exact .inr ⟨trivial, rfl⟩
  · exact .inr ⟨trivial, rfl⟩
  · exact .inr ⟨trivial, rfl⟩
  · exact .inr ⟨trivial, rfl⟩
  · exact .inl ⟨rfl, rfl⟩

theorem stepSpells_step {line after : Nat} {c : Char} {rest left : List Char}
    (h : (step line c rest).next = .ok (after, left)) :
    StepSpells (c :: rest) (step line c rest).tokens left := by
  have hs := stepCase_step line c rest
  generalize step line c rest = s at h hs
  -- One case for each way a step can go.
  cases hs with
  | breaks hb =>
    obtain rfl := Step.one_next h
    exact .plain _ rfl trivial (by
      rw [source, Lexeme.source, String.toList_ofList, append_breaks])
  | blanks hb hw =>
    obtain rfl := Step.one_next h
    exact .plain _ rfl trivial (by
      rw [source, Lexeme.source, String.toList_ofList, append_blanks])
  | comment =>
    obtain rfl := Step.one_next h
    exact .plain _ rfl trivial (by
      simp [source, Lexeme.source, append_comment])
  | quoted =>
    obtain ⟨span, hq, rfl, ht⟩ := quotedStep_of_next h
    exact .plain _ ht trivial (by simp [source, Lexeme.source, ← append_of_quoted? hq])
  | ending =>
    obtain rfl := Step.one_next h
    exact .plain _ rfl trivial (by simp [source, Lexeme.source])
  | mark hl he =>
    obtain rfl := Step.one_next h
    rcases Lexeme.ofChar?_eq_some hl with ⟨rfl, rfl⟩ | ⟨hp, hsrc⟩
    · exact .lone _ rfl rfl he
    · exact .plain _ rfl hp (by rw [source, hsrc, List.singleton_append])
  | @expression _ _ key ho hk =>
    -- The key stands at the front, so what is left of it is the colon and the expression.
    obtain ⟨text, ht⟩ := eq_append_of_expressionKeyOf? hk
    rw [drop_of_eq_append ht] at h ⊢
    obtain ⟨taken, he, htokens⟩ := expressionStep_of_next h
    obtain ⟨happ, hend⟩ := expression?_eq_some he
    exact .expression key (String.ofList taken) line htokens
      (by rw [ht, String.toList_ofList, happ]) hend
  | word ho hk =>
    obtain rfl := Step.one_next h
    exact .plain _ rfl trivial (by
      rw [source, Lexeme.source, String.toList_ofList, List.cons_append, append_wordTail])

/-! ## Scans -/

/-- A scan that goes through spells its text, before the end token. -/
theorem spells_ofChars (line : Nat) (text : List Char)
    (h : (Scan.ofChars line text).error? = none) :
    ∃ body last, (Scan.ofChars line text).tokens = body ++ [⟨.streamEnd, last⟩] ∧
      Spells body text := by
  fun_induction Scan.ofChars line text with
  | case1 line => exact ⟨[], line, rfl, .nil⟩
  | case2 line c rest e he => simp at h
  | case3 line c rest next left hn ih =>
    obtain ⟨body, last, hb, hs⟩ := ih h
    rw [Scan.after, hb]
    cases stepSpells_step hn with
    | plain t ht hp htext =>
      rw [ht, htext]
      exact ⟨t :: body, last, rfl, .plain hp hs⟩
    | lone l ht htext he =>
      rw [htext] at he ⊢
      rw [ht]
      exact ⟨⟨.expressionEnd, l⟩ :: body, last, rfl, .lone he hs⟩
    | expression key e l ht htext he =>
      -- The end of the expression comes next, so the next step emits it.
      obtain ⟨text, rfl⟩ := startsExpressionEnd_eq_true he
      rw [ofChars_ending] at hb
      obtain ⟨ts, rfl⟩ : ∃ ts, body = ⟨.expressionEnd, next⟩ :: ts := by
        cases body with
        | nil => simp [Scan.after] at hb
        | cons t ts => exact ⟨ts, by rw [← (List.cons.inj hb).1]⟩
      refine ⟨⟨.word key, l⟩ :: ⟨.mark .colon, l⟩ :: ⟨.expression e, l⟩ ::
        ⟨.expressionEnd, next⟩ :: ts, last, by rw [ht]; rfl, ?_⟩
      rw [htext, show ':' :: (e.toList ++ ';' :: ';' :: text) =
        Mark.colon.symbol.toList ++ (e.toList ++ ';' :: ';' :: text) by simp [Mark.symbol]]
      exact .plain (t := ⟨.word key, l⟩) trivial (.plain (t := ⟨.mark .colon, l⟩) trivial
        (.expression hs.tail_of_expressionEnd))

/-- The tokens of a source: a start, tokens that spell the source, and an end. -/
theorem tokenize_eq_ok {source : String} {tokens : List Token} (h : tokenize source = .ok tokens) :
    ∃ body last, tokens = ⟨.streamStart, 1⟩ :: (body ++ [⟨.streamEnd, last⟩]) ∧
      Spells body source.toList := by
  obtain ⟨herror, htokens⟩ := tokenize_eq_ok_iff.mp h
  obtain ⟨body, last, hb, hspells⟩ := spells_ofChars 1 source.toList herror
  exact ⟨body, last, by rw [← htokens, hb], hspells⟩

/-! ## Sentences -/

/-- The sentence of some tokens: their lexemes without trivia and the ends of the stream. -/
def sentence (tokens : List Token) : List Lexeme :=
  (significant tokens).filter fun l => l != .streamStart && l != .streamEnd

theorem significant_stream (body : List Token) (line last : Nat) :
    significant (⟨.streamStart, line⟩ :: (body ++ [⟨.streamEnd, last⟩])) =
      .streamStart :: (significant body ++ [.streamEnd]) := by
  simp [significant, Lexeme.isTrivia]

theorem Spells.sentence_eq {body : List Token} {text : List Char} {line last : Nat}
    (h : Spells body text) :
    sentence (⟨.streamStart, line⟩ :: (body ++ [⟨.streamEnd, last⟩])) = significant body := by
  have hkeep : (significant body).filter (fun l => l != .streamStart && l != .streamEnd) =
      significant body := by
    refine List.filter_eq_self.mpr fun l hl => ?_
    obtain ⟨t, ht, rfl⟩ := List.mem_map.mp (List.mem_filter.mp hl).1
    simpa using h.not_stream t ht
  simp [sentence, significant_stream, hkeep]

end Token

end LookML
