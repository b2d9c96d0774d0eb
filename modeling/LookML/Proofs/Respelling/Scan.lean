import LookML.Proofs.Respelling.Text
import LookML.Proofs.Scan.Stability
import Mathlib.Data.List.Find

/-!
# Line ends in a scan — the same tokens, with the line ends in their texts

A source without carriage returns has the same tokens when its line ends are Windows line ends: of
the same kinds, on the same lines, with the line ends replaced in their texts.  Each run ends where
it did, since a carriage return stands only before a line feed and no run ends between the two; a
backslash before a line end escapes the carriage return and leaves the line feed to itself.
-/

namespace LookML

/-! ## Respelled tokens -/

namespace Respelling

variable (r : Respelling)

def lexeme : Lexeme → Lexeme
  | .blanks text => .blanks (r.text text)
  | .breaks text => .breaks (r.text text)
  | .comment text => .comment (r.text text)
  | .word text => .word (r.text text)
  | .quoted raw text => .quoted (r.raw raw text) (r.text text)
  | .expression text => .expression (r.text text)
  | .streamStart => .streamStart
  | .streamEnd => .streamEnd
  | .expressionEnd => .expressionEnd
  | .mark m => .mark m

/-- A token on the same line with its texts respelled. -/
def token (token : Token) : Token :=
  { token with lexeme := r.lexeme token.lexeme }

theorem text_eq_self_of_bare {w : String} (h : Builder.isBareWord w = true) : r.text w = w := by
  obtain ⟨c, rest, rfl⟩ := Token.exists_cons_of_isBareWord h
  apply r.text_eq_self
  intro d hd
  have := (Token.isBareWord_iff.mp h).2.2 d (by simpa using hd)
  simp only [Builder.breaksWord, Bool.or_eq_false_iff] at this
  exact this.1.1.1.1.1.1.1.1

end Respelling

namespace Token

open Respelling (crlf)

/-! ## Runs -/

theorem chars_crlf_cons_of_ne {c : Char} (h : c ≠ '\n') (rest : List Char) :
    crlf.chars (c :: rest) = c :: crlf.chars rest := by
  rw [crlf.chars_cons, show crlf.char c = [c] from Text.crlfChar_of_ne h]
  rfl

theorem chars_crlf_cons_lineFeed (rest : List Char) :
    crlf.chars ('\n' :: rest) = '\r' :: '\n' :: crlf.chars rest := rfl

/-- A condition that a line end of either kind satisfies alike, both where it starts and, if it is
passed over, at its line feed, and that any other character satisfies alike before either. -/
structure IgnoresReturns (p : List Char → Bool) : Prop where
  lineFeed : ∀ rest, p ('\r' :: '\n' :: crlf.chars rest) = p ('\n' :: rest)
  inner : ∀ rest, p ('\n' :: rest) = true → p ('\n' :: crlf.chars rest) = true
  other : ∀ {c : Char} rest, c ≠ '\n' → c ≠ '\r' → p (c :: crlf.chars rest) = p (c :: rest)

theorem splitWhile_crlf {p : List Char → Bool} (hp : IgnoresReturns p) {text : List Char}
    (h : '\r' ∉ text) : splitWhile p (crlf.chars text) =
      (crlf.chars (splitWhile p text).1, crlf.chars (splitWhile p text).2) := by
  induction text with
  | nil => rfl
  | cons c rest ih =>
    obtain ⟨hc, hrest⟩ : c ≠ '\r' ∧ '\r' ∉ rest := by
      simpa [eq_comm] using h
    have hi := ih hrest
    by_cases hl : c = '\n'
    · subst hl
      rw [chars_crlf_cons_lineFeed, splitWhile, splitWhile, splitWhile, hp.lineFeed, hi]
      by_cases ht : p ('\n' :: rest) = true
      · simp only [ht, hp.inner rest ht, if_true]
        rfl
      · simp only [if_neg ht]
        rfl
    · rw [chars_crlf_cons_of_ne hl, splitWhile, splitWhile, hp.other rest hl hc, hi]
      by_cases ht : p (c :: rest) = true
      · simp only [if_pos ht, chars_crlf_cons_of_ne hl]
      · simp only [if_neg ht, chars_crlf_cons_of_ne hl, Respelling.chars_nil]

theorem startsBreak_of_ne {c : Char} (hl : c ≠ '\n') (hc : c ≠ '\r') (rest : List Char) :
    startsBreak (c :: rest) = false := by
  unfold startsBreak
  split <;> simp_all

theorem ignoresReturns_startsBreak : IgnoresReturns startsBreak where
  lineFeed _ := rfl
  inner _ _ := rfl
  other rest hl hc := by rw [startsBreak_of_ne hl hc, startsBreak_of_ne hl hc]

theorem ignoresReturns_startsBlank : IgnoresReturns startsBlank where
  lineFeed _ := rfl
  inner _ h := by simp [startsBlank] at h
  other rest hl hc := by
    simp only [startsBlank, startsBreak_of_ne hl hc]

theorem IgnoresReturns.not_startsBreak : IgnoresReturns (!startsBreak ·) where
  lineFeed _ := rfl
  inner _ h := by simp [startsBreak] at h
  other rest hl hc := by simp only [startsBreak_of_ne hl hc]

theorem ignoresReturns_continuesWord : IgnoresReturns continuesWord where
  lineFeed _ := rfl
  inner _ h := by simp [continuesWord, endsWord] at h
  other _ _ _ := rfl

theorem head?_chars_crlf_eq_semicolon (text : List Char) :
    (crlf.chars text).head? = some ';' ↔ text.head? = some ';' := by
  cases text with
  | nil => simp
  | cons c rest =>
    by_cases hc : c = '\n'
    · subst hc
      simp [chars_crlf_cons_lineFeed]
    · simp [chars_crlf_cons_of_ne hc]

theorem startsExpressionEnd_cons (c : Char) (rest : List Char) :
    startsExpressionEnd (c :: rest) = true ↔ c = ';' ∧ rest.head? = some ';' := by
  constructor
  · intro h
    obtain ⟨left, hl⟩ := startsExpressionEnd_eq_true h
    obtain ⟨rfl, rfl⟩ := List.cons.inj hl
    exact ⟨rfl, rfl⟩
  · rintro ⟨rfl, h⟩
    cases rest with
    | nil => simp at h
    | cons d rest =>
      obtain rfl : d = ';' := by simpa using h
      rfl

theorem startsExpressionEnd_crlf {c : Char} (rest : List Char) :
    startsExpressionEnd (c :: crlf.chars rest) = startsExpressionEnd (c :: rest) := by
  rw [Bool.eq_iff_iff, startsExpressionEnd_cons, startsExpressionEnd_cons,
    head?_chars_crlf_eq_semicolon]

theorem IgnoresReturns.not_startsExpressionEnd : IgnoresReturns (!startsExpressionEnd ·) where
  lineFeed _ := rfl
  inner _ _ := rfl
  other rest _ _ := by rw [startsExpressionEnd_crlf]

theorem lineFeeds_crlf (text : List Char) : lineFeeds (crlf.chars text) = lineFeeds text := by
  induction text with
  | nil => rfl
  | cons c rest ih =>
    unfold lineFeeds at ih ⊢
    by_cases hc : c = '\n'
    · subst hc
      simp [chars_crlf_cons_lineFeed, ih]
    · rw [chars_crlf_cons_of_ne hc, List.count_cons, List.count_cons, ih]

/-! ## Pieces with a structure -/

/-- A quoted literal with the line ends replaced in its texts and in what follows it. -/
def QuotedSpan.crlf (span : QuotedSpan) : QuotedSpan :=
  ⟨Respelling.crlf.chars span.raw, Respelling.crlf.chars span.text,
    Respelling.crlf.chars span.left⟩

theorem needsEscape_of_ne {c : Char} (hq : c ≠ '"') (hb : c ≠ '\\') :
    Text.needsEscape c = false := by
  simp [Text.needsEscape, hq, hb]

theorem quoted?_crlf (text : List Char) :
    quoted? (crlf.chars text) = (quoted? text).map QuotedSpan.crlf := by
  fun_induction quoted? text with
  | case1 => rfl
  | case2 rest =>
    rw [chars_crlf_cons_of_ne (by decide), quoted?_quote]
    rfl
  | case3 => rfl
  | case4 e rest _ ih =>
    rw [chars_crlf_cons_of_ne (by decide)]
    by_cases he : e = '\n'
    · -- The backslash escapes the carriage return, and the line feed stands for itself.
      subst he
      rw [chars_crlf_cons_lineFeed, quoted?_escaped, quoted?_plain (by decide), ih]
      simp only [Option.map_map]
      rfl
    · rw [chars_crlf_cons_of_ne he, quoted?_escaped, ih]
      simp only [Option.map_map]
      congr 1
      funext span
      simp [QuotedSpan.crlf, QuotedSpan.escaped, chars_crlf_cons_of_ne he,
        chars_crlf_cons_of_ne (show '\\' ≠ '\n' by decide)]
  | case5 c rest hq hb ih =>
    by_cases hc : c = '\n'
    · subst hc
      rw [chars_crlf_cons_lineFeed, quoted?_plain (by decide), quoted?_plain (by decide), ih]
      simp only [Option.map_map]
      rfl
    · rw [chars_crlf_cons_of_ne hc, quoted?_plain (needsEscape_of_ne hq hb), ih]
      simp only [Option.map_map]
      congr 1
      funext span
      simp [QuotedSpan.crlf, QuotedSpan.plain, chars_crlf_cons_of_ne hc]

theorem expression?_crlf {text : List Char} (h : '\r' ∉ text) :
    expression? (crlf.chars text) =
      (expression? text).map fun span => (crlf.chars span.1, crlf.chars span.2) := by
  unfold expression?
  rw [splitWhile_crlf .not_startsExpressionEnd h]
  dsimp only
  by_cases hn : (splitWhile (!startsExpressionEnd ·) text).2 = []
  · simp [hn]
  · have hn' : crlf.chars (splitWhile (!startsExpressionEnd ·) text).2 ≠ [] :=
      fun he => hn (crlf.injective he)
    rw [if_neg hn, if_neg hn']
    rfl

/-! ## Expression keys -/

theorem prefix_crlf_iff {key : List Char} (hk : ∀ c ∈ key, c ≠ '\n' ∧ c ≠ '\r') (text : List Char) :
    key <+: crlf.chars text ↔ key <+: text := by
  induction key generalizing text with
  | nil => simp
  | cons k key ih =>
    obtain ⟨hl, hr⟩ := hk k (by simp)
    cases text with
    | nil => simp
    | cons c rest =>
      by_cases hc : c = '\n'
      · subst hc
        simp [chars_crlf_cons_lineFeed, List.cons_prefix_cons, hl, hr]
      · rw [chars_crlf_cons_of_ne hc, List.cons_prefix_cons, List.cons_prefix_cons,
          ih fun d hd => hk d (by simp [hd])]

/-- No line end is part of an expression key with its colon. -/
theorem expressionKeyOf?_crlf (text : List Char) :
    Keys.expressionKeyOf? ((crlf.chars text).take Keys.lookahead) =
      Keys.expressionKeyOf? (text.take Keys.lookahead) := by
  unfold Keys.expressionKeyOf?
  apply List.find?_congr
  intro key hmem
  obtain ⟨hbare, hlen⟩ := Keys.bare_of_mem_expressionKeys key hmem
  have hchars : ∀ c ∈ key.toList ++ [':'], c ≠ '\n' ∧ c ≠ '\r' := by
    intro c hc
    rcases List.mem_append.mp hc with hc | hc
    · have := endsWord_of_isBareWord hbare c hc
      constructor <;> rintro rfl <;> simp [endsWord] at this
    · rw [List.mem_singleton.mp hc]
      decide
  rw [Bool.eq_iff_iff, List.isPrefixOf_iff_prefix, List.isPrefixOf_iff_prefix,
    List.prefix_take_iff, List.prefix_take_iff, prefix_crlf_iff hchars]

/-! ## Steps -/

/-- What a step leaves has no carriage return if the text has none. -/
theorem return_notMem_of_step {line after : Nat} {c : Char} {rest left : List Char}
    {tokens : List Token} (h : step line c rest = ⟨tokens, .ok (after, left)⟩)
    (hr : '\r' ∉ c :: rest) : '\r' ∉ left := by
  obtain ⟨taken, htext, -⟩ := exists_taken h
  rw [htext] at hr
  exact fun hmem => hr (List.mem_append_right taken hmem)

/-- A step with the line ends replaced in what it emits and in what it leaves. -/
def Step.crlf (step : Step) : Step :=
  ⟨step.tokens.map Respelling.crlf.token,
    step.next.map fun next => (next.1, Respelling.crlf.chars next.2)⟩

theorem Step.crlf_one (lexeme : Lexeme) (line after : Nat) (left : List Char) :
    (Step.one lexeme line after left).crlf =
      .one (Respelling.crlf.lexeme lexeme) line after (Respelling.crlf.chars left) := rfl

theorem stepsTo_crlf_of_ne {line : Nat} {c : Char} {rest : List Char} {first : Step}
    (hl : c ≠ '\n') (h : step line c (crlf.chars rest) = first) :
    StepsTo line (crlf.chars (c :: rest)) first :=
  ⟨c, crlf.chars rest, chars_crlf_cons_of_ne hl rest, h⟩

section replaced

variable {c : Char} {rest : List Char} (line : Nat)

theorem stepsTo_crlf_breaks (h : '\r' ∉ '\n' :: rest) :
    StepsTo line (crlf.chars ('\n' :: rest))
      (Step.one (.breaks (String.ofList (breaks ('\n' :: rest)).1)) line
        (line + lineFeeds (breaks ('\n' :: rest)).1) (breaks ('\n' :: rest)).2).crlf := by
  have hcut := splitWhile_crlf ignoresReturns_startsBreak h
  rw [chars_crlf_cons_lineFeed] at hcut
  refine ⟨'\r', '\n' :: crlf.chars rest, rfl, ?_⟩
  rw [step_of_break line rfl, Step.crlf_one, breaks, breaks, hcut, lineFeeds_crlf,
    Respelling.lexeme, Respelling.text_ofList]

theorem stepsTo_crlf_blanks (hl : c ≠ '\n') (h : '\r' ∉ c :: rest)
    (hw : startsBlank (c :: rest) = true) :
    StepsTo line (crlf.chars (c :: rest))
      (Step.one (.blanks (String.ofList (blanks (c :: rest)).1)) line line
        (blanks (c :: rest)).2).crlf := by
  have hc : c ≠ '\r' := fun he => h (by simp [he])
  have hcut := splitWhile_crlf ignoresReturns_startsBlank h
  rw [chars_crlf_cons_of_ne hl] at hcut
  apply stepsTo_crlf_of_ne hl
  rw [step_of_blank line ((ignoresReturns_startsBlank.other rest hl hc).trans hw), Step.crlf_one,
    Token.blanks, Token.blanks, hcut, Respelling.lexeme, Respelling.text_ofList]

theorem stepsTo_crlf_comment (h : '\r' ∉ rest) :
    StepsTo line (crlf.chars ('#' :: rest))
      (Step.one (.comment (String.ofList (comment rest).1)) line line (comment rest).2).crlf := by
  apply stepsTo_crlf_of_ne (by decide)
  rw [step_hash, Step.crlf_one, comment, comment, splitWhile_crlf .not_startsBreak h,
    Respelling.lexeme, Respelling.text_ofList]

theorem stepsTo_crlf_quoted (rest : List Char) :
    StepsTo line (crlf.chars ('"' :: rest)) (quotedStep line rest).crlf := by
  apply stepsTo_crlf_of_ne (by decide)
  rw [step_quote, quotedStep, quotedStep, quoted?_crlf]
  cases quoted? rest with
  | none => rfl
  | some span =>
    rw [Step.crlf_one, Respelling.lexeme, Respelling.text_ofList, Respelling.crlf_raw,
      Respelling.text_ofList]
    simp only [Option.map_some, QuotedSpan.crlf, lineFeeds_crlf]

theorem stepsTo_crlf_mark {l : Lexeme} (hm : Lexeme.ofChar? c = some l)
    (he : startsExpressionEnd (c :: rest) = false) :
    StepsTo line (crlf.chars (c :: rest)) (Step.one l line line rest).crlf := by
  have hl : c ≠ '\n' := by
    rintro rfl
    simp [Lexeme.ofChar?] at hm
  have hlexeme : crlf.lexeme l = l := by
    rcases Lexeme.ofChar?_eq_some hm with ⟨rfl, -⟩ | ⟨hp, -⟩
    · rfl
    · unfold Lexeme.ofChar? at hm
      split at hm <;> simp only [Option.some.injEq, reduceCtorEq] at hm <;> subst hm <;> rfl
  apply stepsTo_crlf_of_ne hl
  rw [step_of_mark line hm ((startsExpressionEnd_crlf rest).trans he), Step.crlf_one, hlexeme]

theorem stepsTo_crlf_expression {key : String} {text : List Char}
    (hk : key ∈ Keys.expressionKeys) (h : '\r' ∉ text) :
    StepsTo line (crlf.chars (key.toList ++ ':' :: text)) (expressionStep key line text).crlf := by
  have hkey : crlf.text key = key :=
    crlf.text_eq_self_of_bare (Keys.bare_of_mem_expressionKeys key hk).1
  obtain ⟨d, rest', hd, hstep⟩ := step_key (by simpa [Keys.isExpression] using hk)
    (crlf.chars text)
  refine ⟨d, rest', ?_, ?_⟩
  · rw [crlf.chars_append, chars_crlf_cons_of_ne (by decide), ← crlf.toList_text, hkey, hd]
  · rw [hstep line, expressionStep, expressionStep, expression?_crlf h]
    cases expression? text with
    | none => simp [Step.crlf, Respelling.token, Respelling.lexeme, hkey, Except.map]
    | some span =>
      simp [Step.crlf, Respelling.token, Respelling.lexeme, hkey, Except.map, lineFeeds_crlf]

theorem stepsTo_crlf_word (h : '\r' ∉ c :: rest) (ho : OpensWord c rest)
    (hk : Keys.expressionKeyOf? ((c :: rest).take Keys.lookahead) = none) :
    StepsTo line (crlf.chars (c :: rest))
      (Step.one (.word (String.ofList (c :: (wordTail rest).1))) line line
        (wordTail rest).2).crlf := by
  obtain ⟨hc, hrest⟩ : c ≠ '\r' ∧ '\r' ∉ rest := by
    simpa [eq_comm] using h
  have hl : c ≠ '\n' := by
    rintro rfl
    simpa [startsBreak] using ho.not_break
  have ho' : OpensWord c (crlf.chars rest) :=
    ⟨startsBreak_of_ne hl hc _, (ignoresReturns_startsBlank.other rest hl hc).trans ho.not_blank,
      ho.not_hash, ho.not_quote, ho.not_mark⟩
  have hk' := expressionKeyOf?_crlf (c :: rest)
  rw [chars_crlf_cons_of_ne hl] at hk'
  apply stepsTo_crlf_of_ne hl
  rw [step_of_opensWord line ho', hk', hk, Step.crlf_one, wordTail, wordTail,
    splitWhile_crlf ignoresReturns_continuesWord hrest, Respelling.lexeme,
    Respelling.text_ofList, chars_crlf_cons_of_ne hl]

end replaced

/-- With its line ends replaced, a text is taken by the same step. -/
theorem stepsTo_crlf (line : Nat) {c : Char} {rest : List Char} (h : '\r' ∉ c :: rest) :
    StepsTo line (crlf.chars (c :: rest)) (step line c rest).crlf := by
  obtain ⟨hc, hrest⟩ : c ≠ '\r' ∧ '\r' ∉ rest := by
    simpa [eq_comm] using h
  have hs := stepCase_step line c rest
  generalize step line c rest = s at hs
  cases hs with
  | breaks hb =>
    obtain rfl : c = '\n' := by
      by_contra hl
      simp [startsBreak_of_ne hl hc] at hb
    exact stepsTo_crlf_breaks line h
  | blanks hb hw =>
    have hl : c ≠ '\n' := by
      rintro rfl
      simp [startsBreak] at hb
    exact stepsTo_crlf_blanks line hl h hw
  | comment => exact stepsTo_crlf_comment line hrest
  | quoted => exact stepsTo_crlf_quoted line rest
  | ending => exact ⟨';', ';' :: crlf.chars _, rfl, rfl⟩
  | mark hm he => exact stepsTo_crlf_mark line hm he
  | @expression _ _ key ho hk =>
    obtain ⟨text, ht⟩ := eq_append_of_expressionKeyOf? hk
    have htext : '\r' ∉ text := by
      rw [ht] at h
      exact fun hr => h (by simp [hr])
    rw [ht, drop_of_eq_append ht]
    exact stepsTo_crlf_expression line (Keys.mem_of_expressionKeyOf? hk) htext
  | word ho hk => exact stepsTo_crlf_word line h ho hk

end Token

/-! ## Scans -/

namespace Scan

/-- A scan with the line ends replaced in its tokens. -/
def crlf (scan : Scan) : Scan :=
  ⟨scan.tokens.map Respelling.crlf.token, scan.error?⟩

theorem crlf_after (tokens : List Token) (scan : Scan) :
    (scan.after tokens).crlf = scan.crlf.after (tokens.map Respelling.crlf.token) := by
  simp [crlf, after]

theorem ofChars_crlf (line : Nat) (text : List Char) (h : '\r' ∉ text) :
    ofChars line (Respelling.crlf.chars text) = (ofChars line text).crlf := by
  fun_induction ofChars line text with
  | case1 line =>
    rw [Respelling.chars_nil, ofChars]
    rfl
  | case2 line c rest e he =>
    have hs := Token.stepsTo_crlf line h
    rw [Token.Step.crlf, he] at hs
    rw [hs.ofChars_error]
    rfl
  | case3 line c rest next left hn ih =>
    have hs := Token.stepsTo_crlf line h
    rw [Token.Step.crlf, hn] at hs
    rw [hs.ofChars, ih (Token.return_notMem_of_step (Token.step_of_next hn) h), crlf_after]

end Scan

/-- With Windows line ends, a source has the same tokens on the same lines, with the line ends
replaced in their texts, or the same error. -/
theorem tokenize_crlf_eq {source : String} (h : '\r' ∉ source.toList) :
    tokenize (Respelling.crlf.text source) =
      (tokenize source).map (List.map Respelling.crlf.token) := by
  unfold tokenize scan Scan.ofText
  rw [Respelling.toList_text, Scan.ofChars_crlf 1 _ h]
  unfold Scan.result
  cases he : (Scan.ofChars 1 source.toList).error? with
  | none => simp [Scan.after, Scan.crlf, he, Except.map, Respelling.token, Respelling.lexeme]
  | some e => simp [Scan.after, Scan.crlf, he, Except.map]

end LookML
