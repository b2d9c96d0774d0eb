import LookML.Proofs.Scan.Reading

/-!
# Stability — the source of the tokens of a scan is scanned as the same tokens

A scan cuts its text into pieces, one for each step.  The tokens of a step stand for its piece,
except that a `;` that stands alone is scanned as the end of an expression, whose source is `;;`.
So the source of all tokens is the text with each lone `;` doubled.  Doubling changes nothing that
a step looks at: what comes next keeps its first character, and no step but the one at the `;`
itself reads on to the second.
-/

namespace LookML.Token

/-! ## The pieces of a scan -/

/-- What one step of a scan emits, and the text that it takes. -/
structure Cut where
  tokens : List Token
  text : List Char

namespace Cut

/-- Whether a cut is a `;` that was scanned by itself as the end of an expression. -/
def isLone (cut : Cut) : Bool :=
  cut.tokens.map lexeme == [.expressionEnd] && cut.text == [';']

/-- The text of a cut, a lone `;` doubled. -/
def doubled (cut : Cut) : List Char :=
  if cut.isLone then [';', ';'] else cut.text

end Cut

/-- The cuts of a scan of `text`, which starts on `line`.  What a scan cannot finish is the last
cut. -/
def cuts (line : Nat) (text : List Char) : List Cut :=
  match text with
  | [] => []
  | c :: rest =>
    match _h : (step line c rest).next with
    | .error _ => [⟨(step line c rest).tokens, c :: rest⟩]
    | .ok (next, left) =>
      ⟨(step line c rest).tokens, (c :: rest).take (rest.length + 1 - left.length)⟩ ::
        cuts next left
termination_by text.length
decreasing_by
  exact length_lt_of_step _h

theorem cuts_of_step {line after : Nat} {c : Char} {rest taken left : List Char}
    {tokens : List Token} (h : step line c rest = ⟨tokens, .ok (after, left)⟩)
    (htext : c :: rest = taken ++ left) :
    cuts line (c :: rest) = ⟨tokens, taken⟩ :: cuts after left := by
  have htake : (c :: rest).take (rest.length + 1 - left.length) = taken := by
    have hlen := congrArg List.length htext
    simp only [List.length_cons, List.length_append] at hlen
    rw [htext, hlen, Nat.add_sub_cancel, List.take_left]
  rw [cuts]
  split
  · rename_i e he
    rw [h] at he
    simp at he
  · rename_i next left' hn
    rw [h] at hn ⊢
    simp only [Except.ok.injEq, Prod.mk.injEq] at hn
    obtain ⟨rfl, rfl⟩ := hn
    rw [htake]

/-- What a step takes: the source of its tokens, or a lone `;`. -/
theorem exists_taken {line after : Nat} {c : Char} {rest left : List Char} {tokens : List Token}
    (h : step line c rest = ⟨tokens, .ok (after, left)⟩) :
    ∃ taken, c :: rest = taken ++ left ∧
      (sourceAll tokens).toList = Cut.doubled ⟨tokens, taken⟩ := by
  have hs : StepSpells (c :: rest) (step line c rest).tokens left :=
    stepSpells_step (congrArg Step.next h)
  rw [h] at hs
  cases hs with
  | plain t ht hp htext =>
    subst ht
    refine ⟨t.source.toList, htext, ?_⟩
    have hlone : Cut.isLone ⟨[t], t.source.toList⟩ = false := by
      obtain ⟨lexeme, l⟩ := t
      cases lexeme <;> simp [Cut.isLone, source, Lexeme.source]
    simp [Cut.doubled, hlone, sourceAll]
  | lone l ht htext he =>
    subst ht
    exact ⟨[';'], htext, by simp [Cut.doubled, Cut.isLone, sourceAll, source, Lexeme.source]⟩
  | expression key e l ht htext he =>
    subst ht
    refine ⟨key.toList ++ ':' :: e.toList, by simpa using htext, ?_⟩
    simp [Cut.doubled, Cut.isLone, sourceAll, source, Lexeme.source, Mark.symbol]

theorem Cut.text_of_isLone {cut : Cut} (h : cut.isLone = true) : cut.text = [';'] := by
  simp only [Cut.isLone, Bool.and_eq_true, beq_iff_eq] at h
  exact h.2

/-- The length of the source grows by one for each lone `;`. -/
theorem Cut.length_doubled (cs : List Cut) : (cs.flatMap Cut.doubled).length =
    (cs.flatMap Cut.text).length + (cs.filter Cut.isLone).length := by
  induction cs with
  | nil => rfl
  | cons cut cs ih =>
    cases hlone : cut.isLone with
    | true =>
      have htext := Cut.text_of_isLone hlone
      simp [Cut.doubled, hlone, htext, ih]
      omega
    | false =>
      simp [Cut.doubled, hlone, ih]
      omega

theorem Cut.doubled_eq_text_iff (cs : List Cut) : cs.flatMap Cut.doubled = cs.flatMap Cut.text ↔
    ∀ cut ∈ cs, cut.isLone = false := by
  constructor
  · intro h
    have hlen := Cut.length_doubled cs
    rw [h] at hlen
    have hnone : cs.filter Cut.isLone = [] := List.eq_nil_of_length_eq_zero (by omega)
    simpa using hnone
  · intro h
    rw [List.flatMap_def, List.flatMap_def, List.map_congr_left]
    intro cut hcut
    simp [Cut.doubled, h cut hcut]

/-! ## What a step looks at -/

/-- Two texts that a step before them cannot tell apart. -/
structure SameFront (left left' : List Char) : Prop where
  head : left'.head? = left.head?
  startsBreak : startsBreak left' = startsBreak left
  startsBlank : startsBlank left' = startsBlank left
  ending : startsExpressionEnd left = true → startsExpressionEnd left' = true

/-- A condition on a text that looks at its first two characters only. -/
def IsLocal (p : List Char → Bool) : Prop :=
  ∀ (c : Char) {rest rest' : List Char}, rest'.head? = rest.head? → p (c :: rest') = p (c :: rest)

theorem isLocal_startsBreak : IsLocal startsBreak := by
  intro c rest rest' h
  cases rest <;> cases rest' <;> simp at h
  · rfl
  · subst h
    unfold startsBreak
    split <;> simp_all

theorem isLocal_startsBlank : IsLocal startsBlank := by
  intro c rest rest' h
  simp only [startsBlank, isLocal_startsBreak c h]

theorem isLocal_startsExpressionEnd : IsLocal startsExpressionEnd := by
  intro c rest rest' h
  cases rest <;> cases rest' <;> simp at h
  · rfl
  · subst h
    unfold startsExpressionEnd
    split <;> simp_all

theorem IsLocal.not {p : List Char → Bool} (h : IsLocal p) : IsLocal (!p ·) := by
  intro c rest rest' hr
  simp only [h c hr]

theorem head?_append_congr {left left' : List Char} (h : left'.head? = left.head?)
    (text : List Char) : (text ++ left').head? = (text ++ left).head? := by
  simp [List.head?_append, h]

/-- A cut ends at the same place where what it leaves looks the same. -/
theorem splitWhile_append {p : List Char → Bool} (hp : IsLocal p) {taken left left' : List Char}
    (h : splitWhile p (taken ++ left) = (taken, left)) (hh : left'.head? = left.head?)
    (hl : left' = [] ∨ p left' = false) : splitWhile p (taken ++ left') = (taken, left') := by
  induction taken with
  | nil =>
    cases left' with
    | nil => rfl
    | cons c rest => simp [splitWhile, hl.resolve_left (by simp)]
  | cons c taken ih =>
    have hc : p (c :: (taken ++ left')) = p (c :: (taken ++ left)) :=
      hp c (head?_append_congr hh taken)
    rw [List.cons_append, splitWhile] at h ⊢
    by_cases hb : p (c :: (taken ++ left)) = true
    · simp only [if_pos hb, Prod.mk.injEq, List.cons.injEq, true_and] at h
      rw [hc, if_pos hb, ih (Prod.ext h.1 h.2)]
    · rw [if_neg hb] at h
      simp at h

theorem splitWhile_eq {p : List Char → Bool} {text taken left : List Char}
    (h : splitWhile p text = (taken, left)) : splitWhile p (taken ++ left) = (taken, left) := by
  have := append_splitWhile p text
  rw [h] at this
  rw [this, h]

theorem splitWhile_sameFront {p : List Char → Bool} (hp : IsLocal p) {text left' : List Char}
    (hh : left'.head? = (splitWhile p text).2.head?)
    (hl : left' = [] ∨ p left' = p (splitWhile p text).2) :
    splitWhile p ((splitWhile p text).1 ++ left') = ((splitWhile p text).1, left') := by
  apply splitWhile_append hp (splitWhile_eq rfl) hh
  rcases splitWhile_left p text with hn | hf
  · rw [hn] at hh
    simp at hh
    exact .inl hh
  · exact hl.imp_right fun h => h.trans hf

/-- A quoted literal ends at its closing quote, whatever follows. -/
theorem quoted?_append {text left' : List Char} {span : QuotedSpan} (h : quoted? text = some span) :
    quoted? (span.raw ++ '"' :: left') = some { span with left := left' } := by
  fun_induction quoted? text generalizing span with
  | case1 => simp at h
  | case2 rest =>
    obtain rfl := Option.some.inj h
    exact quoted?_quote left'
  | case3 => simp at h
  | case4 e rest _ ih =>
    obtain ⟨inner, hi, rfl⟩ := Option.map_eq_some_iff.mp h
    show quoted? ('\\' :: e :: (inner.raw ++ '"' :: left')) = _
    rw [quoted?_escaped, ih hi]
    rfl
  | case5 c rest hq hb ih =>
    obtain ⟨inner, hi, rfl⟩ := Option.map_eq_some_iff.mp h
    show quoted? (c :: (inner.raw ++ '"' :: left')) = _
    rw [quoted?_plain (by simp [Text.needsEscape, hq, hb]), ih hi]
    rfl

theorem expression?_sameFront {text taken left left' : List Char}
    (h : expression? text = some (taken, left)) (hl : SameFront left left') :
    expression? (taken ++ left') = some (taken, left') := by
  obtain ⟨-, hend⟩ := expression?_eq_some h
  have hsplit := (splitWhile_of_expression? h).1
  have hcut := splitWhile_append isLocal_startsExpressionEnd.not (splitWhile_eq hsplit) hl.head
    (.inr (by simp [hl.ending hend]))
  have hne : left' ≠ [] := by
    rintro rfl
    have := hl.ending hend
    simp [startsExpressionEnd] at this
  rw [expression?, hcut]
  exact if_neg hne

/-! ## Words -/

/-- Whether a word may begin with a character does not depend on what follows it. -/
theorem OpensWord.of_rest {c : Char} {rest : List Char} (h : OpensWord c rest)
    (rest' : List Char) : OpensWord c rest' := by
  have hlf : c ≠ '\n' := by
    rintro rfl
    exact absurd h.not_break (by simp [Token.startsBreak])
  have hcr : c ≠ '\r' := by
    rintro rfl
    have hblank := h.not_blank
    simp [Token.startsBlank, h.not_break] at hblank
  have hblank : c ≠ ' ' ∧ c ≠ '\t' := by
    constructor <;> rintro rfl <;>
      exact absurd h.not_blank (by simp [Token.startsBlank, Token.startsBreak])
  exact {
    not_break := by
      unfold Token.startsBreak
      split <;> simp_all
    not_blank := by simp [Token.startsBlank, hblank, hcr]
    not_hash := h.not_hash
    not_quote := h.not_quote
    not_mark := h.not_mark }

/-- What a word leaves ends it. -/
theorem exits_wordTail (text : List Char) : Exits (wordTail text).2 := by
  intro c hc
  rcases splitWhile_left continuesWord text with h | h
  · rw [wordTail, h] at hc
    simp at hc
  · cases hl : (wordTail text).2 with
    | nil => simp [hl] at hc
    | cons d left =>
      rw [wordTail] at hl
      rw [hl] at h
      rw [wordTail, hl] at hc
      obtain rfl : d = c := by simpa using hc
      simpa [continuesWord] using h

theorem endsWord_of_mem_wordTail (text : List Char) :
    ∀ c ∈ (wordTail text).1, endsWord c = false := by
  induction text with
  | nil => simp [wordTail, splitWhile]
  | cons c text ih =>
    unfold wordTail at ih ⊢
    by_cases hc : continuesWord (c :: text) = true
    · simp only [splitWhile, if_pos hc, List.mem_cons]
      rintro d (rfl | hd)
      · simpa [continuesWord] using hc
      · exact ih d hd
    · simp [splitWhile, if_neg hc]

/-- No expression key with its colon begins where a word was scanned, whatever follows the word,
unless a new colon does. -/
theorem expressionKeyOf?_word {c : Char} {rest left' : List Char}
    (h : Keys.expressionKeyOf? ((c :: rest).take Keys.lookahead) = none)
    (ho : OpensWord c rest) (hexits : Exits left')
    (hcolon : left'.head? = some ':' → (wordTail rest).2.head? = some ':') :
    Keys.expressionKeyOf? ((c :: ((wordTail rest).1 ++ left')).take Keys.lookahead) = none := by
  cases hk : Keys.expressionKeyOf? ((c :: ((wordTail rest).1 ++ left')).take Keys.lookahead) with
  | none => rfl
  | some key =>
    have hmem := Keys.mem_of_expressionKeyOf? hk
    obtain ⟨left, hl⟩ := eq_append_of_expressionKeyOf? hk
    have hkey := endsWord_of_isBareWord (Keys.bare_of_mem_expressionKeys key hmem).1
    -- The word is the key, and the colon after it was there before.
    have hc : endsWord c = false := by
      cases hkl : key.toList with
      | nil =>
        rw [hkl] at hl
        obtain ⟨rfl, -⟩ := List.cons.inj hl
        exact absurd ho.not_mark (by decide)
      | cons d ds =>
        rw [hkl] at hl hkey
        obtain ⟨rfl, -⟩ := List.cons.inj hl
        exact hkey c (by simp)
    have hw : ∀ d ∈ c :: (wordTail rest).1, endsWord d = false := by
      rintro d (_ | ⟨_, hd⟩)
      · exact hc
      · exact endsWord_of_mem_wordTail rest d hd
    obtain ⟨hword, rfl⟩ := eq_key_of_append hw hkey hexits hl
    obtain ⟨more, hmore⟩ := List.head?_eq_some_iff.mp (hcolon rfl)
    have hfound := expressionKeyOf?_key (by simpa [Keys.isExpression] using hmem) more
    rw [← hmore, ← hword, List.cons_append, append_wordTail, h] at hfound
    simp at hfound

/-! ## Steps -/

/-- A run begins and ends as before, where what follows it looks the same. -/
theorem exists_run {p : List Char → Bool} (hp : IsLocal p) {c : Char} {rest left' : List Char}
    (h : p (c :: rest) = true) (hh : left'.head? = (splitWhile p (c :: rest)).2.head?)
    (hl : left' = [] ∨ p left' = p (splitWhile p (c :: rest)).2) :
    ∃ run, (splitWhile p (c :: rest)).1 = c :: run ∧ p (c :: (run ++ left')) = true ∧
      splitWhile p (c :: (run ++ left')) = (c :: run, left') := by
  have hrun : (splitWhile p (c :: rest)).1 = c :: (splitWhile p rest).1 := by
    rw [splitWhile, if_pos h]
  have hleft : (splitWhile p (c :: rest)).2 = (splitWhile p rest).2 := by
    rw [splitWhile, if_pos h]
  refine ⟨(splitWhile p rest).1, hrun, ?_, ?_⟩
  · rw [hp c (head?_append_congr (hleft ▸ hh) (splitWhile p rest).1), append_splitWhile]
    exact h
  · have := splitWhile_sameFront hp hh hl
    rwa [hrun] at this

theorem Step.eq_one {lexeme : Lexeme} {line after next : Nat} {left rest : List Char}
    {tokens : List Token} (h : (⟨tokens, .ok (after, left)⟩ : Step) = .one lexeme line next rest) :
    [⟨lexeme, line⟩] = tokens ∧ next = after ∧ rest = left := by
  simp only [Step.one, Step.mk.injEq, Except.ok.injEq, Prod.mk.injEq] at h
  exact ⟨h.1.symm, h.2.1.symm, h.2.2.symm⟩

section retaken

variable {c : Char} {rest left' : List Char} (line : Nat)

theorem stepsTo_breaks (h : startsBreak (c :: rest) = true)
    (hl : SameFront (breaks (c :: rest)).2 left') :
    StepsTo line ((Lexeme.breaks (String.ofList (breaks (c :: rest)).1)).source.toList ++ left')
      (.one (.breaks (String.ofList (breaks (c :: rest)).1)) line
        (line + lineFeeds (breaks (c :: rest)).1) left') := by
  obtain ⟨run, hrun, hb, hcut⟩ := exists_run isLocal_startsBreak h hl.head (.inr hl.startsBreak)
  refine ⟨c, run ++ left', ?_, ?_⟩
  · simp [Lexeme.source, breaks, hrun]
  · rw [step_of_break line hb, breaks, breaks, hcut, hrun]

theorem stepsTo_blanks (h : startsBlank (c :: rest) = true)
    (hl : SameFront (blanks (c :: rest)).2 left') :
    StepsTo line ((Lexeme.blanks (String.ofList (blanks (c :: rest)).1)).source.toList ++ left')
      (.one (.blanks (String.ofList (blanks (c :: rest)).1)) line line left') := by
  obtain ⟨run, hrun, hw, hcut⟩ := exists_run isLocal_startsBlank h hl.head (.inr hl.startsBlank)
  refine ⟨c, run ++ left', ?_, ?_⟩
  · simp [Lexeme.source, blanks, hrun]
  · rw [step_of_blank line hw, blanks, blanks, hcut, hrun]

theorem stepsTo_comment (hl : SameFront (comment rest).2 left') :
    StepsTo line ((Lexeme.comment (String.ofList (comment rest).1)).source.toList ++ left')
      (.one (.comment (String.ofList (comment rest).1)) line line left') := by
  have hcut := splitWhile_sameFront isLocal_startsBreak.not hl.head
    (.inr (congrArg (!·) hl.startsBreak))
  refine ⟨'#', (comment rest).1 ++ left', ?_, ?_⟩
  · simp [Lexeme.source]
  · rw [step_hash, comment, comment, hcut]

theorem stepsTo_quoted {span : QuotedSpan} (h : quoted? rest = some span) :
    StepsTo line
      ((Lexeme.quoted (String.ofList span.raw) (String.ofList span.text)).source.toList ++ left')
      (.one (.quoted (String.ofList span.raw) (String.ofList span.text)) line
        (line + lineFeeds span.raw) left') := by
  refine ⟨'"', span.raw ++ '"' :: left', ?_, ?_⟩
  · simp [Lexeme.source]
  · rw [step_quote, quotedStep, quoted?_append h]

theorem stepsTo_mark {l : Lexeme} (hm : Lexeme.ofChar? c = some l) :
    StepsTo line (l.source.toList ++ left') (.one l line line left') := by
  rcases Lexeme.ofChar?_eq_some hm with ⟨rfl, rfl⟩ | ⟨hp, hsource⟩
  · -- A lone `;` is spelled out as an end.
    exact ⟨';', ';' :: left', rfl, step_ending line left'⟩
  · refine ⟨c, left', by rw [hsource]; rfl, step_of_mark line hm ?_⟩
    refine Bool.eq_false_iff.mpr fun hend => ?_
    obtain ⟨more, hmore⟩ := startsExpressionEnd_eq_true hend
    obtain ⟨rfl, -⟩ := List.cons.inj hmore
    obtain rfl : Lexeme.expressionEnd = _ := Option.some.inj hm
    simp [Lexeme.source] at hsource

theorem stepsTo_expression {key : String} {text : List Char} {span : List Char × List Char}
    (hk : Keys.isExpression key = true) (h : expression? text = some span)
    (hl : SameFront span.2 left') :
    StepsTo line (key.toList ++ ':' :: (span.1 ++ left'))
      ⟨[⟨.word key, line⟩, ⟨.mark .colon, line⟩, ⟨.expression (String.ofList span.1), line⟩],
        .ok (line + lineFeeds span.1, left')⟩ := by
  obtain ⟨d, rest', hd, hstep⟩ := step_key hk (span.1 ++ left')
  refine ⟨d, rest', hd, ?_⟩
  rw [hstep line, expressionStep, expression?_sameFront h hl]
  rfl

theorem stepsTo_word (ho : OpensWord c rest)
    (hk : Keys.expressionKeyOf? ((c :: rest).take Keys.lookahead) = none) (hexits : Exits left')
    (hcolon : left'.head? = some ':' → (wordTail rest).2.head? = some ':') :
    StepsTo line
      ((Lexeme.word (String.ofList (c :: (wordTail rest).1))).source.toList ++ left')
      (.one (.word (String.ofList (c :: (wordTail rest).1))) line line left') := by
  have hcut : wordTail ((wordTail rest).1 ++ left') = ((wordTail rest).1, left') :=
    wordTail_append (endsWord_of_mem_wordTail rest) hexits
  refine ⟨c, (wordTail rest).1 ++ left', ?_, ?_⟩
  · simp [Lexeme.source]
  · rw [step_of_opensWord line (ho.of_rest _), expressionKeyOf?_word hk ho hexits hcolon, hcut]

end retaken

theorem toList_sourceAll_singleton (lexeme : Lexeme) (line : Nat) :
    (sourceAll [⟨lexeme, line⟩]).toList = lexeme.source.toList := by
  simp [sourceAll, source]

/-- Before a text that looks the same as what a step left, the source of its tokens is taken by the
same step. -/
theorem stepsTo_sourceAll {line after : Nat} {c : Char} {rest left left' : List Char}
    {tokens : List Token} (h : step line c rest = ⟨tokens, .ok (after, left)⟩)
    (hl : SameFront left left') :
    StepsTo line ((sourceAll tokens).toList ++ left') ⟨tokens, .ok (after, left')⟩ := by
  have hs := stepCase_step line c rest
  rw [h] at hs
  generalize hstep : (⟨tokens, .ok (after, left)⟩ : Step) = s at hs
  -- All steps but those at an expression key emit one token.
  cases hs with
  | breaks hb =>
    obtain ⟨rfl, rfl, rfl⟩ := Step.eq_one hstep
    rw [toList_sourceAll_singleton]
    exact stepsTo_breaks line hb hl
  | blanks hb hw =>
    obtain ⟨rfl, rfl, rfl⟩ := Step.eq_one hstep
    rw [toList_sourceAll_singleton]
    exact stepsTo_blanks line hw hl
  | comment =>
    obtain ⟨rfl, rfl, rfl⟩ := Step.eq_one hstep
    rw [toList_sourceAll_singleton]
    exact stepsTo_comment line hl
  | quoted =>
    unfold quotedStep at hstep
    cases hq : quoted? rest with
    | none => simp [hq] at hstep
    | some span =>
      rw [hq] at hstep
      obtain ⟨rfl, rfl, rfl⟩ := Step.eq_one hstep
      rw [toList_sourceAll_singleton]
      exact stepsTo_quoted line hq
  | ending =>
    obtain ⟨rfl, rfl, rfl⟩ := Step.eq_one hstep
    rw [toList_sourceAll_singleton]
    exact ⟨';', ';' :: left', rfl, step_ending line left'⟩
  | mark hm he =>
    obtain ⟨rfl, rfl, rfl⟩ := Step.eq_one hstep
    rw [toList_sourceAll_singleton]
    exact stepsTo_mark line hm
  | @expression _ _ key ho hk =>
    obtain ⟨text, ht⟩ := eq_append_of_expressionKeyOf? hk
    rw [drop_of_eq_append ht] at hstep
    unfold expressionStep at hstep
    cases he : expression? text with
    | none => simp [he] at hstep
    | some span =>
      rw [he] at hstep
      simp only [Step.mk.injEq, Except.ok.injEq, Prod.mk.injEq] at hstep
      obtain ⟨rfl, rfl, rfl⟩ := hstep
      have hkey : Keys.isExpression key = true := by
        simpa [Keys.isExpression] using Keys.mem_of_expressionKeyOf? hk
      simpa [sourceAll, source, Lexeme.source, Mark.symbol] using
        stepsTo_expression line hkey he hl
  | word ho hk =>
    obtain ⟨rfl, rfl, rfl⟩ := Step.eq_one hstep
    rw [toList_sourceAll_singleton]
    have hexits : Exits left' := fun d hd => exits_wordTail _ d (hl.head ▸ hd)
    exact stepsTo_word line ho hk hexits fun hcolon => hl.head ▸ hcolon

/-- A step at the front of two texts leaves them looking the same, its lone `;` doubled. -/
theorem SameFront.of_step {line after : Nat} {c : Char} {rest taken left left' : List Char}
    {tokens : List Token} (hs : step line c rest = ⟨tokens, .ok (after, left)⟩)
    (htext : c :: rest = taken ++ left) (hl : SameFront left left') :
    SameFront (c :: rest) (Cut.doubled ⟨tokens, taken⟩ ++ left') := by
  rw [htext]
  cases hlone : Cut.isLone ⟨tokens, taken⟩ with
  | true =>
    obtain rfl : taken = [';'] := Cut.text_of_isLone hlone
    rw [Cut.doubled, if_pos hlone]
    exact ⟨rfl, rfl, rfl, fun _ => rfl⟩
  | false =>
    rw [Cut.doubled, hlone, if_neg (by simp)]
    cases taken with
    | nil =>
      -- A step takes something.
      have hlt := length_lt_of_step (congrArg Step.next hs)
      have := congrArg List.length htext
      simp at this
      omega
    | cons d taken =>
      have hh := head?_append_congr hl.head taken
      exact ⟨rfl, isLocal_startsBreak d hh, isLocal_startsBlank d hh,
        fun he => (isLocal_startsExpressionEnd d hh).trans he⟩

/-! ## Scans -/

/-- A scan of `text`, from `line` on, that goes through step by step.  Each step takes the source
of its tokens or a lone `;`. -/
inductive GoesThrough : Nat → List Char → Prop where
  | nil (line : Nat) : GoesThrough line []
  | step {line after : Nat} {c : Char} {rest taken left : List Char} {tokens : List Token}
      (hs : step line c rest = ⟨tokens, .ok (after, left)⟩) (htext : c :: rest = taken ++ left)
      (hsource : (sourceAll tokens).toList = Cut.doubled ⟨tokens, taken⟩)
      (more : GoesThrough after left) : GoesThrough line (c :: rest)

theorem goesThrough_of_error? {line : Nat} {text : List Char}
    (h : (Scan.ofChars line text).error? = none) : GoesThrough line text := by
  fun_induction Scan.ofChars line text with
  | case1 line => exact .nil line
  | case2 line c rest e he => simp at h
  | case3 line c rest next left hn ih =>
    obtain ⟨taken, htext, hsource⟩ := exists_taken (step_of_next hn)
    exact .step (step_of_next hn) htext hsource (ih h)

namespace GoesThrough

variable {line : Nat} {text : List Char}

/-- The cuts of a scan are all of its text. -/
theorem flatMap_text (h : GoesThrough line text) :
    (cuts line text).flatMap Cut.text = text := by
  induction h with
  | nil line => simp [cuts]
  | step hs htext hsource more ih => rw [cuts_of_step hs htext, List.flatMap_cons, ih, htext]

/-- The tokens of the cuts of a scan are all of its tokens but the last. -/
theorem tokens_eq (h : GoesThrough line text) : ∃ last, Scan.ofChars line text =
    ⟨(cuts line text).flatMap Cut.tokens ++ [⟨.streamEnd, last⟩], none⟩ := by
  induction h with
  | nil line => exact ⟨line, by simp [cuts, Scan.ofChars]⟩
  | step hs htext hsource more ih =>
    obtain ⟨last, hlast⟩ := ih
    refine ⟨last, ?_⟩
    rw [ofChars_of_step hs, hlast, cuts_of_step hs htext, List.flatMap_cons, Scan.after,
      List.append_assoc]

/-- The source of the tokens of a scan is its text with each lone `;` doubled. -/
theorem toList_sourceAll (h : GoesThrough line text) :
    (sourceAll ((cuts line text).flatMap Cut.tokens)).toList =
      (cuts line text).flatMap Cut.doubled := by
  induction h with
  | nil line => simp [cuts]
  | step hs htext hsource more ih =>
    rw [cuts_of_step hs htext, List.flatMap_cons, sourceAll_append, String.toList_append, ih,
      hsource, List.flatMap_cons]

/-- Doubling what stands alone leaves the front of a text as it looked. -/
theorem sameFront (h : GoesThrough line text) :
    SameFront text ((cuts line text).flatMap Cut.doubled) := by
  induction h with
  | nil line =>
    simp only [cuts, List.flatMap_nil]
    exact ⟨rfl, rfl, rfl, id⟩
  | step hs htext hsource more ih =>
    rw [cuts_of_step hs htext, List.flatMap_cons]
    exact .of_step hs htext ih

/-- The text with each lone `;` doubled is scanned as the text is. -/
theorem ofChars_doubled (h : GoesThrough line text) :
    Scan.ofChars line ((cuts line text).flatMap Cut.doubled) = Scan.ofChars line text := by
  induction h with
  | nil line => simp [cuts]
  | step hs htext hsource more ih =>
    rw [cuts_of_step hs htext, List.flatMap_cons, ← hsource,
      (stepsTo_sourceAll hs more.sameFront).ofChars, ih, ofChars_of_step hs]

end GoesThrough

/-! ## Sources -/

/-- A scan is stable.  The source of its tokens is the text with each lone `;` doubled, hence the
text itself exactly if there is none, and it is scanned as the same tokens on the same lines. -/
theorem tokenize_sourceAll {source : String} {tokens : List Token}
    (h : tokenize source = .ok tokens) :
    (∃ last, tokens = ⟨.streamStart, 1⟩ ::
      ((cuts 1 source.toList).flatMap Cut.tokens ++ [⟨.streamEnd, last⟩])) ∧
    (cuts 1 source.toList).flatMap Cut.text = source.toList ∧
    (sourceAll tokens).toList = (cuts 1 source.toList).flatMap Cut.doubled ∧
    (sourceAll tokens = source ↔ ∀ cut ∈ cuts 1 source.toList, cut.isLone = false) ∧
    tokenize (sourceAll tokens) = .ok tokens := by
  obtain ⟨herror, hstream⟩ := tokenize_eq_ok_iff.mp h
  have hscan := goesThrough_of_error? herror
  obtain ⟨last, hlast⟩ := hscan.tokens_eq
  have htokens : tokens = ⟨.streamStart, 1⟩ ::
      ((cuts 1 source.toList).flatMap Cut.tokens ++ [⟨.streamEnd, last⟩]) := by
    rw [← hstream, hlast]
  have hsource : (sourceAll tokens).toList = (cuts 1 source.toList).flatMap Cut.doubled := by
    rw [htokens, sourceAll_cons, sourceAll_append, String.toList_append, String.toList_append,
      hscan.toList_sourceAll]
    simp [sourceAll, Token.source, Lexeme.source]
  refine ⟨⟨last, htokens⟩, hscan.flatMap_text, hsource, ?_, ?_⟩
  · rw [← Cut.doubled_eq_text_iff, hscan.flatMap_text, ← hsource, String.toList_inj]
  · rw [tokenize_eq_ok_iff, hsource, hscan.ofChars_doubled]
    exact ⟨herror, hstream⟩

end LookML.Token

namespace LookML

/-- A `;` within a word and within a comment, one that stands alone, one after an end, and one
after an expression. -/
def Samples.semicolons : String :=
  "x: a;b ; # c;\n;;;\"d;\"sql: e;;;"

theorem tokenize_sourceAll_semicolons : ∃ tokens, tokenize Samples.semicolons = .ok tokens ∧
    tokenize (Token.sourceAll tokens) = .ok tokens ∧
    Token.sourceAll tokens = "x: a;b ;; # c;\n;;;;\"d;\"sql: e;;;;" := by
  have hok : (tokenize Samples.semicolons).toOption.map Token.sourceAll =
      some "x: a;b ;; # c;\n;;;;\"d;\"sql: e;;;;" := by
    decide +kernel
  cases ht : tokenize Samples.semicolons with
  | error e => simp [ht, Except.toOption] at hok
  | ok tokens =>
    rw [ht] at hok
    exact ⟨tokens, rfl, (Token.tokenize_sourceAll ht).2.2.2.2, Option.some.inj hok⟩

end LookML
