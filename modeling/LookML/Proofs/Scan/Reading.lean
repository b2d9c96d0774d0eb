import LookML.Build.Listing
import LookML.Proofs.Scan.Spelling

/-!
# Reading — how written pieces are scanned

A piece that is written by itself is scanned by itself: a mark, a bare word before a character
that ends it, an escaped text between quotes, an expression key with its expression.  The scan
then goes on as if what follows stood alone.  Blanks and line breaks between pieces leave no trace
in the sentence.
-/

namespace LookML

/-! ## Lines -/

/-- A token so many lines further down. -/
def Token.shift (n : Nat) (token : Token) : Token :=
  { token with line := token.line + n }

def LexError.shift (n : Nat) : LexError → LexError
  | unterminatedString line => unterminatedString (line + n)
  | unterminatedExpression line => unterminatedExpression (line + n)

def Scan.shift (n : Nat) (scan : Scan) : Scan :=
  ⟨scan.tokens.map (Token.shift n), scan.error?.map (LexError.shift n)⟩

def Token.Step.shift (n : Nat) (step : Step) : Step :=
  ⟨step.tokens.map (Token.shift n),
    match step.next with
    | .ok (line, left) => .ok (line + n, left)
    | .error e => .error (e.shift n)⟩

theorem Token.step_add (line n : Nat) (c : Char) (rest : List Char) :
    step (line + n) c rest = (step line c rest).shift n := by
  unfold step expressionStep quotedStep
  dsimp only
  repeat' split
  all_goals simp_all [Step.one, Step.shift, Token.shift, LexError.shift, Nat.add_right_comm]

/-- A scan does not depend on the line it starts on, except for the lines of its tokens. -/
theorem Scan.ofChars_add (line n : Nat) (text : List Char) :
    ofChars (line + n) text = (ofChars line text).shift n := by
  fun_induction ofChars line text with
  | case1 line =>
    rw [ofChars]
    rfl
  | case2 line c rest e he =>
    have hs := Token.step_add line n c rest
    cases hstep : Token.step line c rest with
    | mk tokens next =>
      rw [hstep] at he hs
      dsimp only at he
      subst he
      exact Token.ofChars_of_step_error hs
  | case3 line c rest next left hn ih =>
    have hs := Token.step_add line n c rest
    cases hstep : Token.step line c rest with
    | mk tokens next' =>
      rw [hstep] at hn hs
      dsimp only at hn
      subst hn
      -- The rest is scanned from a line as many lines further down.
      rw [Token.ofChars_of_step hs, ih]
      simp [Scan.shift, Scan.after]

/-! ## Marks and words -/

namespace Token

/-- Whether an unquoted literal cannot go on into `text`. -/
def Exits (text : List Char) : Prop :=
  ∀ c ∈ text.head?, endsWord c = true

theorem Exits.cons {c : Char} (h : endsWord c = true) (rest : List Char) : Exits (c :: rest) := by
  simpa [Exits] using h

theorem ofChars_mark (line : Nat) (m : Mark) (rest : List Char) :
    Scan.ofChars line (m.symbol.toList ++ rest) =
      (Scan.ofChars line rest).after [⟨.mark m, line⟩] := by
  cases m <;> exact ofChars_of_step rfl

/-- A character that ends an unquoted literal keeps a text from standing unquoted. -/
theorem breaksWord_of_endsWord {c : Char} (h : endsWord c = true) :
    Builder.breaksWord c = true := by
  simp only [endsWord, Bool.or_eq_true, beq_iff_eq] at h
  rcases h with ((((((((rfl | rfl) | rfl) | rfl) | rfl) | rfl) | rfl) | rfl) | rfl) | rfl <;> rfl

theorem isBareWord_iff {c : Char} {rest : List Char} :
    Builder.isBareWord (String.ofList (c :: rest)) = true ↔
      c ≠ '#' ∧ c ≠ ';' ∧ ∀ d ∈ c :: rest, Builder.breaksWord d = false := by
  simp [Builder.isBareWord, and_assoc]

theorem exists_cons_of_isBareWord {w : String} (h : Builder.isBareWord w = true) :
    ∃ c rest, w = String.ofList (c :: rest) := by
  cases hw : w.toList with
  | nil => simp [Builder.isBareWord, hw] at h
  | cons c rest => exact ⟨c, rest, by rw [← hw, String.ofList_toList]⟩

theorem breaksWord_of_ofChar? {c : Char} {l : Lexeme} (h : Lexeme.ofChar? c = some l) :
    c = ';' ∨ Builder.breaksWord c = true := by
  unfold Lexeme.ofChar? at h
  split at h <;> first | exact .inl rfl | exact .inr rfl | simp at h

/-- Nothing but a word begins with the first character of a bare word. -/
theorem opensWord_of_bare {c : Char} (rest : List Char) (hh : c ≠ '#') (hs : c ≠ ';')
    (hb : Builder.breaksWord c = false) : OpensWord c rest where
  not_break := by
    refine Bool.eq_false_iff.mpr fun h => ?_
    unfold startsBreak at h
    split at h <;> simp_all [Builder.breaksWord, Text.isBlank, Text.blankRanges]
  not_blank := by
    refine Bool.eq_false_iff.mpr fun h => ?_
    simp only [startsBlank, Bool.and_eq_true, Bool.or_eq_true, beq_iff_eq] at h
    rcases h.1 with (rfl | rfl) | rfl <;>
      simp [Builder.breaksWord, Text.isBlank, Text.blankRanges] at hb
  not_hash := hh
  not_quote := by
    rintro rfl
    simp [Builder.breaksWord] at hb
  not_mark := by
    cases hl : Lexeme.ofChar? c with
    | none => rfl
    | some l =>
      rcases breaksWord_of_ofChar? hl with rfl | hb'
      · exact absurd rfl hs
      · simp [hb] at hb'

theorem wordTail_append {word rest : List Char} (h : ∀ c ∈ word, endsWord c = false)
    (hr : Exits rest) : wordTail (word ++ rest) = (word, rest) := by
  induction word with
  | nil =>
    cases rest with
    | nil => rfl
    | cons c rest => simp [wordTail, splitWhile, continuesWord, hr c rfl]
  | cons c word ih =>
    have hi := ih fun d hd => h d (by simp [hd])
    unfold wordTail at hi ⊢
    simp [splitWhile, continuesWord, h c (by simp), hi]

end Token

/-! ## Expression keys -/

/-- An expression key can stand unquoted, and a scan looks far enough ahead for it. -/
theorem Keys.bare_of_mem_expressionKeys : ∀ key ∈ expressionKeys,
    Builder.isBareWord key = true ∧ key.length < lookahead := by
  decide +kernel

namespace Token

theorem endsWord_of_isBareWord {w : String} (h : Builder.isBareWord w = true) :
    ∀ c ∈ w.toList, endsWord c = false := by
  obtain ⟨c, rest, rfl⟩ := exists_cons_of_isBareWord h
  intro d hd
  rw [String.toList_ofList] at hd
  refine Bool.eq_false_iff.mpr fun he => ?_
  have := breaksWord_of_endsWord he
  simp [(isBareWord_iff.mp h).2.2 d hd] at this

/-- Where a bare word and what ends it are a key with its colon, the word is the key. -/
theorem eq_key_of_append {w key rest left : List Char} (hw : ∀ c ∈ w, endsWord c = false)
    (hk : ∀ c ∈ key, endsWord c = false) (hr : Exits rest)
    (h : w ++ rest = key ++ ':' :: left) : w = key ∧ rest = ':' :: left := by
  rcases List.append_eq_append_iff.mp h with ⟨x, rfl, hx⟩ | ⟨x, rfl, hx⟩
  · cases x with
    | nil => exact ⟨(List.append_nil w).symm, by simpa using hx⟩
    | cons c x =>
      have := hr c (by rw [hx]; rfl)
      simp [hk c (by simp)] at this
  · cases x with
    | nil => exact ⟨List.append_nil key, by simpa using hx.symm⟩
    | cons c x =>
      obtain ⟨rfl, -⟩ := List.cons.inj hx
      exact absurd (hw ':' (by simp)) (by decide)

/-- The expression key that a scan finds in a bare word is the word, if a colon follows it. -/
theorem expressionKeyOf?_append {w : String} {rest : List Char}
    (hw : Builder.isBareWord w = true) (hr : Exits rest)
    (hc : Keys.isExpression w = true → rest.head? ≠ some ':') :
    Keys.expressionKeyOf? ((w.toList ++ rest).take Keys.lookahead) = none := by
  cases hk : Keys.expressionKeyOf? ((w.toList ++ rest).take Keys.lookahead) with
  | none => rfl
  | some key =>
    have hmem := Keys.mem_of_expressionKeyOf? hk
    obtain ⟨left, hl⟩ := eq_append_of_expressionKeyOf? hk
    have hkey := endsWord_of_isBareWord (Keys.bare_of_mem_expressionKeys key hmem).1
    obtain ⟨hwk, rfl⟩ := eq_key_of_append (endsWord_of_isBareWord hw) hkey hr hl
    obtain rfl := String.toList_inj.mp hwk
    exact absurd rfl (hc (by simpa [Keys.isExpression] using hmem))

theorem expressionKeyOf?_key {key : String} (h : Keys.isExpression key = true)
    (rest : List Char) :
    Keys.expressionKeyOf? ((key.toList ++ ':' :: rest).take Keys.lookahead) = some key := by
  have hmem : key ∈ Keys.expressionKeys := by simpa [Keys.isExpression] using h
  obtain ⟨hbare, hlen⟩ := Keys.bare_of_mem_expressionKeys key hmem
  cases hk : Keys.expressionKeyOf? ((key.toList ++ ':' :: rest).take Keys.lookahead) with
  | none =>
    have hp := List.find?_eq_none.mp hk key hmem
    refine absurd (List.isPrefixOf_iff_prefix.mpr ?_) hp
    have hle : (key.toList ++ [':']).length ≤ Keys.lookahead := by
      rw [List.length_append, String.length_toList]
      exact hlen
    rw [show key.toList ++ ':' :: rest = (key.toList ++ [':']) ++ rest by simp, List.take_append,
      List.take_of_length_le hle]
    exact List.prefix_append _ _
  | some other =>
    have hother := Keys.mem_of_expressionKeyOf? hk
    obtain ⟨left, hl⟩ := eq_append_of_expressionKeyOf? hk
    have hkey := endsWord_of_isBareWord (Keys.bare_of_mem_expressionKeys other hother).1
    have := (eq_key_of_append (endsWord_of_isBareWord hbare) hkey (.cons rfl rest) hl).1
    rw [String.toList_inj.mp this]

/-- A bare word is scanned up to what ends it, unless it is an expression key at its colon. -/
theorem ofChars_word {w : String} {rest : List Char} (line : Nat)
    (hw : Builder.isBareWord w = true) (hr : Exits rest)
    (hc : Keys.isExpression w = true → rest.head? ≠ some ':') :
    Scan.ofChars line (w.toList ++ rest) =
      (Scan.ofChars line rest).after [⟨.word w, line⟩] := by
  have hkey := expressionKeyOf?_append hw hr hc
  have hends := endsWord_of_isBareWord hw
  obtain ⟨c, word, rfl⟩ := exists_cons_of_isBareWord hw
  obtain ⟨hh, hs, hb⟩ := isBareWord_iff.mp hw
  rw [String.toList_ofList] at hkey hends ⊢
  rw [List.cons_append] at hkey ⊢
  -- Nothing but a word can begin here, and no expression key with its colon does.
  have ho := opensWord_of_bare (word ++ rest) hh hs (hb c (by simp))
  have htail : wordTail (word ++ rest) = (word, rest) :=
    wordTail_append (fun d hd => hends d (by simp [hd])) hr
  refine ofChars_of_step ?_
  rw [step_of_opensWord line ho, hkey, htail]
  rfl

/-! ## Quoted literals -/

theorem quoted?_quote (rest : List Char) : quoted? ('"' :: rest) = some ⟨[], [], rest⟩ := by
  rw [quoted?.eq_def]
  rfl

theorem quoted?_escaped (c : Char) (rest : List Char) :
    quoted? ('\\' :: c :: rest) = (quoted? rest).map (QuotedSpan.escaped c) := by
  rw [quoted?.eq_def]
  rfl

theorem quoted?_plain {c : Char} (h : Text.needsEscape c = false) (rest : List Char) :
    quoted? (c :: rest) = (quoted? rest).map (QuotedSpan.plain c) := by
  simp only [Text.needsEscape, Bool.or_eq_false_iff, beq_eq_false_iff_ne] at h
  rw [quoted?.eq_def]
  simp only [h.1, h.2, if_false]

theorem quoted?_escapeChars (text rest : List Char) :
    quoted? (Text.escapeChars text ++ '"' :: rest) = some ⟨Text.escapeChars text, text, rest⟩ := by
  induction text with
  | nil => exact quoted?_quote rest
  | cons c text ih =>
    cases hc : Text.needsEscape c with
    | true => simp [Text.escapeChars, hc, quoted?_escaped, ih, QuotedSpan.escaped]
    | false => simp [Text.escapeChars, hc, quoted?_plain hc, ih, QuotedSpan.plain]

/-- An escaped text between quotes is scanned as one literal, which means the text. -/
theorem ofChars_quoted (line : Nat) (text : String) (rest : List Char) :
    Scan.ofChars line ('"' :: ((Text.escape text).toList ++ '"' :: rest)) =
      (Scan.ofChars (line + lineFeeds (Text.escape text).toList) rest).after
        [⟨.quoted (Text.escape text) text, line⟩] := by
  refine ofChars_of_step ?_
  rw [step_quote, quotedStep, Text.escape, String.toList_ofList, quoted?_escapeChars]
  simp [Step.one]

/-! ## Expressions -/

theorem holdsExpressionEnd_iff {text : List Char} :
    Builder.holdsExpressionEnd text = true ↔ [';', ';'] <:+: text := by
  fun_induction Builder.holdsExpressionEnd text with
  | case1 rest => simpa using (List.prefix_append [';', ';'] rest).isInfix
  | case2 c rest hne ih =>
    rw [ih, List.infix_cons_iff, or_iff_right]
    rintro ⟨left, hl⟩
    obtain ⟨rfl, rfl⟩ := List.cons.inj hl
    exact hne left rfl rfl
  | case3 => simp

/-- What is a part of a text without an end holds no end. -/
theorem holdsExpressionEnd_of_isInfix {part text : List Char} (hp : part <:+: text)
    (h : Builder.holdsExpressionEnd text = false) : Builder.holdsExpressionEnd part = false :=
  Bool.eq_false_iff.mpr fun hend =>
    Bool.eq_false_iff.mp h (holdsExpressionEnd_iff.mpr ((holdsExpressionEnd_iff.mp hend).trans hp))

theorem holdsExpressionEnd_cons_of_ne {c : Char} (h : c ≠ ';') (rest : List Char) :
    Builder.holdsExpressionEnd (c :: rest) = Builder.holdsExpressionEnd rest := by
  rw [Builder.holdsExpressionEnd]
  rintro left rfl
  exact absurd rfl h

/-- A text that holds no end of an expression, also not with the end that follows it, is scanned
up to that end. -/
theorem expression?_append {text : List Char} (rest : List Char)
    (h : Builder.holdsExpressionEnd (text ++ [';']) = false) :
    expression? (text ++ ';' :: ';' :: rest) = some (text, ';' :: ';' :: rest) := by
  have hsplit : splitWhile (!startsExpressionEnd ·) (text ++ ';' :: ';' :: rest) =
      (text, ';' :: ';' :: rest) := by
    induction text with
    | nil => rfl
    | cons c text ih =>
      -- No end begins in the text, not even one that its last `;` would share.
      have hinfix : ¬ [';', ';'] <:+: c :: (text ++ [';']) := fun hi => by
        simp [holdsExpressionEnd_iff.mpr hi] at h
      rw [List.infix_cons_iff, not_or] at hinfix
      have hstart : startsExpressionEnd (c :: (text ++ ';' :: ';' :: rest)) = false := by
        refine Bool.eq_false_iff.mpr fun hs => hinfix.1 ?_
        obtain ⟨left, hl⟩ := startsExpressionEnd_eq_true hs
        obtain ⟨rfl, hrest⟩ := List.cons.inj hl
        cases text with
        | nil => simp
        | cons d text => simp [(List.cons.inj hrest).1]
      rw [List.cons_append, splitWhile, hstart, ih (Bool.eq_false_iff.mpr fun hi =>
        hinfix.2 (holdsExpressionEnd_iff.mp hi))]
      rfl
  rw [expression?, hsplit]
  rfl

/-- The text of an expression holds no end. -/
theorem holdsExpressionEnd_of_expression? {text taken left : List Char}
    (h : expression? text = some (taken, left)) : Builder.holdsExpressionEnd taken = false := by
  obtain rfl : (splitWhile (!startsExpressionEnd ·) text).1 = taken :=
    congrArg Prod.fst (splitWhile_of_expression? h).1
  refine Bool.eq_false_iff.mpr fun hi => ?_
  clear h
  rw [holdsExpressionEnd_iff] at hi
  induction text with
  | nil => simp [splitWhile] at hi
  | cons c text ih =>
    have happ := append_splitWhile (!startsExpressionEnd ·) text
    unfold splitWhile at hi
    split at hi
    · rename_i hc
      rcases List.infix_cons_iff.mp hi with ⟨x, hx⟩ | hi
      · obtain ⟨rfl, hrest⟩ := List.cons.inj hx
        rw [← happ, ← hrest] at hc
        simp [startsExpressionEnd] at hc
      · exact ih hi
    · simp at hi

/-- An expression key with its colon is scanned together with the expression up to its end. -/
theorem step_key {key : String} (hk : Keys.isExpression key = true) (text : List Char) :
    ∃ c rest, key.toList ++ ':' :: text = c :: rest ∧
      ∀ line, step line c rest = expressionStep key line text := by
  have hmem : key ∈ Keys.expressionKeys := by simpa [Keys.isExpression] using hk
  have hfound := expressionKeyOf?_key hk text
  have hbare := (Keys.bare_of_mem_expressionKeys key hmem).1
  obtain ⟨c, rest, hkey⟩ := exists_cons_of_isBareWord hbare
  have htext : key.toList ++ ':' :: text = c :: (rest ++ ':' :: text) := by
    rw [hkey, String.toList_ofList]
    rfl
  refine ⟨c, _, htext, fun line => ?_⟩
  rw [hkey] at hbare
  obtain ⟨hh, hs, hb⟩ := isBareWord_iff.mp hbare
  rw [htext] at hfound
  rw [step_of_opensWord line (opensWord_of_bare _ hh hs (hb c (by simp))), hfound]
  dsimp only
  rw [drop_of_eq_append htext.symm]

theorem ofChars_expression {key : String} (line : Nat) {text : List Char} (rest : List Char)
    (hk : Keys.isExpression key = true)
    (h : Builder.holdsExpressionEnd (text ++ [';']) = false) :
    Scan.ofChars line (key.toList ++ ':' :: (text ++ ';' :: ';' :: rest)) =
      (Scan.ofChars (line + lineFeeds text) rest).after
        [⟨.word key, line⟩, ⟨.mark .colon, line⟩, ⟨.expression (String.ofList text), line⟩,
          ⟨.expressionEnd, line + lineFeeds text⟩] := by
  obtain ⟨c, left, hc, hstep⟩ := step_key hk (text ++ ';' :: ';' :: rest)
  have hfirst : step line c left = ⟨[⟨.word key, line⟩, ⟨.mark .colon, line⟩,
      ⟨.expression (String.ofList text), line⟩],
      .ok (line + lineFeeds text, ';' :: ';' :: rest)⟩ := by
    rw [hstep, expressionStep.eq_def, expression?_append rest h]
    rfl
  rw [hc, ofChars_of_step hfirst, ofChars_ending]
  rfl

end Token

/-! ## Sentences -/

/-- The sentence of a scan, if it goes through. -/
def Scan.sentence? (scan : Scan) : Option (List Lexeme) :=
  match scan.error? with
  | none => some (Token.sentence scan.tokens)
  | some _ => none

/-- The sentence that a text is scanned as, if the scan goes through. -/
def sentence? (text : List Char) : Option (List Lexeme) :=
  (Scan.ofChars 1 text).sentence?

theorem Token.sentence_append (a b : List Token) :
    sentence (a ++ b) = sentence a ++ sentence b := by
  simp [sentence, significant_append]

theorem Token.sentence_shift (n : Nat) (tokens : List Token) :
    sentence (tokens.map (shift n)) = sentence tokens := by
  simp [sentence, significant, Function.comp_def, shift]

theorem Scan.sentence?_shift (n : Nat) (scan : Scan) :
    (scan.shift n).sentence? = scan.sentence? := by
  obtain ⟨tokens, error?⟩ := scan
  cases error? <;> simp [Scan.sentence?, Scan.shift, Token.sentence_shift]

/-- The sentence does not depend on the line that a scan starts on. -/
theorem sentence?_eq (line : Nat) (text : List Char) :
    (Scan.ofChars line text).sentence? = sentence? text := by
  have hzero (line : Nat) : (Scan.ofChars line text).sentence? =
      (Scan.ofChars 0 text).sentence? := by
    rw [← Nat.zero_add line, Scan.ofChars_add, Scan.sentence?_shift]
  rw [sentence?, hzero line, hzero 1]

theorem Scan.sentence?_after (tokens : List Token) (scan : Scan) :
    (scan.after tokens).sentence? = scan.sentence?.map (Token.sentence tokens ++ ·) := by
  obtain ⟨rest, error?⟩ := scan
  cases error? <;> simp [Scan.sentence?, Scan.after, Token.sentence_append]

/-- A text is scanned as the sentence of its tokens. -/
theorem sentence?_of_tokenize {source : String} {tokens : List Token}
    (h : tokenize source = .ok tokens) :
    sentence? source.toList = some (Token.sentence tokens) := by
  obtain ⟨herror, rfl⟩ := Token.tokenize_eq_ok_iff.mp h
  rw [sentence?, Scan.sentence?, herror]
  rfl

theorem tokenize_of_sentence? {source : String} {s : List Lexeme}
    (h : sentence? source.toList = some s) :
    ∃ tokens, tokenize source = .ok tokens ∧ Token.sentence tokens = s := by
  cases ht : tokenize source with
  | ok tokens =>
    rw [sentence?_of_tokenize ht] at h
    exact ⟨tokens, rfl, Option.some.inj h⟩
  | error e =>
    unfold tokenize scan Scan.ofText Scan.after Scan.result at ht
    unfold sentence? Scan.sentence? at h
    cases he : (Scan.ofChars 1 source.toList).error? <;> simp [he] at h ht

section pieces

variable {rest : List Char}

theorem sentence?_of_after {line next : Nat} {text : List Char} {tokens : List Token}
    (h : Scan.ofChars line text = (Scan.ofChars next rest).after tokens) :
    sentence? text = (sentence? rest).map (Token.sentence tokens ++ ·) := by
  rw [← sentence?_eq line, h, Scan.sentence?_after, sentence?_eq]

theorem sentence?_nil : sentence? [] = some [] := by
  rw [sentence?, Scan.ofChars]
  rfl

theorem sentence?_mark (m : Mark) (rest : List Char) :
    sentence? (m.symbol.toList ++ rest) = (sentence? rest).map (.mark m :: ·) :=
  sentence?_of_after (Token.ofChars_mark 1 m rest)

theorem sentence?_word {w : String} (hw : Builder.isBareWord w = true) (hr : Token.Exits rest)
    (hc : Keys.isExpression w = true → rest.head? ≠ some ':') :
    sentence? (w.toList ++ rest) = (sentence? rest).map (.word w :: ·) :=
  sentence?_of_after (Token.ofChars_word 1 hw hr hc)

theorem sentence?_quoted (text : String) (rest : List Char) :
    sentence? ('"' :: ((Text.escape text).toList ++ '"' :: rest)) =
      (sentence? rest).map (.quoted (Text.escape text) text :: ·) :=
  sentence?_of_after (Token.ofChars_quoted 1 text rest)

theorem sentence?_expression {key : String} {text : List Char} (rest : List Char)
    (hk : Keys.isExpression key = true)
    (h : Builder.holdsExpressionEnd (text ++ [';']) = false) :
    sentence? (key.toList ++ ':' :: (text ++ ';' :: ';' :: rest)) = (sentence? rest).map
      ([.word key, .mark .colon, .expression (String.ofList text), .expressionEnd] ++ ·) :=
  sentence?_of_after (Token.ofChars_expression 1 rest hk h)

/-- Whatever stands behind an expression key with its colon is scanned as an expression. -/
theorem sentence?_key_eq_some {key : String} {text : List Char} {s : List Lexeme}
    (hk : Keys.isExpression key = true) (h : sentence? (key.toList ++ ':' :: text) = some s) :
    ∃ taken left s', text = taken ++ ';' :: ';' :: left ∧
      Builder.holdsExpressionEnd taken = false ∧
      s = .word key :: .mark .colon :: .expression (String.ofList taken) ::
        .expressionEnd :: s' := by
  obtain ⟨c, rest, hc, hstep⟩ := Token.step_key hk text
  rw [hc] at h
  have hfirst := hstep 1
  rw [Token.expressionStep.eq_def] at hfirst
  cases he : Token.expression? text with
  | none =>
    rw [he] at hfirst
    rw [sentence?, Token.ofChars_of_step_error hfirst] at h
    simp [Scan.sentence?] at h
  | some span =>
    obtain ⟨taken, left⟩ := span
    rw [he] at hfirst
    obtain ⟨happ, hend⟩ := Token.expression?_eq_some he
    obtain ⟨left, rfl⟩ := Token.startsExpressionEnd_eq_true hend
    rw [sentence?_of_after (Token.ofChars_of_step hfirst),
      sentence?_of_after (Token.ofChars_ending 1 left), Option.map_map] at h
    obtain ⟨s', -, rfl⟩ := Option.map_eq_some_iff.mp h
    exact ⟨taken, left, s', happ.symm, Token.holdsExpressionEnd_of_expression? he, rfl⟩

/-- Whether `c` is white space that a layout writes. -/
def isLayout (c : Char) : Bool :=
  c == ' ' || c == '\t' || c == '\n'

/-- A character that joins a run of white space leaves the text after the run as it is. -/
theorem sentence?_cons_run {c : Char} (starts : List Char → Bool) (lexeme : List Char → Lexeme)
    (hl : ∀ run, (lexeme run).isTrivia = true)
    (hstep : ∀ d left, starts (d :: left) = true → ∃ next, Token.step 1 d left =
      .one (lexeme (Token.splitWhile starts (d :: left)).1) 1 next
        (Token.splitWhile starts (d :: left)).2)
    (hc : starts (c :: rest) = true) : sentence? (c :: rest) = sentence? rest := by
  -- A whole run is one token of trivia.
  have hrun {d : Char} {left : List Char} (hd : starts (d :: left) = true) :
      sentence? (d :: left) = sentence? (Token.splitWhile starts (d :: left)).2 := by
    obtain ⟨next, hs⟩ := hstep d left hd
    rw [sentence?_of_after (Token.ofChars_of_step hs)]
    simp [Token.sentence, Token.significant, hl]
  have hsplit : (Token.splitWhile starts (c :: rest)).2 = (Token.splitWhile starts rest).2 := by
    rw [Token.splitWhile, if_pos hc]
  rw [hrun hc, hsplit]
  cases rest with
  | nil => rfl
  | cons d rest =>
    by_cases hd : starts (d :: rest) = true
    · exact (hrun hd).symm
    · rw [Token.splitWhile, if_neg hd]

theorem sentence?_cons_layout {c : Char} (hc : isLayout c = true) (rest : List Char) :
    sentence? (c :: rest) = sentence? rest := by
  simp only [isLayout, Bool.or_eq_true, beq_iff_eq] at hc
  -- A line break joins the breaks after it, a blank or a tab the blanks after it.
  have hbreaks (rest : List Char) : sentence? ('\n' :: rest) = sentence? rest := by
    refine sentence?_cons_run Token.startsBreak (fun run => .breaks (String.ofList run))
      (fun _ => rfl) (fun d left hd => ?_) rfl
    rw [Token.step, if_pos hd]
    exact ⟨_, rfl⟩
  have hblanks {c : Char} (rest : List Char) (hc : Token.startsBlank (c :: rest) = true) :
      sentence? (c :: rest) = sentence? rest := by
    refine sentence?_cons_run Token.startsBlank (fun run => .blanks (String.ofList run))
      (fun _ => rfl) (fun d left hd => ?_) hc
    have hb : Token.startsBreak (d :: left) ≠ true := by
      simp only [Token.startsBlank, Bool.and_eq_true, Bool.not_eq_true'] at hd
      simp [hd.2]
    rw [Token.step, if_neg hb, if_pos hd]
    exact ⟨_, rfl⟩
  rcases hc with (rfl | rfl) | rfl
  · exact hblanks rest rfl
  · exact hblanks rest rfl
  · exact hbreaks rest

theorem sentence?_layout {blanks : List Char} (h : ∀ c ∈ blanks, isLayout c = true)
    (rest : List Char) : sentence? (blanks ++ rest) = sentence? rest := by
  induction blanks with
  | nil => rfl
  | cons c blanks ih =>
    rw [List.cons_append, sentence?_cons_layout (h c (by simp)), ih fun d hd => h d (by simp [hd])]

end pieces

end LookML
