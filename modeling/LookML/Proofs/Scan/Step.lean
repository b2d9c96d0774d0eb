import LookML.Token.Scan

/-!
# Steps — what one step of a scan can do

A step looks at what comes next and does one of eight things, each a constructor of `StepCase`.
The definition of a step is opened here and nowhere else.
-/

namespace LookML.Token

/-- Whether a word may begin with `c` before `rest`: nothing else does. -/
structure OpensWord (c : Char) (rest : List Char) : Prop where
  not_break : startsBreak (c :: rest) = false
  not_blank : startsBlank (c :: rest) = false
  not_hash : c ≠ '#'
  not_quote : c ≠ '"'
  not_mark : Lexeme.ofChar? c = none

/-- The steps of a scan on `line`, by what comes next. -/
inductive StepCase (line : Nat) : Char → List Char → Step → Prop where
  | breaks {c : Char} {rest : List Char} (h : startsBreak (c :: rest) = true) :
      StepCase line c rest (.one (.breaks (String.ofList (breaks (c :: rest)).1)) line
        (line + lineFeeds (breaks (c :: rest)).1) (breaks (c :: rest)).2)
  | blanks {c : Char} {rest : List Char} (hb : startsBreak (c :: rest) = false)
      (h : startsBlank (c :: rest) = true) :
      StepCase line c rest (.one (.blanks (String.ofList (blanks (c :: rest)).1)) line line
        (blanks (c :: rest)).2)
  | comment {rest : List Char} :
      StepCase line '#' rest (.one (.comment (String.ofList (comment rest).1)) line line
        (comment rest).2)
  | quoted {rest : List Char} : StepCase line '"' rest (quotedStep line rest)
  | ending {rest : List Char} :
      StepCase line ';' (';' :: rest) (.one .expressionEnd line line rest)
  | mark {c : Char} {rest : List Char} {l : Lexeme} (hl : Lexeme.ofChar? c = some l)
      (h : startsExpressionEnd (c :: rest) = false) : StepCase line c rest (.one l line line rest)
  | expression {c : Char} {rest : List Char} {key : String} (ho : OpensWord c rest)
      (h : Keys.expressionKeyOf? ((c :: rest).take Keys.lookahead) = some key) :
      StepCase line c rest (expressionStep key line (rest.drop key.length))
  | word {c : Char} {rest : List Char} (ho : OpensWord c rest)
      (h : Keys.expressionKeyOf? ((c :: rest).take Keys.lookahead) = none) :
      StepCase line c rest (.one (.word (String.ofList (c :: (wordTail rest).1))) line line
        (wordTail rest).2)

/-- A character with a lexeme of its own is a mark or a semicolon. -/
theorem end_or_mark_of_ofChar? {c : Char} {l : Lexeme} (h : Lexeme.ofChar? c = some l) :
    l = .expressionEnd ∨ ∃ m, l = .mark m := by
  unfold Lexeme.ofChar? at h
  split at h <;> simp only [Option.some.injEq, reduceCtorEq] at h <;> simp [← h]

theorem startsExpressionEnd_eq_true {text : List Char} (h : startsExpressionEnd text = true) :
    ∃ rest, text = ';' :: ';' :: rest := by
  unfold startsExpressionEnd at h
  split at h
  · exact ⟨_, rfl⟩
  · simp at h

theorem stepCase_step (line : Nat) (c : Char) (rest : List Char) :
    StepCase line c rest (step line c rest) := by
  unfold step
  -- The tests of a step, in the order in which it makes them.
  by_cases hb : startsBreak (c :: rest) = true
  · rw [if_pos hb]
    exact .breaks hb
  rw [if_neg hb]
  by_cases hw : startsBlank (c :: rest) = true
  · rw [if_pos hw]
    exact .blanks (Bool.eq_false_iff.mpr hb) hw
  rw [if_neg hw]
  by_cases hc : c = '#'
  · rw [if_pos hc]
    subst hc
    exact .comment
  rw [if_neg hc]
  by_cases hq : c = '"'
  · rw [if_pos hq]
    subst hq
    exact .quoted
  rw [if_neg hq]
  by_cases he : startsExpressionEnd (c :: rest) = true
  · rw [if_pos he]
    obtain ⟨left, hl⟩ := startsExpressionEnd_eq_true he
    obtain ⟨rfl, rfl⟩ := List.cons.inj hl
    exact .ending
  rw [if_neg he]
  cases hl : Lexeme.ofChar? c with
  | some l => exact .mark hl (Bool.eq_false_iff.mpr he)
  | none =>
    have ho : OpensWord c rest :=
      ⟨Bool.eq_false_iff.mpr hb, Bool.eq_false_iff.mpr hw, hc, hq, hl⟩
    dsimp only
    split
    · rename_i key hk
      exact .expression ho hk
    · rename_i hk
      exact .word ho hk

/-- Where a word may begin, no expression ends. -/
theorem OpensWord.not_end {c : Char} {rest : List Char} (h : OpensWord c rest) :
    startsExpressionEnd (c :: rest) = false := by
  refine Bool.eq_false_iff.mpr fun he => ?_
  obtain ⟨left, hl⟩ := startsExpressionEnd_eq_true he
  obtain ⟨rfl, -⟩ := List.cons.inj hl
  exact absurd h.not_mark (by decide)

/-- Where a word may begin, a step reads an expression key with its expression or a word. -/
theorem step_of_opensWord {c : Char} {rest : List Char} (line : Nat) (ho : OpensWord c rest) :
    step line c rest = match Keys.expressionKeyOf? ((c :: rest).take Keys.lookahead) with
      | some key => expressionStep key line (rest.drop key.length)
      | none => .one (.word (String.ofList (c :: (wordTail rest).1))) line line
          (wordTail rest).2 := by
  unfold step
  rewrite [ho.not_break, ho.not_blank, ho.not_end, ho.not_mark, if_neg (by simp),
    if_neg (by simp), if_neg ho.not_hash, if_neg ho.not_quote, if_neg (by simp)]
  rfl

theorem step_of_break {c : Char} {rest : List Char} (line : Nat)
    (h : startsBreak (c :: rest) = true) :
    step line c rest = .one (.breaks (String.ofList (breaks (c :: rest)).1)) line
      (line + lineFeeds (breaks (c :: rest)).1) (breaks (c :: rest)).2 := by
  unfold step
  rw [if_pos h]

theorem startsBreak_of_startsBlank {text : List Char} (h : startsBlank text = true) :
    startsBreak text = false := by
  cases text with
  | nil => rfl
  | cons c rest =>
    simp only [startsBlank, Bool.and_eq_true, Bool.not_eq_true'] at h
    exact h.2

theorem step_of_blank {c : Char} {rest : List Char} (line : Nat)
    (h : startsBlank (c :: rest) = true) :
    step line c rest = .one (.blanks (String.ofList (blanks (c :: rest)).1)) line line
      (blanks (c :: rest)).2 := by
  unfold step
  rw [startsBreak_of_startsBlank h, if_neg (by simp), if_pos h]

theorem step_hash (line : Nat) (rest : List Char) :
    step line '#' rest = .one (.comment (String.ofList (comment rest).1)) line line
      (comment rest).2 := rfl

theorem step_of_mark {c : Char} {rest : List Char} {l : Lexeme} (line : Nat)
    (hl : Lexeme.ofChar? c = some l) (h : startsExpressionEnd (c :: rest) = false) :
    step line c rest = .one l line line rest := by
  unfold Lexeme.ofChar? at hl
  split at hl <;> simp only [Option.some.injEq, reduceCtorEq] at hl <;> subst hl
  case h_7 =>
    unfold step
    rewrite [show startsBreak (';' :: rest) = false from rfl,
      show startsBlank (';' :: rest) = false from rfl, h]
    rfl
  all_goals rfl

/-! ## Cuts -/

theorem append_breaks (text : List Char) : (breaks text).1 ++ (breaks text).2 = text :=
  append_splitWhile _ text

theorem append_blanks (text : List Char) : (blanks text).1 ++ (blanks text).2 = text :=
  append_splitWhile _ text

theorem append_comment (text : List Char) : (comment text).1 ++ (comment text).2 = text :=
  append_splitWhile _ text

theorem append_wordTail (text : List Char) : (wordTail text).1 ++ (wordTail text).2 = text :=
  append_splitWhile _ text

/-- An expression is cut off where its end starts. -/
theorem splitWhile_of_expression? {text taken left : List Char}
    (h : expression? text = some (taken, left)) :
    splitWhile (!startsExpressionEnd ·) text = (taken, left) ∧ left ≠ [] := by
  unfold expression? at h
  dsimp only at h
  split at h
  · simp at h
  · rename_i hne
    have hspan := Option.some.inj h
    exact ⟨hspan, by rwa [hspan] at hne⟩

/-- The text of an expression goes up to its end. -/
theorem expression?_eq_some {text taken left : List Char}
    (h : expression? text = some (taken, left)) :
    taken ++ left = text ∧ startsExpressionEnd left = true := by
  obtain ⟨hspan, hne⟩ := splitWhile_of_expression? h
  have happ := append_splitWhile (!startsExpressionEnd ·) text
  have hleft := splitWhile_left (!startsExpressionEnd ·) text
  rw [hspan] at happ hleft
  exact ⟨happ, by simpa using hleft.resolve_left hne⟩

/-- A key that is found stands at the front of the text, with its colon. -/
theorem eq_append_of_expressionKeyOf? {text : List Char} {key : String} {n : Nat}
    (h : Keys.expressionKeyOf? (text.take n) = some key) :
    ∃ rest, text = key.toList ++ ':' :: rest := by
  have hp := List.isPrefixOf_iff_prefix.mp (Keys.isPrefixOf_of_expressionKeyOf? h)
  obtain ⟨rest, hr⟩ := hp.trans (List.take_prefix n text)
  exact ⟨rest, by simpa using hr.symm⟩

/-- What stands after the first character of a key with its colon. -/
theorem drop_of_eq_append {c : Char} {rest left : List Char} {key : String}
    (h : c :: rest = key.toList ++ ':' :: left) : rest.drop key.length = left := by
  have hd : (c :: rest).drop (key.length + 1) = left := by
    rw [h, ← String.length_toList, show key.toList ++ ':' :: left = (key.toList ++ [':']) ++ left
      by simp, List.drop_left' (by simp)]
  simpa using hd

theorem step_quote (line : Nat) (rest : List Char) :
    step line '"' rest = quotedStep line rest := rfl

/-! ## Pieces that may be unfinished -/

section pieces

variable {line after : Nat} {key : String} {text left : List Char} {e : LexError}

/-- A step over a quoted literal goes on behind its closing quote. -/
theorem quotedStep_of_next (h : (quotedStep line text).next = .ok (after, left)) :
    ∃ span, quoted? text = some span ∧ left = span.left ∧ (quotedStep line text).tokens =
      [⟨.quoted (String.ofList span.raw) (String.ofList span.text), line⟩] := by
  unfold quotedStep at h ⊢
  cases hq : quoted? text with
  | none => simp [hq] at h
  | some span =>
    simp only [hq, Step.one, Except.ok.injEq, Prod.mk.injEq] at h
    exact ⟨span, rfl, h.2.symm, rfl⟩

theorem quotedStep_of_error (h : (quotedStep line text).next = .error e) :
    quoted? text = none ∧ e = .unterminatedString line ∧ (quotedStep line text).tokens = [] := by
  unfold quotedStep at h ⊢
  cases hq : quoted? text with
  | none => exact ⟨rfl, by simpa [hq, eq_comm] using h, rfl⟩
  | some span => simp [hq, Step.one] at h

/-- A step over an expression key goes on at the end of the expression. -/
theorem expressionStep_of_next (h : (expressionStep key line text).next = .ok (after, left)) :
    ∃ taken, expression? text = some (taken, left) ∧ (expressionStep key line text).tokens =
      [⟨.word key, line⟩, ⟨.mark .colon, line⟩, ⟨.expression (String.ofList taken), line⟩] := by
  unfold expressionStep at h ⊢
  cases he : expression? text with
  | none => simp [he] at h
  | some span =>
    simp only [he, Except.ok.injEq, Prod.mk.injEq] at h
    exact ⟨span.1, by rw [← h.2], rfl⟩

theorem expressionStep_of_error (h : (expressionStep key line text).next = .error e) :
    expression? text = none ∧ e = .unterminatedExpression line ∧
      (expressionStep key line text).tokens = [⟨.word key, line⟩, ⟨.mark .colon, line⟩] := by
  unfold expressionStep at h ⊢
  cases he : expression? text with
  | none => exact ⟨rfl, by simpa [he, eq_comm] using h, rfl⟩
  | some span => simp [he] at h

end pieces

/-! ## Going on -/

theorem step_of_next {line : Nat} {c : Char} {rest : List Char}
    {next : Except LexError (Nat × List Char)} (h : (step line c rest).next = next) :
    step line c rest = ⟨(step line c rest).tokens, next⟩ := by
  rw [← h]

/-- A scan goes on from where a step leaves it. -/
theorem ofChars_of_step {line after : Nat} {c : Char} {rest left : List Char} {tokens : List Token}
    (h : step line c rest = ⟨tokens, .ok (after, left)⟩) :
    Scan.ofChars line (c :: rest) = (Scan.ofChars after left).after tokens := by
  rw [Scan.ofChars]
  split
  · rename_i e he
    rw [h] at he
    simp at he
  · rename_i next left' hn
    rw [h] at hn ⊢
    simp only [Except.ok.injEq, Prod.mk.injEq] at hn
    obtain ⟨rfl, rfl⟩ := hn
    rfl

/-- A scan stops where a step does. -/
theorem ofChars_of_step_error {line : Nat} {c : Char} {rest : List Char} {tokens : List Token}
    {e : LexError} (h : step line c rest = ⟨tokens, .error e⟩) :
    Scan.ofChars line (c :: rest) = ⟨tokens, some e⟩ := by
  rw [Scan.ofChars]
  split
  · rename_i e' he
    rw [h] at he ⊢
    simp only [Except.error.injEq] at he
    rw [he]
  · rename_i next left hn
    rw [h] at hn
    simp at hn

/-- Whether `first` is the first step of the scan of a text, which starts on `line`. -/
def StepsTo (line : Nat) (text : List Char) (first : Step) : Prop :=
  ∃ c rest, text = c :: rest ∧ step line c rest = first

theorem StepsTo.ofChars {line after : Nat} {text left : List Char} {tokens : List Token}
    (h : StepsTo line text ⟨tokens, .ok (after, left)⟩) :
    Scan.ofChars line text = (Scan.ofChars after left).after tokens := by
  obtain ⟨c, rest, rfl, hs⟩ := h
  exact ofChars_of_step hs

theorem StepsTo.ofChars_error {line : Nat} {text : List Char} {tokens : List Token} {e : LexError}
    (h : StepsTo line text ⟨tokens, .error e⟩) : Scan.ofChars line text = ⟨tokens, some e⟩ := by
  obtain ⟨c, rest, rfl, hs⟩ := h
  exact ofChars_of_step_error hs

theorem step_ending (line : Nat) (rest : List Char) :
    step line ';' (';' :: rest) = .one .expressionEnd line line rest := rfl

theorem ofChars_ending (line : Nat) (rest : List Char) :
    Scan.ofChars line (';' :: ';' :: rest) =
      (Scan.ofChars line rest).after [⟨.expressionEnd, line⟩] :=
  ofChars_of_step (step_ending line rest)

/-- A source has tokens if no step of its scan fails: a start, and what the steps emit. -/
theorem tokenize_eq_ok_iff {source : String} {tokens : List Token} :
    tokenize source = .ok tokens ↔ (Scan.ofChars 1 source.toList).error? = none ∧
      ⟨.streamStart, 1⟩ :: (Scan.ofChars 1 source.toList).tokens = tokens := by
  unfold tokenize scan Scan.ofText Scan.after Scan.result
  cases (Scan.ofChars 1 source.toList).error? <;> simp

theorem tokenize_eq_error_iff {source : String} {e : LexError} :
    tokenize source = .error e ↔ (Scan.ofChars 1 source.toList).error? = some e := by
  unfold tokenize scan Scan.ofText Scan.after Scan.result
  cases (Scan.ofChars 1 source.toList).error? <;> simp

end LookML.Token
