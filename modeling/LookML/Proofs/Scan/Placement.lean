import LookML.Proofs.Scan.Closing
import LookML.Proofs.Scan.Lines

/-!
# Placement — where in its source each token was scanned

A scan goes through its text from left to right, so the place of a token is known by the text that
is left there.  `placed` keeps that text beside each token.  Each token ends where the next one
starts (`Abuts`), which fixes the places of all of them.  The line of a token is the one of its
place, and a scan fails where it comes to a quote or an expression key that nothing closes
(`lines_of_scan`).
-/

namespace LookML.Token

/-! ## Places -/

/-- A token with the text of its source from its place on. -/
structure Placed where
  token : Token
  text : List Char

/-- Some tokens at the front of `text`, each where the source of the one before it ends. -/
def placeAll (text : List Char) : List Token → List Placed
  | [] => []
  | t :: tokens => ⟨t, text⟩ :: placeAll (text.drop t.source.toList.length) tokens

/-- The tokens of a scan of `text`, which starts on `line`, in their places. -/
def placedFrom (line : Nat) (text : List Char) : List Placed :=
  match text with
  | [] => [⟨⟨.streamEnd, line⟩, []⟩]
  | c :: rest =>
    match _h : (step line c rest).next with
    | .error _ => placeAll (c :: rest) (step line c rest).tokens
    | .ok (next, left) => placeAll (c :: rest) (step line c rest).tokens ++ placedFrom next left
termination_by text.length
decreasing_by
  exact length_lt_of_step _h

/-- The tokens that the scan of a source emits, in their places. -/
def placed (source : String) : List Placed :=
  ⟨⟨.streamStart, 1⟩, source.toList⟩ :: placedFrom 1 source.toList

theorem map_token_placeAll (text : List Char) (tokens : List Token) :
    (placeAll text tokens).map Placed.token = tokens := by
  induction tokens generalizing text with
  | nil => rfl
  | cons t tokens ih => rw [placeAll, List.map_cons, ih]

theorem map_token_placedFrom (line : Nat) (text : List Char) :
    (placedFrom line text).map Placed.token = (Scan.ofChars line text).tokens := by
  fun_induction placedFrom line text with
  | case1 line => rw [Scan.ofChars]; rfl
  | case2 line c rest e he => rw [map_token_placeAll, ofChars_of_step_error (step_of_next he)]
  | case3 line c rest next left hn ih =>
    rw [List.map_append, map_token_placeAll, ih, ofChars_of_step (step_of_next hn)]
    rfl

/-- The tokens in their places are all that a scan emits, also before it fails. -/
theorem map_token_placed (source : String) :
    (placed source).map Placed.token = (scan source).tokens := by
  rw [placed, List.map_cons, map_token_placedFrom]
  rfl

/-! ## Steps that fail -/

/-- What a step emits before it fails at the front of `text`, and how it fails. -/
inductive StepFails (line : Nat) (text : List Char) (tokens : List Token) : LexError → Prop where
  | string {rest : List Char} (htext : text = '"' :: rest) (ht : tokens = [])
      (h : quoted? rest = none) : StepFails line text tokens (.unterminatedString line)
  | expression {key : String} {rest : List Char} (hk : key ∈ Keys.expressionKeys)
      (htext : text = key.toList ++ ':' :: rest)
      (ht : tokens = [⟨.word key, line⟩, ⟨.mark .colon, line⟩]) (h : expression? rest = none) :
      StepFails line text tokens (.unterminatedExpression line)

theorem stepFails_step {line : Nat} {c : Char} {rest : List Char} {e : LexError}
    (h : (step line c rest).next = .error e) :
    StepFails line (c :: rest) (step line c rest).tokens e := by
  have hs := stepCase_step line c rest
  generalize step line c rest = s at h hs
  cases hs with
  | quoted =>
    obtain ⟨hq, rfl, ht⟩ := quotedStep_of_error h
    exact .string rfl ht hq
  | @expression _ _ key ho hk =>
    obtain ⟨text, ht⟩ := eq_append_of_expressionKeyOf? hk
    rw [drop_of_eq_append ht] at h ⊢
    obtain ⟨he, rfl, htokens⟩ := expressionStep_of_error h
    exact .expression (Keys.mem_of_expressionKeyOf? hk) ht htokens he
  | breaks | blanks | comment | ending | mark | word => simp [Step.one] at h

/-! ## Neighbours -/

/-- Whether `p` ends where `q` starts.  Its text is its source, or a `;` by itself. -/
def Placed.Abuts (p q : Placed) : Prop :=
  p.text = p.token.source.toList ++ q.text ∨
    p.token.lexeme = .expressionEnd ∧ p.text = ';' :: q.text ∧ q.text.head? ≠ some ';'

/-- A step that goes through emits a token. -/
theorem exists_tokens_of_step {line after : Nat} {c : Char} {rest left : List Char}
    (h : (step line c rest).next = .ok (after, left)) :
    ∃ t tokens, (step line c rest).tokens = t :: tokens := by
  cases stepSpells_step h with
  | plain t ht => exact ⟨t, [], ht⟩
  | lone l ht => exact ⟨_, _, ht⟩
  | expression key e l ht => exact ⟨_, _, ht⟩

/-- The first of some tokens at the front of a text stands where the text starts. -/
theorem text_of_head?_placeAll {text : List Char} {tokens : List Token} {p : Placed}
    (h : p ∈ (placeAll text tokens).head?) : p.text = text := by
  cases tokens with
  | nil => simp [placeAll] at h
  | cons t tokens => exact (congrArg Placed.text (Option.some.inj h)).symm

/-- The first token of a scan stands where its text starts. -/
theorem text_of_head?_placedFrom {line : Nat} {text : List Char} {p : Placed}
    (h : p ∈ (placedFrom line text).head?) : p.text = text := by
  fun_induction placedFrom line text with
  | case1 line => exact (congrArg Placed.text (Option.some.inj h)).symm
  | case2 line c rest e he => exact text_of_head?_placeAll h
  | case3 line c rest next left hn ih =>
    obtain ⟨t, tokens, ht⟩ := exists_tokens_of_step hn
    rw [ht] at h
    exact (congrArg Placed.text (Option.some.inj h)).symm

/-- Each token of a scan ends where the next one starts. -/
theorem isChain_placedFrom (line : Nat) (text : List Char) :
    (placedFrom line text).IsChain Placed.Abuts := by
  fun_induction placedFrom line text with
  | case1 line => exact .singleton _
  | case2 line c rest e he =>
    cases stepFails_step he with
    | string htext ht => rw [ht]; exact .nil
    | @expression key rest hk htext ht =>
      rw [ht, htext]
      refine .cons_cons (.inl ?_) (.singleton _)
      simp [source, Lexeme.source]
  | case3 line c rest next left hn ih =>
    have hleft {q : Placed} (hq : q ∈ (placedFrom next left).head?) := text_of_head?_placedFrom hq
    cases stepSpells_step hn with
    | plain t ht hp htext =>
      rw [ht]
      exact ih.cons fun q hq => .inl (by rw [hleft hq]; exact htext)
    | lone l ht htext he =>
      rw [ht]
      refine ih.cons fun q hq => .inr ⟨rfl, by rw [hleft hq]; exact htext, ?_⟩
      rw [hleft hq]
      -- A `;` with another one after it would be read as an end.
      rintro hsemi
      obtain ⟨more, rfl⟩ := List.head?_eq_some_iff.mp hsemi
      simp [htext, startsExpressionEnd] at he
    | expression key e l ht htext he =>
      rw [ht, htext]
      refine .cons_cons (.inl ?_) (.cons_cons (.inl ?_) (ih.cons fun q hq => .inl ?_))
      · simp [source, Lexeme.source]
      · simp [source, Lexeme.source, Mark.symbol]
      · simp [source, Lexeme.source, Mark.symbol, hleft hq]

theorem isChain_placed (source : String) : (placed source).IsChain Placed.Abuts :=
  (isChain_placedFrom 1 source.toList).cons fun q hq => .inl (by
    rw [text_of_head?_placedFrom hq]
    rfl)

/-! ## Lines -/

/-- Whether a token at the front of `text`, which starts on `line`, stands on the line of its
place. -/
def Placed.IsOn (line : Nat) (text : List Char) (p : Placed) : Prop :=
  ∃ before, text = before ++ p.text ∧ p.token.line = line + lineFeeds before

/-- Tokens stand on the lines of their places if each stands on the line that the ones before it
reach, and these are spelled out in the text. -/
theorem isOn_placeAll {line : Nat} {text : List Char} {tokens : List Token}
    (hl : LinesFrom line tokens) (ht : (sourceAll tokens.dropLast).toList <+: text) :
    ∀ p ∈ placeAll text tokens, p.IsOn line text := by
  -- What is left of the text after a token starts on the line that the token reaches.
  induction tokens generalizing line text with
  | nil => simp [placeAll]
  | cons t tokens ih =>
    rw [placeAll, List.forall_mem_cons]
    refine ⟨⟨[], rfl, hl.1⟩, ?_⟩
    cases tokens with
    | nil => simp [placeAll]
    | cons u tokens =>
      rw [List.dropLast_cons_cons, sourceAll_cons, String.toList_append] at ht
      obtain ⟨more, rfl⟩ := (List.prefix_append _ _).trans ht
      rw [List.drop_left]
      intro p hp
      obtain ⟨before, hb, hline⟩ := ih hl.2 ((List.prefix_append_right_inj _).mp ht) p hp
      exact ⟨t.source.toList ++ before, by rw [hb, List.append_assoc], by
        rw [hline, lineFeeds_append, Nat.add_assoc]⟩

/-- What a step takes off its text, and the line on which it leaves the rest. -/
theorem exists_taken_of_step {line after : Nat} {c : Char} {rest left : List Char}
    (h : (step line c rest).next = .ok (after, left)) :
    ∃ taken, c :: rest = taken ++ left ∧ after = line + lineFeeds taken := by
  obtain ⟨taken, htext, hsource⟩ := exists_taken (step_of_next h)
  refine ⟨taken, htext, ?_⟩
  rw [(isOn_step line c rest).2 after left h, lineAfter, hsource]
  -- Doubling a `;` adds no line.
  cases hlone : Cut.isLone ⟨(step line c rest).tokens, taken⟩ with
  | true =>
    rw [Cut.doubled, if_pos hlone, show taken = [';'] from Cut.text_of_isLone hlone]
    rfl
  | false => rw [Cut.doubled, hlone, if_neg Bool.false_ne_true]

/-- What a step emits is spelled out in its text, up to the last of its tokens. -/
theorem prefix_of_step (line : Nat) (c : Char) (rest : List Char) :
    (sourceAll (step line c rest).tokens.dropLast).toList <+: c :: rest := by
  cases hn : (step line c rest).next with
  | error e =>
    cases stepFails_step hn with
    | string htext ht => simp [ht]
    | expression hk htext ht => simp [ht, htext, sourceAll, source, Lexeme.source]
  | ok next =>
    obtain ⟨after, left⟩ := next
    cases stepSpells_step hn with
    | plain t ht hp htext => simp [ht]
    | lone l ht htext he => simp [ht]
    | expression key e l ht htext he =>
      simp [ht, htext, sourceAll, source, Lexeme.source, Mark.symbol]

/-- The tokens of a scan stand on the lines of their places. -/
theorem isOn_placedFrom (line : Nat) (text : List Char) :
    ∀ p ∈ placedFrom line text, p.IsOn line text := by
  fun_induction placedFrom line text with
  | case1 line => simp [Placed.IsOn]
  | case2 line c rest e he =>
    exact isOn_placeAll (isOn_step line c rest).1 (prefix_of_step line c rest)
  | case3 line c rest next left hn ih =>
    rw [List.forall_mem_append]
    refine ⟨isOn_placeAll (isOn_step line c rest).1 (prefix_of_step line c rest), fun p hp => ?_⟩
    obtain ⟨taken, htext, rfl⟩ := exists_taken_of_step hn
    obtain ⟨before, hb, hline⟩ := ih p hp
    exact ⟨taken ++ before, by rw [htext, hb, List.append_assoc], by
      rw [hline, lineFeeds_append, Nat.add_assoc]⟩

/-- The tokens that a source gives stand on the lines of their places. -/
theorem isOn_placed (source : String) : ∀ p ∈ placed source, p.IsOn 1 source.toList := by
  rw [placed, List.forall_mem_cons]
  exact ⟨⟨[], rfl, rfl⟩, isOn_placedFrom 1 source.toList⟩

/-! ## Failures -/

/-- The places at which a scan of `text`, which starts on `line`, starts a step, with their
lines. -/
inductive Reaches (line : Nat) (text : List Char) : Nat → List Char → Prop where
  | start : Reaches line text line text
  | step {at' after : Nat} {c : Char} {rest left : List Char}
      (h : Reaches line text at' (c :: rest)) (hs : (step at' c rest).next = .ok (after, left)) :
      Reaches line text after left

namespace Reaches

variable {line at' : Nat} {text rest : List Char}

/-- A scan reaches what it reaches after its first step. -/
theorem cons {c : Char} {more left : List Char} {after : Nat}
    (hs : (Token.step line c more).next = .ok (after, left)) (h : Reaches after left at' rest) :
    Reaches line (c :: more) at' rest := by
  induction h with
  | start => exact .step .start hs
  | step _ hs' ih => exact .step ih hs'

/-- A place that a scan reaches is on the line of the text before it. -/
theorem exists_before (h : Reaches line text at' rest) :
    ∃ before, text = before ++ rest ∧ at' = line + lineFeeds before := by
  induction h with
  | start => exact ⟨[], rfl, rfl⟩
  | step _ hs ih =>
    obtain ⟨before, hb, hline⟩ := ih
    obtain ⟨taken, ht, rfl⟩ := exists_taken_of_step hs
    exact ⟨before ++ taken, by rw [hb, ht, List.append_assoc], by
      rw [hline, lineFeeds_append, Nat.add_assoc]⟩

/-- A scan fails as it does from where it has come to. -/
theorem error?_eq (h : Reaches line text at' rest) :
    (Scan.ofChars line text).error? = (Scan.ofChars at' rest).error? := by
  induction h with
  | start => rfl
  | step _ hs ih => rw [ih, ofChars_of_step (step_of_next hs), Scan.after]

end Reaches

/-- What a scan cannot finish at the front of a text with `before` before it, and the error that
says so: a quote that no quote closes, or an expression key with its colon and no `;;` after it. -/
inductive Unfinished (before : List Char) : List Char → LexError → Prop where
  | string {rest : List Char} (h : ¬ Closes rest) :
      Unfinished before ('"' :: rest) (.unterminatedString (1 + lineFeeds before))
  | expression {key : String} {rest : List Char} (hk : key ∈ Keys.expressionKeys)
      (h : ¬ [';', ';'] <:+: rest) :
      Unfinished before (key.toList ++ ':' :: rest)
        (.unterminatedExpression (1 + lineFeeds (before ++ key.toList ++ [':'])))

/-- An expression key and its colon stand on one line. -/
theorem lineFeeds_append_key {key : String} (hk : key ∈ Keys.expressionKeys) (before : List Char) :
    lineFeeds (before ++ key.toList ++ [':']) = lineFeeds before := by
  simp [lineFeeds_eq_zero (lineFeed_notMem_key hk), lineFeeds_cons_of_ne]

namespace Unfinished

variable {before text : List Char} {e : LexError}

/-- A step that fails has come to what the scan cannot finish. -/
theorem of_step {c : Char} {rest : List Char}
    (h : (step (1 + lineFeeds before) c rest).next = .error e) :
    Unfinished before (c :: rest) e := by
  cases stepFails_step h with
  | string htext ht hq =>
    rw [htext]
    exact .string (quoted?_eq_none_iff.mp hq)
  | expression hk htext ht he =>
    rw [htext, ← lineFeeds_append_key hk before]
    exact .expression hk (expression?_eq_none_iff.mp he)

/-- A scan fails at what it cannot finish. -/
theorem error?_eq (h : Unfinished before text e) :
    (Scan.ofChars (1 + lineFeeds before) text).error? = some e := by
  cases h with
  | @string rest h =>
    have hs : step (1 + lineFeeds before) '"' rest =
        ⟨[], .error (.unterminatedString (1 + lineFeeds before))⟩ := by
      rw [step_quote, quotedStep, quoted?_eq_none_iff.mpr h]
    rw [ofChars_of_step_error hs]
  | @expression key rest hk h =>
    obtain ⟨c, more, hc, hstep⟩ := step_key (by simpa [Keys.isExpression] using hk) rest
    have hs := hstep (1 + lineFeeds before)
    rw [expressionStep, expression?_eq_none_iff.mpr h] at hs
    rw [hc, ofChars_of_step_error hs, lineFeeds_append_key hk]

end Unfinished

/-- A scan that fails has come to the step that does. -/
theorem exists_reaches_of_error? {line : Nat} {text : List Char} {e : LexError}
    (h : (Scan.ofChars line text).error? = some e) :
    ∃ at' c rest, Reaches line text at' (c :: rest) ∧ (step at' c rest).next = .error e := by
  fun_induction Scan.ofChars line text with
  | case1 line => simp at h
  | case2 line c rest e' he =>
    obtain rfl := Option.some.inj h
    exact ⟨line, c, rest, .start, he⟩
  | case3 line c rest next left hn ih =>
    obtain ⟨at', d, more, hr, he⟩ := ih h
    exact ⟨at', d, more, hr.cons hn, he⟩

/-- A scan fails exactly where it comes to what it cannot finish. -/
theorem tokenize_eq_error_iff_unfinished {source : String} {e : LexError} :
    tokenize source = .error e ↔ ∃ before text line, source.toList = before ++ text ∧
      Reaches 1 source.toList line text ∧ Unfinished before text e := by
  rw [tokenize_eq_error_iff]
  constructor
  · intro h
    obtain ⟨line, c, rest, hr, he⟩ := exists_reaches_of_error? h
    obtain ⟨before, hb, rfl⟩ := hr.exists_before
    exact ⟨before, _, _, hb, hr, .of_step he⟩
  · rintro ⟨before, text, line, hb, hr, hu⟩
    obtain ⟨before', hb', rfl⟩ := hr.exists_before
    obtain rfl : before = before' := List.append_cancel_right (hb.symm.trans hb')
    rw [hr.error?_eq, hu.error?_eq]

/-- The lines of a scan.  Each token it emits has its place in the source, where the one before it
ends, and the line of a token is 1 and the line feeds before its place.  The scan fails exactly
where it comes to a quote that no quote closes or to an expression key with no `;;` after its colon,
on the line of the quote or of what follows the colon. -/
theorem lines_of_scan (source : String) :
    (placed source).map Placed.token = (scan source).tokens ∧
    (placed source).IsChain Placed.Abuts ∧
    (∀ p ∈ placed source, ∃ before, source.toList = before ++ p.text ∧
      p.token.line = 1 + lineFeeds before) ∧
    ∀ e, tokenize source = .error e ↔ ∃ before text line, source.toList = before ++ text ∧
      Reaches 1 source.toList line text ∧ Unfinished before text e := by
  exact ⟨map_token_placed source, isChain_placed source, isOn_placed source,
    fun e => tokenize_eq_error_iff_unfinished⟩

/-- A quoted literal that no quote closes, on the line of its opening quote. -/
example : tokenize "a: \"b\n\" sql: c;;\n:\"\\\"\n" = .error (.unterminatedString 3) := by
  decide +kernel

end LookML.Token
