import LookML.Keys
import LookML.Token.Basic
import LookML.Token.Span

/-!
# Scan — a source as a sequence of tokens

A scan goes through the text once, from left to right.  Each step looks at what comes next, emits
its tokens and leaves a shorter text, so the scan ends.  Two pieces can be left unfinished, a
quoted literal and an expression; either stops the scan.
-/

namespace LookML

/-! ## Errors -/

/-- Why a scan stops before the end of its text. -/
inductive LexError where
  /-- A quoted literal that starts on `line` has no closing quote. -/
  | unterminatedString (line : Nat)
  /-- An expression that starts on `line` has no `;;`. -/
  | unterminatedExpression (line : Nat)
deriving DecidableEq, Repr

namespace LexError

def line : LexError → Nat
  | unterminatedString line | unterminatedExpression line => line

def message : LexError → String
  | unterminatedString line => s!"unterminated string literal on line {line}"
  | unterminatedExpression line =>
    s!"expression block on line {line} is missing its closing ';;'"

end LexError

namespace Token

/-! ## One step -/

/-- What one step of a scan emits, and where it leaves the scan: the line and the text that
follow, or the error that stops it. -/
structure Step where
  tokens : List Token
  next : Except LexError (Nat × List Char)
deriving Repr

/-- A step that emits one token on `line` and leaves `left`, which starts on `after`. -/
def Step.one (lexeme : Lexeme) (line after : Nat) (left : List Char) : Step :=
  ⟨[⟨lexeme, line⟩], .ok (after, left)⟩

/-- The expression after a key that was just read with its colon. -/
def expressionStep (key : String) (line : Nat) (text : List Char) : Step :=
  let opening : List Token := [⟨.word key, line⟩, ⟨.mark .colon, line⟩]
  match expression? text with
  | none => ⟨opening, .error (.unterminatedExpression line)⟩
  | some (taken, left) =>
    ⟨opening ++ [⟨.expression (String.ofList taken), line⟩], .ok (line + lineFeeds taken, left)⟩

/-- The quoted literal after an opening quote that was just read. -/
def quotedStep (line : Nat) (text : List Char) : Step :=
  match quoted? text with
  | none => ⟨[], .error (.unterminatedString line)⟩
  | some span =>
    .one (.quoted (String.ofList span.raw) (String.ofList span.text)) line
      (line + lineFeeds span.raw) span.left

/-- One step of a scan, on the text `c :: rest` that starts on `line`. -/
def step (line : Nat) (c : Char) (rest : List Char) : Step :=
  if startsBreak (c :: rest) then
    let (taken, left) := breaks (c :: rest)
    .one (.breaks (String.ofList taken)) line (line + lineFeeds taken) left
  else if startsBlank (c :: rest) then
    let (taken, left) := blanks (c :: rest)
    .one (.blanks (String.ofList taken)) line line left
  else if c = '#' then
    let (taken, left) := comment rest
    .one (.comment (String.ofList taken)) line line left
  else if c = '"' then
    quotedStep line rest
  else if startsExpressionEnd (c :: rest) then
    .one .expressionEnd line line rest.tail
  else
    match Lexeme.ofChar? c with
    | some lexeme => .one lexeme line line rest
    | none =>
      match Keys.expressionKeyOf? ((c :: rest).take Keys.lookahead) with
      | some key => expressionStep key line (rest.drop key.length)
      | none =>
        let (taken, left) := wordTail rest
        .one (.word (String.ofList (c :: taken))) line line left

/-- A step leaves a shorter text. -/
theorem length_lt_of_step {line after : Nat} {c : Char} {rest left : List Char}
    (h : (step line c rest).next = .ok (after, left)) : left.length < rest.length + 1 := by
  unfold step at h
  split at h
  · rename_i hb
    have := length_splitWhile_lt hb
    simp only [Step.one, Except.ok.injEq, Prod.mk.injEq] at h
    rw [← h.2]
    exact this
  split at h
  · rename_i hb
    have := length_splitWhile_lt hb
    simp only [Step.one, Except.ok.injEq, Prod.mk.injEq] at h
    rw [← h.2]
    exact this
  split at h
  · have := length_splitWhile_le (!startsBreak ·) rest
    simp only [Step.one, Except.ok.injEq, Prod.mk.injEq] at h
    rw [← h.2]
    exact Nat.lt_succ_of_le this
  split at h
  · unfold quotedStep at h
    split at h
    · simp at h
    · rename_i span hs
      have := length_of_quoted? hs
      simp only [Step.one, Except.ok.injEq, Prod.mk.injEq] at h
      rw [← h.2]
      omega
  split at h
  · simp only [Step.one, Except.ok.injEq, Prod.mk.injEq] at h
    rw [← h.2, List.length_tail]
    omega
  split at h
  · simp only [Step.one, Except.ok.injEq, Prod.mk.injEq] at h
    rw [← h.2]
    exact Nat.lt_succ_self _
  split at h
  · unfold expressionStep at h
    dsimp only at h
    split at h
    · simp at h
    · rename_i hs
      have := length_of_expression? hs
      simp only [Except.ok.injEq, Prod.mk.injEq] at h
      rw [List.length_drop] at this
      rw [← h.2]
      omega
  · have := length_splitWhile_le continuesWord rest
    simp only [Step.one, Except.ok.injEq, Prod.mk.injEq] at h
    rw [← h.2]
    exact Nat.lt_succ_of_le this

end Token

/-! ## The whole text -/

/-- The tokens that a scan emits, and the error that stops it, if one does. -/
structure Scan where
  tokens : List Token
  error? : Option LexError := none
deriving DecidableEq, Repr

namespace Scan

/-- A scan that emits `tokens` before `rest`. -/
def after (tokens : List Token) (rest : Scan) : Scan :=
  { rest with tokens := tokens ++ rest.tokens }

/-- Scans `text`, which starts on `line`, up to the end token. -/
def ofChars (line : Nat) (text : List Char) : Scan :=
  match text with
  | [] => ⟨[⟨.streamEnd, line⟩], none⟩
  | c :: rest =>
    match _h : (Token.step line c rest).next with
    | .error e => ⟨(Token.step line c rest).tokens, some e⟩
    | .ok (next, left) => (ofChars next left).after (Token.step line c rest).tokens
termination_by text.length
decreasing_by
  exact Token.length_lt_of_step _h

/-- Scans `text`, which starts on `line`, between a start and an end token. -/
def ofText (line : Nat) (text : List Char) : Scan :=
  (ofChars line text).after [⟨.streamStart, line⟩]

/-- The tokens of a scan that went through, or its error. -/
def result (scan : Scan) : Except LexError (List Token) :=
  match scan.error? with
  | some e => .error e
  | none => .ok scan.tokens

end Scan

/-- The scan of a source, from its first line. -/
def scan (source : String) : Scan :=
  .ofText 1 source.toList

/-- The tokens of a source, or the error that stops its scan. -/
def tokenize (source : String) : Except LexError (List Token) :=
  (scan source).result

end LookML
