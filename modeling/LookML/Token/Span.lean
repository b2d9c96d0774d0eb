import LookML.Text.Escape

/-!
# Spans — cutting the next piece off a text

Each class of token is a longest run: characters are taken while a condition on the remaining text
holds.  `splitWhile` is that cut; it loses nothing, and what it leaves no longer meets the
condition.  A quoted literal is the one piece with a structure of its own.
-/

namespace LookML.Token

/-! ## Longest runs -/

/-- Cuts off the longest run at whose every character the remaining text satisfies `p`. -/
def splitWhile (p : List Char → Bool) : List Char → List Char × List Char
  | [] => ([], [])
  | c :: rest =>
    if p (c :: rest) then
      let (taken, left) := splitWhile p rest
      (c :: taken, left)
    else
      ([], c :: rest)

/-- A cut loses nothing. -/
theorem append_splitWhile (p : List Char → Bool) (text : List Char) :
    (splitWhile p text).1 ++ (splitWhile p text).2 = text := by
  induction text with
  | nil => rfl
  | cons c rest ih =>
    unfold splitWhile
    split <;> simp [ih]

/-- What a cut leaves is empty or does not satisfy the condition. -/
theorem splitWhile_left (p : List Char → Bool) (text : List Char) :
    (splitWhile p text).2 = [] ∨ p (splitWhile p text).2 = false := by
  induction text with
  | nil => exact .inl rfl
  | cons c rest ih =>
    unfold splitWhile
    split
    · exact ih
    · rename_i h
      exact .inr (by simpa using h)

/-- What a cut leaves is no longer than the text. -/
theorem length_splitWhile_le (p : List Char → Bool) (text : List Char) :
    (splitWhile p text).2.length ≤ text.length := by
  have h := congrArg List.length (append_splitWhile p text)
  rw [List.length_append] at h
  omega

/-- Where the condition holds, a cut takes something. -/
theorem length_splitWhile_lt {p : List Char → Bool} {c : Char} {rest : List Char}
    (h : p (c :: rest) = true) : (splitWhile p (c :: rest)).2.length < rest.length + 1 := by
  have := length_splitWhile_le p rest
  simp only [splitWhile, h, if_true]
  omega

/-! ## Conditions -/

/-- Whether `text` starts with a line break: a line feed, or a carriage return before one. -/
def startsBreak : List Char → Bool
  | '\n' :: _ => true
  | '\r' :: '\n' :: _ => true
  | _ => false

/-- Whether `text` starts with white space within a line. -/
def startsBlank : List Char → Bool
  | [] => false
  | c :: rest => (c == ' ' || c == '\t' || c == '\r') && !startsBreak (c :: rest)

/-- Whether `c` ends an unquoted literal. -/
def endsWord (c : Char) : Bool :=
  c == '\x00' || c == ' ' || c == '\n' || c == '\r' || c == '\t' || c == ':' || c == '}' ||
    c == '{' || c == ',' || c == ']'

/-- Whether an unquoted literal goes on into `text`. -/
def continuesWord : List Char → Bool
  | [] => false
  | c :: _ => !endsWord c

/-- Whether `text` starts with the end of an expression. -/
def startsExpressionEnd : List Char → Bool
  | ';' :: ';' :: _ => true
  | _ => false

/-! ## Pieces -/

/-- The line breaks at the start of `text`. -/
def breaks (text : List Char) : List Char × List Char :=
  splitWhile startsBreak text

/-- The white space within a line at the start of `text`. -/
def blanks (text : List Char) : List Char × List Char :=
  splitWhile startsBlank text

/-- The rest of the line, its line break not included. -/
def comment (text : List Char) : List Char × List Char :=
  splitWhile (!startsBreak ·) text

/-- The rest of an unquoted literal. -/
def wordTail (text : List Char) : List Char × List Char :=
  splitWhile continuesWord text

/-- An expression up to its end, the end not included, and what follows with the end.  `none` if
the end is missing. -/
def expression? (text : List Char) : Option (List Char × List Char) :=
  let span := splitWhile (!startsExpressionEnd ·) text
  if span.2 = [] then none else some span

/-- The pieces of a quoted literal: the raw text between the quotes, the text it means, and what
follows the closing quote. -/
structure QuotedSpan where
  raw : List Char
  text : List Char
  left : List Char
deriving DecidableEq, Repr

namespace QuotedSpan

/-- A quoted literal that begins with the plain character `c`. -/
def plain (c : Char) (span : QuotedSpan) : QuotedSpan :=
  { span with raw := c :: span.raw, text := c :: span.text }

/-- A quoted literal that begins with the escaped character `c`. -/
def escaped (c : Char) (span : QuotedSpan) : QuotedSpan :=
  { span with raw := '\\' :: c :: span.raw, text := c :: span.text }

end QuotedSpan

/-- The quoted literal whose opening quote stands just before `text`.  `none` if its closing quote
is missing. -/
def quoted? : List Char → Option QuotedSpan
  | [] => none
  | c :: rest =>
    if c = '"' then some ⟨[], [], rest⟩
    else if c = '\\' then
      match rest with
      | [] => none
      | e :: rest => (quoted? rest).map (QuotedSpan.escaped e)
    else (quoted? rest).map (QuotedSpan.plain c)

/-- A quoted literal and its closing quote are what was scanned. -/
theorem append_of_quoted? {text : List Char} {span : QuotedSpan} (h : quoted? text = some span) :
    span.raw ++ '"' :: span.left = text := by
  fun_induction quoted? text generalizing span with
  | case1 => simp at h
  | case2 rest =>
    obtain rfl := Option.some.inj h
    rfl
  | case3 => simp at h
  | case4 _ e rest ih =>
    obtain ⟨inner, hi, rfl⟩ := Option.map_eq_some_iff.mp h
    simp_all [QuotedSpan.escaped]
  | case5 c rest _ _ ih =>
    obtain ⟨inner, hi, rfl⟩ := Option.map_eq_some_iff.mp h
    simp [QuotedSpan.plain, ih hi]

/-- What follows a quoted literal is shorter than what was scanned. -/
theorem length_of_quoted? {text : List Char} {span : QuotedSpan} (h : quoted? text = some span) :
    span.left.length < text.length := by
  have := congrArg List.length (append_of_quoted? h)
  simp only [List.length_append, List.length_cons] at this
  omega

/-- What follows an expression is no longer than what was scanned. -/
theorem length_of_expression? {text taken left : List Char}
    (h : expression? text = some (taken, left)) : left.length ≤ text.length := by
  have hle := length_splitWhile_le (!startsExpressionEnd ·) text
  simp only [expression?] at h
  split at h
  · simp at h
  · rw [Option.some.inj h] at hle
    exact hle

/-- The number of line feeds in `text`. -/
def lineFeeds (text : List Char) : Nat :=
  text.count '\n'

end LookML.Token
