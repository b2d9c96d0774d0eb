import LookML.ParseError

/-!
# Parser state — a cursor over tokens

A parser stands between two tokens.  It remembers the farthest token it has reached, which is
where errors point, and how many rules it is in the middle of, which tells the root container from
the others.  `rest` is the view of the cursor: what it reads is the head of `rest`, and moving it
drops from `rest`.
-/

namespace LookML

/-- One entry of a parser's log. -/
inductive Parser.Entry where
  /-- A document is begun, out of so many tokens. -/
  | started (tokens : Nat)
  /-- A document is complete, with so many items. -/
  | finished (items : Nat)
  /-- A rule is tried at a token, so many rules deep. -/
  | entered (rule : String) (depth index : Nat)
  /-- A rule does not match and returns to its token. -/
  | rewound (rule : String) (depth index : Nat)
deriving DecidableEq, Repr

/-- A cursor over tokens. -/
structure Parser where
  tokens : Array Token
  /-- The number of tokens before the cursor. -/
  index : Nat := 0
  /-- The farthest token reached. -/
  progress : Nat := 0
  /-- The number of rules being tried. -/
  depth : Nat := 0
  /-- What happened so far, latest first. -/
  log : List Parser.Entry := []
deriving Repr

namespace Parser

/-- A parser before its first token. -/
def ofTokens (tokens : List Token) : Parser :=
  { tokens := tokens.toArray }

/-- The tokens after the cursor. -/
def rest (p : Parser) : List Token :=
  p.tokens.toList.drop p.index

/-- The number of tokens after the cursor. -/
def remaining (p : Parser) : Nat :=
  p.tokens.size - p.index

/-! ## Looking ahead -/

def peek? (p : Parser) : Option Token :=
  p.tokens[p.index]?

/-- The next `n` tokens, fewer near the end. -/
def peekMany (p : Parser) (n : Nat) : List Token :=
  (p.tokens.extract p.index (p.index + n)).toList

/-- The longest run of tokens from place `i` on that satisfy `keep`. -/
def runFrom (keep : Token → Bool) (tokens : Array Token) (i : Nat) : List Token :=
  if h : i < tokens.size then
    if keep tokens[i] then tokens[i] :: runFrom keep tokens (i + 1) else []
  else
    []
termination_by tokens.size - i

/-- The longest run of tokens after the cursor that satisfy `keep`. -/
def run (keep : Token → Bool) (p : Parser) : List Token :=
  runFrom keep p.tokens p.index

/-- The next token that is no trivia. -/
def nextSignificant? (p : Parser) : Option Token :=
  p.tokens[p.index + (p.run Token.isTrivia).length]?

def progressToken? (p : Parser) : Option Token :=
  p.tokens[p.progress]?

/-- The line that errors point at. -/
def errorLine (p : Parser) : Nat :=
  match p.progressToken? with
  | some token => token.line
  | none => 1

/-- The error for a fault that is met now. -/
def errorOf (p : Parser) (fault : Fault) : ParseError :=
  .grammatical ⟨fault, p.errorLine⟩

/-- Whether the next token satisfies `accept`, trivia before it passed over on demand. -/
def compare (accept : Token → Bool) (skipTrivia : Bool) (p : Parser) : Bool :=
  (if skipTrivia then p.nextSignificant? else p.peek?).any accept

/-! ## Moving -/

/-- Moves past `n` tokens, or to the end. -/
def seek (p : Parser) (n : Nat) : Parser :=
  let index := min (p.index + n) p.tokens.size
  { p with index, progress := min (max p.progress index) (p.tokens.size - 1) }

def note (p : Parser) (entry : Entry) : Parser :=
  { p with log := entry :: p.log }

def read? (p : Parser) : Option Token × Parser :=
  match p.peek? with
  | some token => (some token, p.seek 1)
  | none => (none, p)

/-- Reads the next `n` tokens, fewer near the end. -/
def readMany (p : Parser) (n : Nat) : List Token × Parser :=
  (p.peekMany n, p.seek (p.peekMany n).length)

/-- Reads the next token and returns its text. -/
def readValue (p : Parser) : Except ParseError String × Parser :=
  match p.read? with
  | (none, q) => (.error (q.errorOf .endOfStream), q)
  | (some token, q) =>
    match token.value? with
    | some text => (.ok text, q)
    | none => (.error (.grammatical ⟨.noValue token.lexeme.describe, token.line⟩), q)

/-- Whether a token is taken in a run of trivia, or of trivia that may end a line. -/
def keepsTrivia (onlyLines : Bool) (token : Token) : Bool :=
  if onlyLines then token.lexeme.isLineTrivia else token.lexeme.isTrivia

/-- Reads the trivia that comes next and returns its source. -/
def readTrivia (onlyLines : Bool) (p : Parser) : String × Parser :=
  let trivia := p.run (keepsTrivia onlyLines)
  (Token.sourceAll trivia, p.seek trivia.length)

/-! ## The view -/

theorem peek?_eq_head? (p : Parser) : p.peek? = p.rest.head? := by
  simp [peek?, rest]

/-- Moving drops from the rest. -/
theorem rest_seek (p : Parser) (n : Nat) : (p.seek n).rest = p.rest.drop n := by
  simp only [seek, rest, List.drop_drop]
  rcases Nat.le_total (p.index + n) p.tokens.size with h | h
  · rw [Nat.min_eq_left h]
  · rw [Nat.min_eq_right h, List.drop_eq_nil_of_le (by simp), List.drop_eq_nil_of_le (by simpa)]

/-- A run is read off the tokens from its place on. -/
theorem runFrom_eq_takeWhile (keep : Token → Bool) (tokens : Array Token) (i : Nat) :
    runFrom keep tokens i = (tokens.toList.drop i).takeWhile keep := by
  fun_induction runFrom keep tokens i with
  | case1 i h hk ih =>
    rw [List.drop_eq_getElem_cons (by simpa using h),
      List.takeWhile_cons_of_pos (by simpa using hk), ih, Array.getElem_toList]
  | case2 i h hk =>
    rw [List.drop_eq_getElem_cons (by simpa using h),
      List.takeWhile_cons_of_neg (by simpa using hk)]
  | case3 i h =>
    rw [List.drop_eq_nil_of_le (by simpa using h), List.takeWhile_nil]

theorem run_eq_takeWhile (keep : Token → Bool) (p : Parser) :
    p.run keep = p.rest.takeWhile keep :=
  runFrom_eq_takeWhile keep p.tokens p.index

end Parser

end LookML
