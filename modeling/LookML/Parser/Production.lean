import LookML.Parser.State

/-!
# Productions — rules that match, do not match, or fail

A production reads from a parser and gives one of three replies: it matches with a value, it does
not match, or it fails for good.  A sequence stops at the first reply that is no match; `attempt`
takes the cursor back where a rule does not match, so that another one can be tried there.
-/

namespace LookML.Parser

/-- The reply of a production, with the parser as it leaves it. -/
inductive Reply (α : Type) where
  | matched (value : α) (next : Parser)
  | unmatched (next : Parser)
  | failed (error : ParseError) (next : Parser)
deriving Repr

/-- The parser that a reply leaves. -/
def Reply.next {α : Type} : Reply α → Parser
  | matched _ p | unmatched p | failed _ p => p

/-- A rule that reads from a parser. -/
def Production (α : Type) : Type :=
  Parser → Reply α

namespace Production

/-- Matches `value` and reads nothing. -/
def result {α : Type} (value : α) : Production α :=
  fun p => .matched value p

def andThen {α β : Type} (first : Production α) (second : α → Production β) : Production β :=
  fun p =>
    match first p with
    | .matched value next => second value next
    | .unmatched next => .unmatched next
    | .failed e next => .failed e next

instance : Monad Production where
  pure := result
  bind := andThen

def mismatch {α : Type} : Production α :=
  fun p => .unmatched p

/-- Fails with a fault on the line reached so far. -/
def fail {α : Type} (fault : Fault) : Production α :=
  fun p => .failed (p.errorOf fault) p

/-- Fails with a fault on a line of its own. -/
def failAt {α : Type} (fault : Fault) (line : Nat) : Production α :=
  fun p => .failed (.grammatical ⟨fault, line⟩) p

/-- Reads by a function on parsers, which always matches. -/
def reading {α : Type} (f : Parser → α × Parser) : Production α :=
  fun p => .matched (f p).1 (f p).2

/-- Looks by a function on parsers, and reads nothing. -/
def looking {α : Type} (f : Parser → α) : Production α :=
  fun p => .matched (f p) p

/-- Tries the second production where the first does not match. -/
def orElse {α : Type} (first second : Production α) : Production α :=
  fun p =>
    match first p with
    | .unmatched next => second next
    | reply => reply

/-- Matches whether or not the production does. -/
def optional {α : Type} (production : Production α) : Production (Option α) :=
  fun p =>
    match production p with
    | .matched value next => .matched (some value) next
    | .unmatched next => .matched none next
    | .failed e next => .failed e next

/-- Fails with a fault where the production does not match. -/
def orFail {α : Type} (production : Production α) (fault : Fault) : Production α :=
  production.orElse (fail fault)

/-- Tries a rule one level deeper, and takes the cursor back if it does not match. -/
def attempt {α : Type} (rule : String) (production : Production α) : Production α :=
  fun p =>
    match production ({ p with depth := p.depth + 1 }.note (.entered rule p.depth p.index)) with
    | .matched value next => .matched value { next with depth := next.depth - 1 }
    | .unmatched next =>
      .unmatched { next.note (.rewound rule p.depth p.index) with
        index := p.index, depth := next.depth - 1 }
    | .failed e next => .failed e { next with depth := next.depth - 1 }

def record (entry : Entry) : Production Unit :=
  fun p => .matched () (p.note entry)

/-! ## Single tokens -/

def skip : Production Unit :=
  fun p => .matched () (p.seek 1)

/-- Reads the next token if `accept` makes something of it. -/
def take {α : Type} (accept : Token → Option α) : Production α :=
  fun p =>
    match p.peek?.bind accept with
    | some value => .matched value (p.seek 1)
    | none => .unmatched p

/-- Reads a mark and returns its line. -/
def mark (m : Mark) : Production Nat :=
  take fun token => if token.lexeme = .mark m then some token.line else none

/-- Reads an unquoted literal and returns it as a leaf. -/
def word : Production Leaf :=
  take fun token =>
    match token.lexeme with
    | .word text => some { Leaf.word text with line? := some token.line }
    | _ => none

/-- Reads trivia and returns its source. -/
def trivia : Production String :=
  reading (readTrivia false)

/-- Reads trivia that may end a line and returns its source. -/
def lineTrivia : Production String :=
  reading (readTrivia true)

/-- Whether a mark comes next, trivia before it passed over. -/
def comesNext (m : Mark) : Production Bool :=
  looking fun p => p.nextSignificant?.any fun token => token.lexeme == .mark m

/-- Whether only trivia comes before the end of the stream. -/
def atStreamEnd : Production Bool :=
  looking fun p => p.nextSignificant?.all fun token => token.lexeme == .streamEnd

end Production

end LookML.Parser
