import LookML.Parser.Production

/-!
# Grammar — the rules of LookML

    document = container
    container = { block | pair | list }
    block = key [ word ] "{" container "}"
    pair = key value
    list = key "[" [ "," ] [ entries [ "," ] ] "]"
    entries = pair { "," pair } | value { "," value }
    key = word ":"
    value = word | quoted | expression ";;"

Trivia may stand anywhere and goes to the leaf next to it.  The rules that contain themselves are
written over the rule inside, so that each stands on its own; `containerWithin` ties the knot, as
deep as there are tokens left.
-/

namespace LookML.Parser

open Production

/-! ## Leaves -/

/-- A comma with the trivia around it. -/
def comma : Production Leaf :=
  attempt "comma" do
    let before ← trivia
    let line ← mark .comma
    let after ← trivia
    return { Leaf.mark .comma with before, after, line? := some line }

/-- A key and the colon after it. -/
def key : Production (Leaf × Leaf) :=
  attempt "key" do
    let before ← trivia
    let key ← word
    let colonBefore ← trivia
    let line ← mark .colon
    let after ← trivia
    return ({ key with before },
      { Leaf.mark .colon with before := colonBefore, after, line? := some line })

/-- A mark that opens or closes, with the trivia before it and that which ends its line. -/
def bracket (m : Mark) : Production Leaf := do
  let before ← trivia
  let line ← mark m
  let after ← lineTrivia
  return { Leaf.mark m with before, after, line? := some line }

def expressionEnd : Production Unit :=
  take fun token => if token.lexeme = .expressionEnd then some () else none

/-- A value from its first token on.  Only after a word does its trivia reach past the line. -/
def literal : Production Leaf := do
  let some token ← looking peek? | mismatch
  match token.lexeme with
  | .word text =>
    skip
    let after ← trivia
    return { Leaf.word text with after, line? := some token.line }
  | .quoted raw text =>
    skip
    let after ← lineTrivia
    return { Leaf.quotedRaw text raw with after, line? := some token.line }
  | .expression text =>
    skip
    orFail expressionEnd .openExpression
    let after ← lineTrivia
    return { Leaf.expressionOf text with after, line? := some token.line }
  | _ => mismatch

/-- A word, a quoted literal or an expression. -/
def value : Production Leaf :=
  attempt "value" do
    let before ← trivia
    let leaf ← literal
    return { leaf with before }

/-! ## Pairs and lists -/

/-- A key and its value. -/
def pair : Production Pair :=
  attempt "pair" do
    let (key, colon) ← key
    let value ← value
    return { key, colon, value }

/-- The entries of a list with the commas between them and after them. -/
structure ListValues where
  entries : Entries
  separators : List Leaf
  trailing? : Option Leaf
deriving DecidableEq, Repr

/-- One entry of a list. -/
inductive ListEntry where
  | pair (pair : Pair)
  | value (value : Leaf)
deriving DecidableEq, Repr

namespace ListEntry

/-- The leaf that is the value of an entry. -/
def valueLeaf : ListEntry → Leaf
  | pair p => p.value
  | value v => v

def asPair : ListEntry → Except Fault Pair
  | pair p => .ok p
  | value _ => .error .pairExpected

def asValue : ListEntry → Except Fault Leaf
  | pair _ => .error .valueExpected
  | value v => .ok v

end ListEntry

/-- Fails if the value of an entry is an expression. -/
def plainEntry (entry : ListEntry) : Production ListEntry :=
  fun p =>
    if entry.valueLeaf.isExpression then
      failAt .expressionInList (entry.valueLeaf.line?.getD p.errorLine) p
    else
      result entry p

/-- A pair or a value that is no expression. -/
def listEntry : Production ListEntry := do
  let entry ← orElse (ListEntry.pair <$> pair) (orFail (ListEntry.value <$> value) .missingEntry)
  plainEntry entry

/-- Makes something of an entry, or fails. -/
def pick {α : Type} (as : ListEntry → Except Fault α) (entry : ListEntry) : Production α :=
  match as entry with
  | .ok value => .result value
  | .error fault => fail fault

/-- Fails where the stream ends. -/
def beforeStreamEnd : Production Unit := do
  if ← atStreamEnd then fail .endOfStream

/-- The entries after the first, each with the comma before it, and the comma after the last. -/
def moreEntries {α : Type} (as : ListEntry → Except Fault α) :
    Nat → Production (List (Leaf × α) × Option Leaf)
  | 0 => mismatch
  | fuel + 1 => do
    if ← comesNext .bracketClose then return ([], none)
    beforeStreamEnd
    let comma ← orFail comma .missingComma
    if ← comesNext .bracketClose then return ([], some comma)
    beforeStreamEnd
    let entry ← listEntry
    let value ← pick as entry
    let (more, trailing?) ← moreEntries as fuel
    return ((comma, value) :: more, trailing?)

/-- The entries of a list whose first entry is `first`. -/
def entriesFrom {α : Type} (as : ListEntry → Except Fault α) (gather : List α → Entries)
    (first : α) : Production ListValues := do
  let (more, trailing?) ← fun p => moreEntries as (p.remaining + 1) p
  return { entries := gather (first :: more.map Prod.snd), separators := more.map Prod.fst,
           trailing? }

/-- What stands in a list before its closing bracket. -/
def listValues : Production ListValues := do
  if ← comesNext .bracketClose then
    return { entries := .values [], separators := [], trailing? := none }
  beforeStreamEnd
  match ← listEntry with
  | .pair p => entriesFrom ListEntry.asPair .pairs p
  | .value v => entriesFrom ListEntry.asValue .values v

/-- A key and a bracketed list. -/
def listing : Production Listing :=
  attempt "list" do
    let (key, colon) ← key
    let before ← trivia
    let line ← mark .bracketOpen
    let opening := { Leaf.mark .bracketOpen with before, line? := some line }
    let leading? ← optional comma
    let values ← listValues
    let closing ← bracket .bracketClose
    return { key, colon, opening, leading?, entries := values.entries,
             separators := values.separators, trailing? := values.trailing?, closing }

/-! ## Blocks and containers -/

/-- A key, a name if there is one, and a braced container. -/
def blockOf (container : Production Container) : Production Block :=
  attempt "block" do
    let (key, colon) ← key
    let name? ← optional word
    let opening ← bracket .braceOpen
    let container ← container
    let closing ← bracket .braceClose
    return { key, colon, name?, opening, container, closing }

/-- How a token is named where no item starts. -/
def found (token : Token) : String :=
  if token.lexeme = .streamEnd then "end of stream" else "'" ++ Text.trim token.source ++ "'"

/-- Fails because no item starts here. -/
def noItem {α : Type} : Production α :=
  fun p => fail (.noItem ((p.progressToken?.map found).getD "end of stream")) p

/-- A block, a pair or a list. -/
def itemOf (container : Production Container) : Production Item :=
  orElse (Item.block <$> blockOf container) <|
    orElse (Item.pair <$> pair) <|
      orElse (Item.listing <$> listing) noItem

/-- Whether a container ends here. -/
def atContainerEnd : Production Bool :=
  looking fun p => p.nextSignificant?.all fun token =>
    token.lexeme == .streamEnd || token.lexeme == .mark .braceClose

/-- Items up to the end of their container. -/
def items (item : Production Item) : Nat → Production (List Item)
  | 0 => mismatch
  | fuel + 1 => do
    if ← atContainerEnd then return []
    let first ← item
    let rest ← items item fuel
    return first :: rest

/-- The checked container of `items`; the outermost one is at the top level. -/
def checked (items : List Item) : Production Container :=
  fun p =>
    match Container.of items (p.depth == 1) with
    | .ok container => .matched container p
    | .error e => .failed (.duplicate e) p

/-- Items up to the end of their container, checked for repeated keys. -/
def containerOf (item : Production Item) : Production Container :=
  attempt "container" do
    let members ← fun p => items item (p.remaining + 1) p
    checked members

/-- A container that holds blocks nested less than `fuel` deep. -/
def containerWithin : Nat → Production Container
  | 0 => mismatch
  | fuel + 1 => containerOf (itemOf (containerWithin fuel))

/-- Blocks, pairs and lists up to a closing brace or the end of the stream. -/
def container : Production Container :=
  fun p => containerWithin (p.remaining + 1) p

def block : Production Block :=
  blockOf container

/-! ## Documents -/

/-- Fails where something other than the end of the stream follows. -/
def nothingLeft : Production Unit := do
  if let some token ← looking peek? then
    if token.lexeme ≠ .streamEnd then failAt (.leftOver (found token)) token.line

def streamStart : Production Unit :=
  take fun token => if token.lexeme = .streamStart then some () else none

/-- A whole source. -/
def document : Production Document := do
  record (.started (← looking (·.tokens.size)))
  let _ ← optional streamStart
  let before ← trivia
  let container ← container
  let after ← trivia
  nothingLeft
  record (.finished container.items.length)
  return { container, before, after }

end LookML.Parser
