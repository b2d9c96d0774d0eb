import LookML.Build.Layout

/-!
# Built pairs and lists — texts in the form that reads back

A text is written as a word if it can stand unquoted, as an expression under an expression key,
and in quotes otherwise.  A list holds texts, or objects of texts that become its pairs.
-/

namespace LookML.Builder

/-! ## Leaves -/

/-- Whether `c` keeps a text from standing unquoted. -/
def breaksWord (c : Char) : Bool :=
  Text.isBlank c || c == '\x00' || c == ':' || c == '{' || c == '}' || c == '[' || c == ']' ||
    c == ',' || c == '"'

/-- Whether a text can stand unquoted. -/
def isBareWord (text : String) : Bool :=
  match text.toList with
  | [] => false
  | c :: rest => c != '#' && c != ';' && !(c :: rest).any breaksWord

/-- The leaf for a key or a name under `key`. -/
def keyLeaf (key text : String) : Building Leaf :=
  if isBareWord text then return .word text else throw (.unwritable key text)

/-- The leaf for a value of `key`. -/
def valueLeaf (key text : String) (quotes : Bool) : Leaf :=
  if quotes || Keys.isQuoted key then .quoted text
  else if Keys.isExpression key then .expression (Text.trim text)
  else if isBareWord text then .word text
  else .quoted text

/-- Whether a text holds the end of an expression. -/
def holdsExpressionEnd : List Char → Bool
  | ';' :: ';' :: _ => true
  | _ :: rest => holdsExpressionEnd rest
  | [] => false

/-! ## Pairs and lists -/

def pair (place : Place) (key text : String) : Building Pair := do
  let value := valueLeaf key text (place.quotes key)
  if value.isExpression && holdsExpressionEnd text.toList then throw (.unwritable key text)
  let leaf ← keyLeaf key key
  let before := place.beforeItem (← get).previous
  wrote .pair
  return { key := { leaf with before }, value }

/-- The pairs of one object in a list. -/
def fieldPairs (place : Place) : List (String × Value) → Building (List Pair)
  | [] => return []
  | (field, .string text) :: rest => do
    let first ← pair place field text
    let more ← fieldPairs place rest
    return first :: more
  | (field, other) :: _ => throw (.unsupported field other.kind)

def listPairs (place : Place) (key : String) : List Value → Building (List Pair)
  | [] => return []
  | .object fields :: rest => do
    let first ← fieldPairs place fields.entries
    let more ← listPairs place key rest
    return first ++ more
  | other :: _ => throw (.unsupported key other.kind)

/-- The entry of a list under `key` for a text.  An expression has no place in a list. -/
def entryLeaf (key text : String) (quotes : Bool) : Leaf :=
  let leaf := valueLeaf key text quotes
  if leaf.isExpression then .quoted text else leaf

/-- The entries of a list of texts, each with `before` before it. -/
def listLeaves (key before : String) (quotes : Bool) : List Value → Building (List Leaf)
  | [] => return []
  | .string text :: rest => do
    let more ← listLeaves key before quotes rest
    return { entryLeaf key text quotes with before } :: more
  | other :: _ => throw (.unsupported key other.kind)

/-- Whether a list is written with an entry to a line. -/
def isTall (layout : Layout) (values : List Value) : Bool :=
  values.any (·.object?.isSome) || values.length > layout.listThreshold

/-- The entries of a list under `key`: pairs if it holds an object, else plain values. -/
def entries (place : Place) (key : String) (values : List Value) : Building Entries := do
  let tall := isTall place.layout values
  let inner := if tall then place.inside key else { place with parent? := some key }
  if values.any (·.object?.isSome) then
    return .pairs (← listPairs inner key values)
  else
    return .values (← listLeaves key (if tall then inner.newline else "") (place.quotes key) values)

/-- A list with an entry to a line and a comma after each. -/
def tallListing (place : Place) (key : Leaf) (entries : Entries) : Listing :=
  { key, entries
    separators := List.replicate (entries.length - 1) (.mark .comma)
    trailing? := if entries.isEmpty then none else some (.mark .comma)
    closing := { Leaf.mark .bracketClose with before := place.newline } }

def listing (place : Place) (key : String) (values : List Value) : Building Listing := do
  let leaf ← keyLeaf key key
  let leaf := { leaf with before := place.beforeItem (← get).previous }
  let tall := isTall place.layout values
  if tall then wrote .opened
  let entries ← entries place key values
  wrote .list
  return if tall then tallListing place leaf entries else .inline leaf entries

end LookML.Builder
