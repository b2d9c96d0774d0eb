import LookML.Build.Document

/-!
# Shapes — the plain data that a dump keeps

Whether an entry keeps its shape depends on its key and on the block around it: a list under a
plural spelling is written as siblings there or it is not, a text under an expression key loses the
blanks around it, and a text `name` becomes the name of its block, which loads as its last field.
Data is well-shaped where nothing of that kind is lost.
-/

namespace LookML

namespace Keys

/-- Whether a list under `key` stands for siblings, in a block under `parent?`. -/
def expands (parent? : Option String) (key : String) : Bool :=
  ({ layout := {}, parent? } : Builder.Place).expands key

/-- Whether values of `key` are neither gathered nor expressions. -/
def IsPlain (key : String) : Prop :=
  isPlural key = false ∧ isExpression key = false

/-- Whether a text under `key` is kept.  An expression is trimmed and holds no end, and it has no
place among the texts of a filter, which are quoted. -/
def Keeps (parent? : Option String) (key text : String) : Prop :=
  isExpression key = true → parent? ≠ some "filters" ∧ Text.trim text = text ∧
    Builder.holdsExpressionEnd text.toList = false

end Keys

namespace Value

/-- Whether a value is one field with a text, under a key that a list can have. -/
def IsField : Value → Prop
  | object ⟨[(key, string _)]⟩ => Builder.isBareWord key = true ∧ Keys.isExpression key = false
  | _ => False

/-- Whether the items of a list are texts, or one or more fields. -/
def AreRow (items : List Value) : Prop :=
  (∀ item ∈ items, item.string?.isSome) ∨ items ≠ [] ∧ ∀ item ∈ items, item.IsField

/-- Whether a value is a text or a list of texts or fields. -/
def IsLoose : Value → Prop
  | string _ => True
  | list items => AreRow items
  | object _ => False

/-- Whether the name that the fields of a block under `key` give it is a bare word and comes
last. -/
def NameIsLast (key : String) (fields : List (String × Value)) : Prop :=
  ∀ name ∈ Builder.nameOf? key ⟨fields⟩,
    Builder.isBareWord name = true ∧ fields.getLast? = some ("name", string name)

/-- Whether the first of gathered filters has a field and no name. -/
def FirstFilters (items : List Value) : Prop :=
  ∃ first ∈ items.head?.bind object?, first.contains "field" = true ∧ first.contains "name" = false

mutual

/-- Whether the fields of a block under `parent?`, or of the root, have distinct bare keys and
fit there. -/
def FieldsFit (parent? : Option String) : List (String × Value) → Prop
  | [] => True
  | (key, value) :: rest =>
    Builder.isBareWord key = true ∧ key ∉ rest.map Prod.fst ∧ value.Fits parent? key ∧
      FieldsFit parent? rest

/-- Whether a value fits as the field `key` of a block under `parent?`.  A list under a plural
spelling has the siblings that it stands for. -/
def Fits (parent? : Option String) (key : String) : Value → Prop
  | string text => Keys.isPlural key = false ∧ Keys.Keeps parent? key text
  | list items =>
    if Keys.expands parent? key then
      Keys.pluralize (Keys.singularize key) = key ∧ items ≠ [] ∧
        if Keys.singularize key = "filters" then
          (∀ item ∈ items, item.IsLoose) ∨ FirstFilters items ∧ FiltersFit items
        else SiblingsFit parent? (Keys.singularize key) items
    else Keys.IsPlain key ∧ AreRow items
  | object ⟨fields⟩ => Keys.IsPlain key ∧ NameIsLast key fields ∧ FieldsFit (some key) fields

/-- Whether values fit as siblings under a plural key. -/
def SiblingsFit (parent? : Option String) (key : String) : List Value → Prop
  | [] => True
  | value :: rest => value.FitsBeside parent? key ∧ SiblingsFit parent? key rest

/-- Whether a value fits as one of siblings under a plural key. -/
def FitsBeside (parent? : Option String) (key : String) : Value → Prop
  | string text => Keys.Keeps parent? key text
  | list items => (key = "extends" ∨ key = "bind_filters") ∧ AreRow items
  | object ⟨fields⟩ =>
    Keys.isExpression key = false ∧ NameIsLast key fields ∧ FieldsFit (some key) fields

/-- Whether values fit as gathered filters that are blocks. -/
def FiltersFit : List Value → Prop
  | [] => True
  | object ⟨fields⟩ :: rest => FieldsFit (some "filters") fields ∧ FiltersFit rest
  | _ :: _ => False

end

end Value

/-- Whether the fields of the root are well-shaped. -/
def Object.IsWellShaped (root : Object Value) : Prop :=
  Value.FieldsFit none root.entries

end LookML
