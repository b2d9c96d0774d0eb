import LookML.Object

/-!
# Values — LookML as plain data

A value is a text, a list or an object.  Every scalar of LookML is a text; blocks and documents
are objects.
-/

namespace LookML

/-- Plain data. -/
inductive Value where
  | string (text : String)
  | list (items : List Value)
  | object (fields : Object Value)
deriving Repr, Inhabited

namespace Value

def string? : Value → Option String
  | string text => some text
  | _ => none

def list? : Value → Option (List Value)
  | list items => some items
  | _ => none

def object? : Value → Option (Object Value)
  | object fields => some fields
  | _ => none

/-- What a value is called in a message. -/
def kind : Value → String
  | string _ => "string"
  | list _ => "list"
  | object _ => "object"

/-- The value with one field. -/
def single (key : String) (value : Value) : Value :=
  object ⟨[(key, value)]⟩

/-! ## Equality -/

mutual

def decideEq : (a b : Value) → Decidable (a = b)
  | string s, string t => if h : s = t then isTrue (by simp [h]) else isFalse (by simp [h])
  | list xs, list ys =>
    match decideEqAll xs ys with
    | isTrue h => isTrue (by simp [h])
    | isFalse h => isFalse (by simp [h])
  | object ⟨xs⟩, object ⟨ys⟩ =>
    match decideEqEntries xs ys with
    | isTrue h => isTrue (by simp [h])
    | isFalse h => isFalse (by simp [h])
  | string _, list _ | string _, object _ | list _, string _ | list _, object _
  | object _, string _ | object _, list _ => isFalse (by simp)

def decideEqAll : (a b : List Value) → Decidable (a = b)
  | [], [] => isTrue rfl
  | [], _ :: _ => isFalse (by simp)
  | _ :: _, [] => isFalse (by simp)
  | a :: as, b :: bs =>
    match decideEq a b with
    | isTrue h =>
      match decideEqAll as bs with
      | isTrue hs => isTrue (by simp [h, hs])
      | isFalse hs => isFalse (by simp [hs])
    | isFalse h => isFalse (by simp [h])

def decideEqEntries : (a b : List (String × Value)) → Decidable (a = b)
  | [], [] => isTrue rfl
  | [], _ :: _ => isFalse (by simp)
  | _ :: _, [] => isFalse (by simp)
  | (j, a) :: as, (k, b) :: bs =>
    match decideEq a b with
    | isTrue h =>
      match decideEqEntries as bs with
      | isTrue hs => if hk : j = k then isTrue (by simp [h, hs, hk]) else isFalse (by simp [hk])
      | isFalse hs => isFalse (by simp [hs])
    | isFalse h => isFalse (by simp [h])

end

instance : DecidableEq Value := decideEq

end Value

end LookML
