import LookML.Build.Layout
import LookML.Json.Basic

/-!
# Plain data and JSON

Plain data is the part of JSON that has only strings, arrays and objects.  An object of JSON has
each key once; where plain data repeats a key, the last value takes the first place.
-/

namespace LookML.Value

mutual

/-- Plain data as JSON. -/
def toJson : Value → Json
  | string text => .string text
  | list items => .array (toJsonItems items)
  | object ⟨fields⟩ => .object (.ofList (toJsonFields fields))

def toJsonItems : List Value → List Json
  | [] => []
  | item :: items => item.toJson :: toJsonItems items

def toJsonFields : List (String × Value) → List (String × Json)
  | [] => []
  | (key, value) :: fields => (key, value.toJson) :: toJsonFields fields

end

mutual

/-- JSON as plain data.  A value of another kind is refused under the nearest key around it. -/
def ofJsonUnder (key : String) : Json → Except BuildError Value
  | .string text => .ok (.string text)
  | .array items => (ofJsonItems key items).map .list
  | .object ⟨fields⟩ => (ofJsonFields fields).map fun fields => .object (.ofList fields)
  | .number _ => .error (.unsupported key "number")
  | .boolean _ => .error (.unsupported key "boolean")
  | .null => .error (.unsupported key "null")

/-- Each item as plain data, up to the first that is refused. -/
def ofJsonItems (key : String) : List Json → Except BuildError (List Value)
  | [] => .ok []
  | item :: items => do
    let item ← ofJsonUnder key item
    let items ← ofJsonItems key items
    return item :: items

/-- Each field as plain data, up to the first that is refused. -/
def ofJsonFields : List (String × Json) → Except BuildError (List (String × Value))
  | [] => .ok []
  | (key, value) :: fields => do
    let value ← ofJsonUnder key value
    let fields ← ofJsonFields fields
    return (key, value) :: fields

end

def ofJson (json : Json) : Except BuildError Value :=
  ofJsonUnder "" json

end LookML.Value
