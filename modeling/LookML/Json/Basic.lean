import LookML.Object

/-!
# JSON values
-/

namespace LookML

/-- A JSON value.  A number keeps the text it is written as. -/
inductive Json where
  | null
  | boolean (value : Bool)
  | number (text : String)
  | string (text : String)
  | array (items : List Json)
  | object (fields : Object Json)
deriving Repr, Inhabited

/-- What a JSON value is called in a message. -/
def Json.kind : Json → String
  | null => "null"
  | boolean _ => "boolean"
  | number _ => "number"
  | string _ => "string"
  | array _ => "array"
  | object _ => "object"

end LookML
