/-!
# JSON values

A number keeps the text it is written as; nothing here computes with one. The fields of an
object stand in a list, and a reader takes the first of a name.
-/

namespace HappyView.Foundation

inductive Json where
  | null
  | bool (value : Bool)
  | number (literal : String)
  | string (text : String)
  | array (items : List Json)
  | object (fields : List (String × Json))

namespace Json

def asString : Json → Option String
  | .string text => some text
  | _ => none

def asArray : Json → Option (List Json)
  | .array items => some items
  | _ => none

def get (name : String) : Json → Option Json
  | .object fields => (fields.find? (·.1 == name)).map (·.2)
  | _ => none

/-! ## The texts in a value -/

mutual

/-- Every string in the value that `keep` holds of, at any depth; names of fields do not
count. -/
def strings (keep : String → Bool) : Json → List String
  | .string text => if keep text then [text] else []
  | .array items => itemStrings keep items
  | .object fields => fieldStrings keep fields
  | .null | .bool _ | .number _ => []

def itemStrings (keep : String → Bool) : List Json → List String
  | [] => []
  | item :: items => strings keep item ++ itemStrings keep items

def fieldStrings (keep : String → Bool) : List (String × Json) → List String
  | [] => []
  | (_, value) :: fields => strings keep value ++ fieldStrings keep fields

end

end Json

end HappyView.Foundation
