import RigWarden.Json.Basic

/-!
# Records in JSON

A record is an object in which every field occurs once, or an array of the fields in order. Other
fields of an object are passed over.
-/

namespace RigWarden.Json

def unique? (fields : List (String × Json)) (name : String) : Option Json :=
  match fields.filter (·.1 == name) with
  | [f] => some f.2
  | _ => none

def record? (names : List String) : Json → Option (List Json)
  | .object fields => names.mapM (unique? fields)
  | .array items => if items.length = names.length then some items else none
  | _ => none

def items? : Json → Option (List Json)
  | .array items => some items
  | _ => none

end RigWarden.Json
