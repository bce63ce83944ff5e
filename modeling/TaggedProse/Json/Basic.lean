/-!
JSON values as they are written: the members of an object stand in their order and may repeat a
name.
-/
namespace TaggedProse

inductive Json where
  | null
  | bool (value : Bool)
  /-- A number, kept as written. -/
  | number (numeral : String)
  /-- A string, or `none` for one whose escapes hold half of a surrogate pair and so name no text. -/
  | string (text : Option String)
  | array (items : List Json)
  | object (members : List (Option String × Json))
  deriving Inhabited

namespace Json

def ofString (s : String) : Json := .string (some s)

def ofMembers (members : List (String × Json)) : Json :=
  .object (members.map fun (name, j) => (some name, j))

end Json

end TaggedProse
