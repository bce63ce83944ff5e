import TaggedProse.Json.Token
/-!
Reading JSON. The tokens are taken one after the other; the arrays and objects that are not complete
form a stack, and each step depends only on its top and on what is expected next.
-/
namespace TaggedProse.Json

/-- An array or object under way; what it holds stands in reverse. -/
inductive Partial where
  | array (items : List Json)
  | object (members : List (Option String × Json))
  /-- An object whose next member has this name. -/
  | member (name : Option String) (members : List (Option String × Json))

inductive Expected where
  | value
  /-- A value, or the end of the array that has just begun. -/
  | firstItem
  | memberName
  /-- A member's name, or the end of the object that has just begun. -/
  | firstMember
  | colon
  /-- A comma or the end of what is under way, or the end of the text. -/
  | next

structure Progress where
  /-- The innermost first. -/
  stack : List Partial
  expected : Expected
  /-- The value that the text consists of, once it is complete. -/
  result : Option Json

/-- Puts a complete value where it belongs. -/
def Progress.deliver (j : Json) : List Partial → Option Progress
  | [] => some ⟨[], .next, some j⟩
  | .array items :: outer => some ⟨.array (j :: items) :: outer, .next, none⟩
  | .member name members :: outer => some ⟨.object ((name, j) :: members) :: outer, .next, none⟩
  | .object _ :: _ => none

def Progress.step (p : Progress) (t : Token) : Option Progress :=
  match p.expected, t, p.stack with
  | .value, .atom j, stack | .firstItem, .atom j, stack => deliver j stack
  | .value, .string s, stack | .firstItem, .string s, stack => deliver (.string s) stack
  | .value, .openBracket, stack | .firstItem, .openBracket, stack =>
    some ⟨.array [] :: stack, .firstItem, none⟩
  | .value, .openBrace, stack | .firstItem, .openBrace, stack =>
    some ⟨.object [] :: stack, .firstMember, none⟩
  | .firstItem, .closeBracket, .array items :: outer => deliver (.array items.reverse) outer
  | .next, .closeBracket, .array items :: outer => deliver (.array items.reverse) outer
  | .next, .comma, .array items :: outer => some ⟨.array items :: outer, .value, none⟩
  | .firstMember, .closeBrace, .object ms :: outer => deliver (.object ms.reverse) outer
  | .next, .closeBrace, .object ms :: outer => deliver (.object ms.reverse) outer
  | .next, .comma, .object ms :: outer => some ⟨.object ms :: outer, .memberName, none⟩
  | .firstMember, .string s, .object ms :: outer | .memberName, .string s, .object ms :: outer =>
    some ⟨.member s ms :: outer, .colon, none⟩
  | .colon, .colon, stack => some ⟨stack, .value, none⟩
  | _, _, _ => none

def read? (s : List Char) : Option Json := do
  let p ← (← tokens? s).foldlM Progress.step ⟨[], .value, none⟩
  p.result

end TaggedProse.Json
