import TaggedProse.Record
import TaggedProse.Json.Basic
/-!
Values and commands. Every value has an identity of its own, by which its line is remembered; two
values are alike when they agree in everything else. `nodes` lists a value and all values in it,
children before parents.
-/
namespace TaggedProse

inductive Value where
  | text (id : Nat) (text : String)
  /-- Named fields, in ascending order of their names. -/
  | object (id : Nat) (fields : List (String × Value))
  | list (id : Nat) (items : List Value)
  /-- Named fields, one of which holds the element's own text. -/
  | content (id : Nat) (fields : List (String × Value)) (field : String)

namespace Value

def id : Value → Nat
  | .text id _ | .object id _ | .list id _ | .content id _ _ => id

def isLeaf : Value → Bool
  | .text _ _ => true
  | _ => false

def text? : Value → Option String
  | .text _ t => some t
  | _ => none

def items? : Value → Option (List Value)
  | .list _ items => some items
  | _ => none

def get? (field : String) : Value → Option Value
  | .object _ fields | .content _ fields _ => Record.get? field fields
  | _ => none

def ownText? : Value → Option String
  | .content _ fields field => (Record.get? field fields).bind text?
  | _ => none

def children : Value → List Value
  | .text _ _ => []
  | .object _ fields | .content _ fields _ => fields.map Prod.snd
  | .list _ items => items

mutual

/-- The value and all values in it, each after those inside it. -/
def nodes : Value → List Value
  | .text id t => [.text id t]
  | .object id fields => fieldNodes fields ++ [.object id fields]
  | .list id items => itemNodes items ++ [.list id items]
  | .content id fields field => fieldNodes fields ++ [.content id fields field]

def fieldNodes : List (String × Value) → List Value
  | [] => []
  | (_, v) :: r => nodes v ++ fieldNodes r

def itemNodes : List Value → List Value
  | [] => []
  | v :: r => nodes v ++ itemNodes r

end

mutual

/-- Whether two values agree in everything but the identities. -/
def alike : Value → Value → Bool
  | .text _ s, .text _ t => s == t
  | .object _ fs, .object _ gs => fieldsAlike fs gs
  | .list _ vs, .list _ ws => itemsAlike vs ws
  | .content _ fs f, .content _ gs g => fieldsAlike fs gs && f == g
  | _, _ => false

def fieldsAlike : List (String × Value) → List (String × Value) → Bool
  | [], [] => true
  | (m, v) :: fs, (n, w) :: gs => m == n && alike v w && fieldsAlike fs gs
  | _, _ => false

def itemsAlike : List Value → List Value → Bool
  | [], [] => true
  | v :: vs, w :: ws => alike v w && itemsAlike vs ws
  | _, _ => false

end

mutual

/-- Text is a string; an object's fields become members, those with own text no less. -/
def toJson : Value → Json
  | .text _ t => .ofString t
  | .object _ fields | .content _ fields _ => .object (fieldsToJson fields)
  | .list _ items => .array (itemsToJson items)

def fieldsToJson : List (String × Value) → List (Option String × Json)
  | [] => []
  | (name, v) :: r => (some name, toJson v) :: fieldsToJson r

def itemsToJson : List Value → List Json
  | [] => []
  | v :: r => toJson v :: itemsToJson r

end

end Value

structure Command where
  name : String
  value : Value

namespace Command

def alike (c d : Command) : Bool := c.name == d.name && c.value.alike d.value

def toJson (c : Command) : Json := .object [(some c.name, c.value.toJson)]

end Command

end TaggedProse
