import TaggedProse.Schema.Description
import TaggedProse.Yaml.Node.Basic
/-!
Schema descriptions from YAML. A structure is a mapping with an entry for each of its fields, where
entries of other names are passed over; fields that have a default may be missing. Any scalar is a
text, and a blank one is an empty mapping or sequence as well. Aliases are followed where a value is
read, at most a hundred times for every event of the document.
-/
namespace TaggedProse

namespace Yaml

/-- Reading with the nodes that aliases stand for and how many may still be followed. -/
abbrev Following := ReaderT (List (Nat × Node)) (StateT Nat Option)

/-- Reads what no alias can be part of. -/
def Following.lift {α : Type} (o : Option α) : Following α := fun _ left => o.map (·, left)

namespace Node

def follow : Node → Following Node
  | .alias target => do
    match ← get with
    | 0 => failure
    | left + 1 =>
      set left
      Following.lift ((← read).lookup target)
  | n => return n

def text (n : Node) : Following String := do
  match ← n.follow with
  | .scalar _ _ t => return t
  | _ => failure

def items (n : Node) : Following (List Node) := do
  match ← n.follow with
  | .sequence _ items => return items
  | .scalar _ true "" => return []
  | _ => failure

def entries (n : Node) : Following (List (String × Node)) := do
  match ← n.follow with
  | .mapping _ entries => entries.mapM fun (k, v) => do return (← k.text, v)
  | .scalar _ true "" => return []
  | _ => failure

/-- The values of a structure's fields, `none` for those that are missing. -/
def fields (names : List String) (n : Node) : Following (List (Option Node)) := do
  let entries ← n.entries
  Following.lift (names.mapM (single? · entries))

end Node

/-! ### Scalars that name nothing, and tags that name something -/

def isNull (text : String) : Bool := ["null", "Null", "NULL", "~"].contains text

def isBlankOrNull (text : String) : Bool := text = "" || isNull text

def nullTag : String := "tag:yaml.org,2002:null"

/-- The name in a local tag, if its octets spell one. -/
def localName? (tag : String) : Option String :=
  match tag.toList with
  | '!' :: name => String.fromUTF8? ⟨(name.map (·.toNat.toUInt8)).toArray⟩
  | _ => none

end Yaml

open Yaml (Node Following isNull isBlankOrNull nullTag localName?)

/-- The placement that a scalar names, by a local tag in front of nothing or else by its text. A
plain scalar may name none: without a tag it is blank or null, and with the tag of nulls null. -/
def Placement.ofScalar? (plain : Bool) (text : String) : Option String → Option (Option Placement)
  | none => if plain && isBlankOrNull text then some none else some <$> ofName? text
  | some tag =>
    if plain && tag = nullTag then if isNull text then some none else none
    else
      match localName? tag with
      | some name => if plain && isBlankOrNull text then some <$> ofName? name else none
      | none => some <$> ofName? text

def Placement.ofNode (n : Node) : Following (Option Placement) := do
  match ← n.follow with
  | .scalar p plain text => Following.lift (ofScalar? plain text p.tag)
  | _ => failure

def FieldDeclaration.ofNode (n : Node) : Following FieldDeclaration := do
  match ← n.fields ["name", "type", "kind"] with
  | [some name, some type, placement] =>
    let type ← Following.lift (FieldType.parse (← type.text)).toOption
    let placement ← placement.mapM Placement.ofNode
    return ⟨← name.text, type, placement.join⟩
  | _ => failure

def SchemaDeclaration.ofNode (n : Node) : Following SchemaDeclaration := do
  match ← n.fields ["fields"] with
  | [some fields] => return ⟨← (← fields.items).mapM FieldDeclaration.ofNode⟩
  | _ => return {}

/-- The schemas by name; of several of one name the last counts. -/
def schemasOfNode (n : Node) : Following (Record.Ordered SchemaDeclaration) := do
  let entries ← (← n.entries).mapM fun (name, v) => do
    return (name, ← SchemaDeclaration.ofNode v)
  return .ofList entries

def Description.ofNode (n : Node) : Following Description := do
  match ← n.fields ["root", "schemas"] with
  | [some root, schemas] =>
    let schemas ← schemas.mapM schemasOfNode
    return ⟨← root.text, schemas.getD .empty⟩
  | _ => failure

def Description.ofYaml? (n : Node) : Option Description :=
  (·.1) <$> Description.ofNode n n.anchored (100 * n.events)

end TaggedProse
