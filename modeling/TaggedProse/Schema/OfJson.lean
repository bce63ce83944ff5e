import TaggedProse.Schema.Description
/-!
Schema descriptions from JSON. A structure is an object with a member for each of its fields, where
members of other names are passed over, or an array of the fields' values in order. Fields that have
a default may be missing.
-/
namespace TaggedProse

namespace Json

def text? : Json → Option String
  | .string t => t
  | _ => none

/-- The values of a structure's fields, `none` for those that are missing. -/
def fields? (names : List String) : Json → Option (List (Option Json))
  | .object members =>
    if members.all (·.1.isSome) then names.mapM fun name => single? (some name) members else none
  | .array items =>
    if items.length ≤ names.length then
      some (items.map some ++ List.replicate (names.length - items.length) none)
    else none
  | _ => none

end Json

/-- A placement is its name, alone or as the only member of an object, with the value null. -/
def Placement.ofJson? : Json → Option Placement
  | .string (some name) => ofName? name
  | .object [(some name, .null)] => ofName? name
  | _ => none

def Placement.optionOfJson? : Option Json → Option (Option Placement)
  | none | some .null => some none
  | some j => (ofJson? j).map some

def FieldDeclaration.ofJson? (j : Json) : Option FieldDeclaration :=
  match j.fields? ["name", "type", "kind"] with
  | some [some name, some type, placement] => do
    let name ← name.text?
    let type ← (FieldType.parse (← type.text?)).toOption
    return ⟨name, type, ← Placement.optionOfJson? placement⟩
  | _ => none

def SchemaDeclaration.ofJson? (j : Json) : Option SchemaDeclaration :=
  match j.fields? ["fields"] with
  | some [none] => some {}
  | some [some (.array items)] => (items.mapM FieldDeclaration.ofJson?).map SchemaDeclaration.mk
  | _ => none

/-- The schemas by name; of several of one name the last counts. -/
def schemasOfJson? : Option Json → Option (Record.Ordered SchemaDeclaration)
  | none => some .empty
  | some (.object members) => do
    let entries ← members.mapM fun (name, j) => do return (← name, ← SchemaDeclaration.ofJson? j)
    return .ofList entries
  | _ => none

def Description.ofJson? (j : Json) : Option Description :=
  match j.fields? ["root", "schemas"] with
  | some [some root, schemas] => do return ⟨← root.text?, ← schemasOfJson? schemas⟩
  | _ => none

end TaggedProse
