import TaggedProse.Record
import TaggedProse.Json.Basic
import TaggedProse.Schema.FieldType
/-!
Schema descriptions: named schemas, each with its fields in the order of declaration, and the name
of the root schema, whose fields are the commands that a paragraph may hold.
-/
namespace TaggedProse

/-- Where a field is written, when its declaration says so. -/
inductive Placement where
  /-- In an attribute of the element's tag. -/
  | attribute
  /-- In a child element. -/
  | element
  /-- As the element's own text. -/
  | content
  deriving DecidableEq, Repr

namespace Placement

def name : Placement → String
  | .attribute => "attribute"
  | .element => "element"
  | .content => "content"

def ofName? : String → Option Placement
  | "attribute" => some .attribute
  | "element" => some .element
  | "content" => some .content
  | _ => none

end Placement

structure FieldDeclaration where
  name : String
  type : FieldType
  placement : Option Placement := none
  deriving DecidableEq, Repr

structure SchemaDeclaration where
  fields : List FieldDeclaration := []
  deriving DecidableEq, Repr

namespace SchemaDeclaration

def declare (d : SchemaDeclaration) (name : String) (type : FieldType)
    (placement : Option Placement) : SchemaDeclaration :=
  ⟨d.fields ++ [⟨name, type, placement⟩]⟩

/-- Declares a field and leaves its place to its type. -/
def field (d : SchemaDeclaration) (name : String) (type : FieldType) : SchemaDeclaration :=
  d.declare name type none

def inAttribute (d : SchemaDeclaration) (name : String) : SchemaDeclaration :=
  d.declare name .string (some .attribute)

def inElement (d : SchemaDeclaration) (name : String) (type : FieldType) : SchemaDeclaration :=
  d.declare name type (some .element)

def asContent (d : SchemaDeclaration) (name : String) : SchemaDeclaration :=
  d.declare name .string (some .content)

end SchemaDeclaration

structure Description where
  root : String
  schemas : Record.Ordered SchemaDeclaration := .empty
  deriving DecidableEq, Repr

namespace Description

/-- Declares a schema, in place of an earlier one of the same name. -/
def declare (d : Description) (name : String) (schema : SchemaDeclaration) : Description :=
  { d with schemas := d.schemas.insert name schema }

end Description

def FieldDeclaration.toJson (f : FieldDeclaration) : Json :=
  let placement := f.placement.toList.map fun p => ("kind", Json.ofString p.name)
  .ofMembers ([("name", .ofString f.name), ("type", .ofString f.type.print)] ++ placement)

def SchemaDeclaration.toJson (d : SchemaDeclaration) : Json :=
  .ofMembers [("fields", .array (d.fields.map FieldDeclaration.toJson))]

def Description.toJson (d : Description) : Json :=
  .ofMembers
    [("root", .ofString d.root),
      ("schemas", .ofMembers (d.schemas.1.map fun (name, s) => (name, s.toJson)))]

end TaggedProse
