import TaggedProse.Unicode.Identifier
import TaggedProse.Schema.Description
import TaggedProse.Schema.Error
/-!
Field tables. A table gives every declared field of a schema its role, by which the field is
written, and keeps the order of declaration.
-/
namespace TaggedProse

inductive Role where
  /-- Written in an attribute. -/
  | attribute
  /-- Written in a child element that holds text. -/
  | scalar
  /-- Written in a child element with fields of its own. -/
  | object
  /-- Written in any number of child elements, one for each item. -/
  | list
  /-- The element's own text. -/
  | content
  deriving DecidableEq, Repr

def Role.isElement : Role → Bool
  | .scalar | .object | .list => true
  | .attribute | .content => false

/-- Placements that take plain text need a scalar type; a type that is none decides by itself. -/
def FieldDeclaration.role (f : FieldDeclaration) : Except SchemaError Role :=
  match f.placement, f.type with
  | some .attribute, t => if t.isScalar then .ok .attribute else .error (.notScalar f.name)
  | some .content, t => if t.isScalar then .ok .content else .error (.notScalar f.name)
  | _, .object _ => .ok .object
  | _, .list _ => .ok .list
  | some .element, _ => .ok .scalar
  | none, _ => .ok .attribute

structure Field where
  role : Role
  type : FieldType
  deriving DecidableEq, Repr

/-- The schema of the object that the field holds, or of the objects in its list. -/
def Field.nested? (f : Field) : Option String :=
  match f.type with
  | .object schema | .list (.object schema) => some schema
  | _ => none

/-- The fields of the schema `name` in the order of declaration. -/
structure Table where
  name : String
  fields : List (String × Field)
  deriving Repr

namespace Table

def get? (t : Table) (field : String) : Option Field := t.fields.lookup field

def content? (t : Table) : Option String :=
  (t.fields.find? fun (_, f) => f.role == .content).map Prod.fst

def elements (t : Table) : List String :=
  (t.fields.filter fun (_, f) => f.role.isElement).map Prod.fst

/-- The field that prose belongs to: the one for the element's own text, or else the first that is
written in an attribute. -/
def prose? (t : Table) : Option String :=
  t.content?.or ((t.fields.find? fun (_, f) => f.role == .attribute).map Prod.fst)

end Table

/-- Field names are tag names: an identifier, in which hyphens and full stops may follow the first
character. -/
def isFieldName (name : String) : Bool :=
  match name.toList with
  | [] => false
  | c :: s =>
    (c == '_' || Unicode.startsIdentifier c) &&
      s.all fun d => d == '-' || d == '.' || Unicode.continuesIdentifier d

def addFields (schema : String) (fields : List (String × Field)) :
    List FieldDeclaration → Except SchemaError (List (String × Field))
  | [] => .ok fields
  | d :: ds =>
    if !isFieldName d.name then .error (.badFieldName schema d.name)
    else if (fields.lookup d.name).isSome then .error (.duplicateField schema d.name)
    else
      match d.role with
      | .error e => .error e
      | .ok role => addFields schema (fields ++ [(d.name, ⟨role, d.type⟩)]) ds

def SchemaDeclaration.table (name : String) (d : SchemaDeclaration) : Except SchemaError Table :=
  match addFields name [] d.fields with
  | .error e => .error e
  | .ok fields =>
    match fields.filter fun (_, f) => f.role == .content with
    | _ :: _ :: _ =>
      .error (.severalContents ((fields.filter fun (_, f) => f.role == .content).map Prod.fst))
    | _ => .ok ⟨name, fields⟩

end TaggedProse
