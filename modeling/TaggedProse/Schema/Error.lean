import TaggedProse.Schema.FieldType
/-!
Why a schema description is refused.
-/
namespace TaggedProse

inductive SchemaError where
  /-- Several fields of one schema hold the element's own text. -/
  | severalContents (fields : List String)
  | notScalar (field : String)
  | unknownRoot (schema : String)
  | duplicateField (schema field : String)
  /-- The field's name cannot be the name of a tag. -/
  | badFieldName (schema field : String)
  | badType (error : FieldTypeError)
  deriving DecidableEq, Repr

def SchemaError.message : SchemaError → String
  | .severalContents fields =>
    "There can be no more than one field marked 'content': " ++ ", ".intercalate fields
  | .notScalar field => s!"Field '{field}' must be a scalar"
  | .unknownRoot schema => s!"Root schema '{schema}' is not declared"
  | .duplicateField schema field => s!"Field '{field}' is declared twice in schema '{schema}'"
  | .badFieldName schema field =>
    s!"Field '{field}' in schema '{schema}' is not a valid tag name"
  | .badType error => s!"Invalid schema description: {error.message}"

end TaggedProse
