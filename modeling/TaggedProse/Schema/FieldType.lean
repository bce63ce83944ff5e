import TaggedProse.Text.Blank
/-!
The declared type of a field and its written form. Blanks around a type are skipped at every level;
some scalar types have more than one name, of which the first here is the one that is printed.
-/
namespace TaggedProse

inductive FieldType where
  | string
  | number
  | boolean
  | datetime
  | duration
  /-- An object with the fields of the schema of this name. -/
  | object (schema : String)
  | list (item : FieldType)
  deriving DecidableEq, Repr

/-- Why a text is no field type. -/
inductive FieldTypeError where
  | noSchemaName (written : String)
  | unknown (written : String)
  deriving DecidableEq, Repr

def FieldTypeError.message : FieldTypeError → String
  | .noSchemaName written => s!"missing schema name in '{written}'"
  | .unknown written => s!"unknown field type '{written}'"

namespace FieldType

def isScalar : FieldType → Bool
  | .object _ | .list _ => false
  | _ => true

def head : FieldType → String
  | .string => "string"
  | .number => "number"
  | .boolean => "boolean"
  | .datetime => "datetime"
  | .duration => "duration"
  | .object _ => "object"
  | .list _ => "list"

def print : FieldType → String
  | .object schema => "object:" ++ schema
  | .list item => "list:" ++ item.print
  | t => t.head

def scalar? : String → Option FieldType
  | "string" | "str" => some .string
  | "number" | "integer" | "float" => some .number
  | "boolean" | "bool" => some .boolean
  | "datetime" => some .datetime
  | "duration" => some .duration
  | _ => none

theorem length_trim_le (s : List Char) : (trim s).length ≤ s.length := by
  have dropped (t : List Char) : (t.dropWhile isBlank).length ≤ t.length :=
    (List.dropWhile_suffix isBlank).length_le
  have h₁ := dropped s
  have h₂ := dropped (trimLeft s).reverse
  simp only [trim, trimRight, List.length_reverse] at h₂ ⊢
  exact Nat.le_trans h₂ h₁

def read (s : List Char) : Except FieldTypeError FieldType :=
  match _h : trim s with
  | 'l' :: 'i' :: 's' :: 't' :: ':' :: item =>
    match read item with
    | .ok t => .ok (.list t)
    | .error e => .error e
  | 'o' :: 'b' :: 'j' :: 'e' :: 'c' :: 't' :: ':' :: schema =>
    match trim schema with
    | [] => .error (.noSchemaName (String.ofList (trim s)))
    | name => .ok (.object (String.ofList name))
  | word =>
    match scalar? (String.ofList word) with
    | some t => .ok t
    | none => .error (.unknown (String.ofList word))
termination_by s.length
decreasing_by
  have := length_trim_le s
  rw [_h] at this
  simp only [List.length_cons] at this
  omega

def parse (s : String) : Except FieldTypeError FieldType := read s.toList

end FieldType

end TaggedProse
