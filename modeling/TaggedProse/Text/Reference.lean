/-!
Character references in prose, and escaping. A reference is `&`, a name and `;`. Escaping writes
markup characters as references, and leaves an ampersand alone that already begins one.
-/
namespace TaggedProse

/-- The characters that have a reference by name. -/
def namedReference? : List Char → Option Char
  | ['l', 't'] => some '<'
  | ['g', 't'] => some '>'
  | ['a', 'm', 'p'] => some '&'
  | ['q', 'u', 'o', 't'] => some '"'
  | ['a', 'p', 'o', 's'] => some '\''
  | _ => none

def isHexDigit (c : Char) : Bool :=
  c.isDigit || ('a' ≤ c && c ≤ 'f') || ('A' ≤ c && c ≤ 'F')

/-- Whether `&name;` counts as a reference in prose: a name, or a number sign with decimal digits,
or one with `x` and hexadecimal digits. -/
def isReferenceName : List Char → Bool
  | '#' :: 'x' :: digits => !digits.isEmpty && digits.all isHexDigit
  | '#' :: 'X' :: digits => !digits.isEmpty && digits.all isHexDigit
  | '#' :: digits => !digits.isEmpty && digits.all Char.isDigit
  | name => (namedReference? name).isSome

def completesReference (s : List Char) : Bool :=
  s.contains ';' && isReferenceName (s.takeWhile (· != ';'))

inductive Place where
  | content
  | attribute
  deriving DecidableEq

def escape (place : Place) : List Char → List Char
  | [] => []
  | c :: s =>
    let written :=
      match c with
      | '<' => "&lt;".toList
      | '>' => "&gt;".toList
      | '"' => if place = .attribute then "&quot;".toList else ['"']
      | '&' => if completesReference s then ['&'] else "&amp;".toList
      | c => [c]
    written ++ escape place s

end TaggedProse
