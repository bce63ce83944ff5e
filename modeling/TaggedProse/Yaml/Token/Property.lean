import TaggedProse.Yaml.Token.Basic
import TaggedProse.Yaml.Token.Scalar
/-!
Properties of nodes: anchors, which name them, and tags, which give their types. A tag is a handle
and a suffix; the suffix is part of a URI, whose escapes stand for octets, here the characters of
the same code.
-/
namespace TaggedProse.Yaml

/-! ### URIs -/

def isUriChar (c : Char) : Bool := isNameChar c || ";/?:@&=+$.!~*'()".contains c

def isUriMark (c : Char) : Bool := c == ',' || c == '[' || c == ']'

/-- How many octets follow the first one of a character. -/
def octetsAfter? (octet : Nat) : Option Nat :=
  if octet < 0x80 then some 0
  else if octet / 0x20 = 6 then some 1
  else if octet / 0x10 = 14 then some 2
  else if octet / 8 = 30 then some 3
  else none

/-- Reads on in a URI of which `out` has been read, the latest character first; `left` octets of a
character are missing. -/
def uriFrom (marks : Bool) (out : List Char) (left : Nat) :
    List Char → Option (List Char × List Char)
  | '%' :: a :: b :: s => do
    let octet := 16 * (← hexDigit? a) + (← hexDigit? b)
    let left ← if left = 0 then octetsAfter? octet
      else if octet / 0x40 = 2 then some (left - 1)
      else none
    uriFrom marks (Char.ofNat octet :: out) left s
  | s =>
    match s with
    | [] => if left = 0 then some (out.reverse, []) else none
    | c :: t =>
      if left != 0 || c == '%' then none
      else if isUriChar c || (marks && isUriMark c) then uriFrom marks (c :: out) 0 t
      else some (out.reverse, s)

/-- What a URI names: it ends at an escaped null. -/
def uriText (uri : List Char) : String := String.ofList (uri.takeWhile (· != '\x00'))

/-- A URI that is not empty; with `marks` it may hold commas and brackets. -/
def uri? (marks : Bool) (s : List Char) : Option (String × List Char) := do
  let (uri, rest) ← uriFrom marks [] 0 s
  if uri.isEmpty then none else some (uriText uri, rest)

/-! ### Anchors and tags -/

/-- The name after the indicator of an anchor or alias. -/
def anchorName? (s : List Char) : Option (String × List Char) :=
  let name := s.takeWhile isNameChar
  let rest := s.dropWhile isNameChar
  let ends := endsWord rest || (rest.head?.any fun c => "?:,]%@\x60\x7d".contains c)
  if !name.isEmpty && ends then some (String.ofList name, rest) else none

/-- The tag after its exclamation mark, whatever follows it. A lone mark has no handle. -/
def tagStart? : List Char → Option (Token × List Char)
  | '<' :: s => do
    let (suffix, rest) ← uri? true s
    match rest with
    | '>' :: rest => some (.tag "" suffix, rest)
    | _ => none
  | s => do
    let name := s.takeWhile isNameChar
    match s.dropWhile isNameChar with
    | '!' :: rest =>
      let (suffix, rest) ← uri? false rest
      some (.tag (String.ofList ('!' :: name ++ ['!'])) suffix, rest)
    | rest =>
      let (more, rest) ← uriFrom false [] 0 rest
      let suffix := uriText (name ++ more)
      some (if suffix = "" then .tag "" "!" else .tag "!" suffix, rest)

/-- The tag after its exclamation mark; in a flow collection a comma may follow it. -/
def tag? (flow : Bool) (s : List Char) : Option (Token × List Char) := do
  let (tag, rest) ← tagStart? s
  if endsWord rest || (flow && rest.head? == some ',') then some (tag, rest) else none

end TaggedProse.Yaml
