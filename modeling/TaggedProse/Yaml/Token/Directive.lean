import TaggedProse.Yaml.Token.Property
/-!
Directives: lines in front of a document that give the version of the format, or a handle for the
tags of one URI.
-/
namespace TaggedProse.Yaml

def versionNumber? (s : List Char) : Option (Nat × List Char) :=
  let digits := s.takeWhile Char.isDigit
  if digits.isEmpty || 9 < digits.length then none
  else some (digits.foldl (fun n d => 10 * n + (d.toNat - 0x30)) 0, s.dropWhile Char.isDigit)

def version? (s : List Char) : Option (Token × List Char) := do
  let (major, rest) ← versionNumber? s
  match rest with
  | '.' :: rest =>
    let (minor, rest) ← versionNumber? rest
    some (.version major minor, rest)
  | _ => none

/-- A tag handle: one exclamation mark, or two with name characters or nothing between them. -/
def handle? : List Char → Option (String × List Char)
  | '!' :: s =>
    let name := s.takeWhile isNameChar
    match s.dropWhile isNameChar with
    | '!' :: rest => some (String.ofList ('!' :: name ++ ['!']), rest)
    | _ => if name.isEmpty then some ("!", s) else none
  | _ => none

def handleDirective? (s : List Char) : Option (Token × List Char) := do
  let (handle, rest) ← handle? s
  if rest.head?.any isWhite then
    let (start, rest) ← uri? true (rest.dropWhile isWhite)
    if endsWord rest then some (.handleDirective handle start, rest) else none
  else none

/-- The directive after its indicator, and the text after its line. -/
def directive? (s : List Char) : Option (Token × List Char) := do
  let rest := s.dropWhile isNameChar
  if endsWord rest then
    let value := rest.dropWhile isWhite
    let (directive, rest) ←
      match String.ofList (s.takeWhile isNameChar) with
      | "YAML" => version? value
      | "TAG" => handleDirective? value
      | _ => none
    some (directive, ← nextLine? rest)
  else none

end TaggedProse.Yaml
