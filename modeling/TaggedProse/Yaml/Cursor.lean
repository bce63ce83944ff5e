/-!
Positions in YAML text. A text may hold printable characters, white space and byte order marks only;
line ends are first made all alike, apart from the line and paragraph separators, which stay
themselves.
-/
namespace TaggedProse.Yaml

def isAllowed (c : Char) : Bool :=
  let n := c.toNat
  n == 0x09 || n == 0x0A || n == 0x0D || (0x20 ≤ n && n ≤ 0x7E) || n == 0x85 ||
    (0xA0 ≤ n && n ≤ 0xFFFD) || 0x10000 ≤ n

/-- Writes every line end as one newline. -/
def unifyBreaks : List Char → List Char
  | [] => []
  | '\r' :: '\n' :: s => '\n' :: unifyBreaks s
  | c :: s => (if c = '\r' ∨ c = '\x85' then '\n' else c) :: unifyBreaks s

def isBreak (c : Char) : Bool := c == '\n' || c == '\u2028' || c == '\u2029'

/-- The mark that may begin a line; elsewhere it is a character of the text like any other. -/
def byteOrderMark : Char := '\ufeff'

def isWhite (c : Char) : Bool := c == ' ' || c == '\t'

def endsWord : List Char → Bool
  | [] => true
  | c :: _ => isWhite c || isBreak c

/-- Whether the text begins with three hyphens or full stops that stand alone. -/
def isDocumentMark : List Char → Bool
  | '-' :: '-' :: '-' :: s | '.' :: '.' :: '.' :: s => endsWord s
  | _ => false

/-- Characters of anchors, of tag handles and of the names of directives. -/
def isNameChar (c : Char) : Bool := c.isAlphanum || c == '_' || c == '-'

/-- A place in the text: its line, and how many characters and octets of the line come before it. -/
structure Position where
  line : Nat := 0
  column : Nat := 0
  octets : Nat := 0

namespace Position

def nextLine (p : Position) : Position := { line := p.line + 1 }

def after (p : Position) (c : Char) : Position :=
  if isBreak c then p.nextLine else ⟨p.line, p.column + 1, p.octets + c.utf8Size⟩

end Position

/-- The text that is left, and where it begins. -/
structure Cursor where
  rest : List Char
  position : Position := {}

/-- Moves forward to where `rest` is left. -/
def Cursor.moveTo (k : Cursor) (rest : List Char) : Cursor :=
  ⟨rest, (k.rest.take (k.rest.length - rest.length)).foldl Position.after k.position⟩

end TaggedProse.Yaml
