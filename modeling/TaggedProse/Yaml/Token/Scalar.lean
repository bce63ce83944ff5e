import TaggedProse.Yaml.Cursor
/-!
Scalars: plain, quoted and block. Line ends inside a plain or quoted scalar are folded: one becomes
a space, and of several the first is dropped. Each reader takes one character at a time.
-/
namespace TaggedProse.Yaml

/-! ### Gaps between words -/

/-- White space inside a scalar. -/
structure Gap where
  blanks : List Char := []
  /-- Whether the line has ended in this gap. -/
  broken : Bool := false
  /-- The first line end, unless that was escaped, and the others. -/
  first : Option Char := none
  others : List Char := []

namespace Gap

def add (c : Char) (g : Gap) : Gap :=
  if isBreak c then
    if g.broken then { g with others := g.others ++ [c] } else ⟨[], true, some c, []⟩
  else if g.broken then g
  else { g with blanks := g.blanks ++ [c] }

/-- What a gap contributes to the scalar. -/
def fold (g : Gap) : List Char :=
  if !g.broken then g.blanks
  else
    match g.first with
    | some '\n' => if g.others.isEmpty then [' '] else g.others
    | some c => c :: g.others
    | none => g.others

end Gap

/-! ### Quoted scalars -/

def hexDigit? (c : Char) : Option Nat :=
  if '0' ≤ c ∧ c ≤ '9' then some (c.toNat - 0x30)
  else if 'a' ≤ c ∧ c ≤ 'f' then some (c.toNat - 0x57)
  else if 'A' ≤ c ∧ c ≤ 'F' then some (c.toNat - 0x37)
  else none

/-- The character that a backslash and `c` stand for. -/
def escaped? : Char → Option Char
  | '0' => some '\x00'
  | 'a' => some '\x07'
  | 'b' => some '\x08'
  | 't' | '\t' => some '\t'
  | 'n' => some '\n'
  | 'v' => some '\x0b'
  | 'f' => some '\x0c'
  | 'r' => some '\r'
  | 'e' => some '\x1b'
  | ' ' => some ' '
  | '"' => some '"'
  | '/' => some '/'
  | '\\' => some '\\'
  | 'N' => some '\x85'
  | '_' => some '\xa0'
  | 'L' => some '\u2028'
  | 'P' => some '\u2029'
  | _ => none

/-- How many digits follow a backslash and `c`. -/
def escapeDigits? : Char → Option Nat
  | 'x' => some 2
  | 'u' => some 4
  | 'U' => some 8
  | _ => none

inductive Quoting where
  | word
  | gap (g : Gap)
  /-- After a backslash. -/
  | escape
  /-- In an escape of which `left` digits are missing and the others make up `code`. -/
  | digits (left code : Nat)
  /-- After a single quote. -/
  | quote

def Quoting.close (out : List Char) : Quoting → List Char
  | .gap g => g.fold.reverse ++ out
  | _ => out

def Quoting.blank (c : Char) : Quoting → Quoting
  | .gap g => .gap (g.add c)
  | _ => .gap (({} : Gap).add c)

/-- Reads on in a scalar of which `out` has been read, the latest character first. -/
def quotedFrom (double : Bool) (out : List Char) (q : Quoting) (p : Position) :
    List Char → Option (List Char × Cursor)
  | [] =>
    match q with
    | .quote => some (out.reverse, ⟨[], p⟩)
    | _ => none
  | c :: s =>
    match q with
    | .escape =>
      if isBreak c then quotedFrom double out (.gap { broken := true }) (p.after c) s
      else
        match escaped? c, escapeDigits? c with
        | some e, _ => quotedFrom double (e :: out) .word (p.after c) s
        | none, some n => quotedFrom double out (.digits n 0) (p.after c) s
        | none, none => none
    | .digits left code =>
      match hexDigit? c with
      | none => none
      | some d =>
        let code := code * 16 + d
        if 1 < left then quotedFrom double out (.digits (left - 1) code) (p.after c) s
        else if code.isValidChar then
          quotedFrom double (Char.ofNat code :: out) .word (p.after c) s
        else none
    | .quote =>
      if c = '\'' then quotedFrom double ('\'' :: out) .word (p.after c) s
      else some (out.reverse, ⟨c :: s, p⟩)
    | q =>
      if isBreak c then quotedFrom double out (q.blank c) (p.after c) s
      else if isWhite c then quotedFrom double out (q.blank c) (p.after c) s
      else if p.column = 0 && isDocumentMark (c :: s) then none
      else
        let out := q.close out
        if double then
          if c = '"' then some (out.reverse, ⟨s, p.after c⟩)
          else if c = '\\' then quotedFrom double out .escape (p.after c) s
          else quotedFrom double (c :: out) .word (p.after c) s
        else if c = '\'' then quotedFrom double out .quote (p.after c) s
        else quotedFrom double (c :: out) .word (p.after c) s

/-! ### Plain scalars -/

def isFlowMark (c : Char) : Bool := c == ',' || c == '[' || c == ']' || c == '\x7b' || c == '\x7d'

/-- Whether a colon that the text follows is a mistake in a flow collection. -/
def isStrayColon : List Char → Bool
  | [] => false
  | c :: _ => isFlowMark c || c == '?'

/-- A plain scalar, and whether it was followed by the end of a line. -/
structure Plain where
  text : List Char
  broken : Bool
  cursor : Cursor

/-- Reads on in a plain scalar; `indent` is the least column of its lines after the first. -/
def plainFrom (flow : Bool) (indent : Nat) (out : List Char) (gap : Option Gap)
    (p : Position) : List Char → Option Plain
  | [] => some ⟨out.reverse, gap.any (·.broken), ⟨[], p⟩⟩
  | c :: s =>
    let g := gap.getD {}
    if isBreak c then plainFrom flow indent out (some (g.add c)) (p.after c) s
    else if isWhite c then
      if g.broken && c == '\t' && p.column < indent then none
      else plainFrom flow indent out (some (g.add c)) (p.after c) s
    else if gap.isSome &&
        ((!flow && p.column < indent) || (p.column == 0 && isDocumentMark (c :: s)) ||
          c == '#') then
      some ⟨out.reverse, g.broken, ⟨c :: s, p⟩⟩
    else if flow && c == ':' && isStrayColon s then none
    else if (c == ':' && endsWord s) || (flow && isFlowMark c) then
      some ⟨out.reverse, g.broken, ⟨c :: s, p⟩⟩
    else plainFrom flow indent (c :: g.fold.reverse ++ out) none (p.after c) s

/-! ### Block scalars -/

/-- What becomes of the line ends after the last line. -/
inductive Chomping where
  | strip
  | clip
  | keep

/-- A block scalar's header: chomping, and how much deeper than its parent it stands. -/
structure Header where
  chomping : Chomping := .clip
  increment : Nat := 0

def chomping? : Char → Option Chomping
  | '+' => some .keep
  | '-' => some .strip
  | _ => none

def increment? (c : Char) : Option Nat :=
  if '1' ≤ c ∧ c ≤ '9' then some (c.toNat - 0x30) else none

/-- The header and the rest of its line: the two marks may come in either order. -/
def splitHeader (s : List Char) : Header × List Char :=
  match s with
  | [] => ({}, [])
  | c :: t =>
    match chomping? c, increment? c with
    | some chomping, _ =>
      match t with
      | d :: u =>
        match increment? d with
        | some increment => (⟨chomping, increment⟩, u)
        | none => (⟨chomping, 0⟩, t)
      | [] => (⟨chomping, 0⟩, [])
    | none, some increment =>
      match t with
      | d :: u =>
        match chomping? d with
        | some chomping => (⟨chomping, increment⟩, u)
        | none => (⟨.clip, increment⟩, t)
      | [] => (⟨.clip, increment⟩, [])
    | none, none => ({}, s)

/-- The text after this line, which may end in white space and a comment. -/
def nextLine? (s : List Char) : Option (List Char) :=
  let t :=
    match s.dropWhile isWhite with
    | '#' :: t => t.dropWhile (!isBreak ·)
    | t => t
  match t with
  | [] => some []
  | c :: u => if isBreak c then some u else none

/-- Blank lines before a block scalar's first line: its column or a greater one of a blank line, the
line ends, and where it begins. -/
def leadingBreaks (deepest : Nat) (breaks : List Char) (p : Position) :
    List Char → Option (Nat × List Char × Cursor)
  | [] => some (max deepest p.column, breaks, ⟨[], p⟩)
  | c :: s =>
    if c = ' ' then leadingBreaks deepest breaks (p.after c) s
    else if c = '\t' then none
    else if isBreak c then leadingBreaks (max deepest p.column) (breaks ++ [c]) (p.after c) s
    else some (max deepest p.column, breaks, ⟨c :: s, p⟩)

/-- A block scalar under way. -/
structure Block where
  /-- What has been read, the latest character first. -/
  out : List Char := []
  /-- The end of the last line. -/
  lineEnd : Option Char := none
  /-- The ends of the blank lines after it. -/
  breaks : List Char := []
  /-- Whether the last line began with white space. -/
  indented : Bool := false

namespace Block

/-- Begins a line whose first character is `c`. -/
def beginLine (literal : Bool) (c : Char) (b : Block) : Block :=
  let folds := !literal && b.lineEnd == some '\n' && !b.indented && !isWhite c
  let between :=
    if folds then (if b.breaks.isEmpty then [' '] else b.breaks)
    else b.lineEnd.toList ++ b.breaks
  ⟨between.reverse ++ b.out, none, [], isWhite c⟩

def text (chomping : Chomping) (b : Block) : List Char :=
  b.out.reverse ++
    match chomping with
    | .strip => []
    | .clip => b.lineEnd.toList
    | .keep => b.lineEnd.toList ++ b.breaks

end Block

/-- Reads on in a block scalar whose lines stand at column `indent`; `inLine` tells whether a line
has begun. -/
def blockFrom (literal : Bool) (indent : Nat) (b : Block) (inLine : Bool) (p : Position) :
    List Char → Option (Block × Cursor)
  | [] => some (b, ⟨[], p⟩)
  | c :: s =>
    if isBreak c then
      let b := if inLine then { b with lineEnd := some c } else { b with breaks := b.breaks ++ [c] }
      blockFrom literal indent b false (p.after c) s
    else if inLine then
      blockFrom literal indent { b with out := c :: b.out } true (p.after c) s
    else if p.column < indent && c == ' ' then
      blockFrom literal indent b false (p.after c) s
    else if p.column < indent && c == '\t' then none
    else if p.column == indent then
      let b := b.beginLine literal c
      blockFrom literal indent { b with out := c :: b.out } true (p.after c) s
    else some (b, ⟨c :: s, p⟩)

/-- The block scalar after its indicator, in a block whose entries stand at column `parent - 1`. -/
def blockScalar? (literal : Bool) (parent : Nat) (k : Cursor) : Option (List Char × Cursor) := do
  let (header, rest) := splitHeader k.rest
  let start ← nextLine? rest
  let p := k.position.nextLine
  if header.increment = 0 then
    let (deepest, breaks, first) ← leadingBreaks 0 [] p start
    let indent := max (max deepest parent) 1
    let (b, k) ← blockFrom literal indent { breaks } false first.position first.rest
    return (b.text header.chomping, k)
  else
    let indent := parent - 1 + header.increment
    let (b, k) ← blockFrom literal indent {} false p start
    return (b.text header.chomping, k)

end TaggedProse.Yaml
