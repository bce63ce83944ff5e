import TaggedProse.Yaml.Token.Directive
import TaggedProse.Yaml.Token.Layout
/-!
The tokens of YAML text. What comes next is decided by the first one or two characters after a gap.
-/
namespace TaggedProse.Yaml

namespace Layout

/-- A directive or the mark of a document: all blocks end before it. -/
def endBlocks? (l : Layout) : Option Layout :=
  (·.allowKey false) <$> (l.closeBlocks fun _ => true).dropKey?

def directiveLine? (s : List Char) (l : Layout) : Option Layout := do
  let l ← l.endBlocks?
  let (t, rest) ← directive? s
  some { l with tokens := t :: l.tokens, cursor := ⟨rest, l.position.nextLine⟩ }

def quoted? (double : Bool) (s : List Char) (l : Layout) : Option Layout := do
  let l ← l.beginContent?
  let k := l.cursor.moveTo s
  let (text, cursor) ← quotedFrom double [] .word k.position k.rest
  some { l with tokens := .scalar false (String.ofList text) :: l.tokens, cursor }

/-- A plain scalar. A key may begin after it if it ended with its line. -/
def plain? (l : Layout) : Option Layout := do
  let l ← l.beginContent?
  let p ← plainFrom l.inFlow l.contentColumn [] none l.position l.cursor.rest
  some { l with
    tokens := .scalar true (String.ofList p.text) :: l.tokens
    cursor := p.cursor
    keyAllowed := p.broken }

def blockScalar? (literal : Bool) (s : List Char) (l : Layout) : Option Layout := do
  let l ← l.dropKey?
  let (text, cursor) ← Yaml.blockScalar? literal l.contentColumn (l.cursor.moveTo s)
  some { l with
    tokens := .scalar false (String.ofList text) :: l.tokens
    cursor
    keyAllowed := true }

/-- Whether a plain scalar may begin with `c` in front of `s`. -/
def beginsPlain (flow : Bool) (c : Char) (s : List Char) : Bool :=
  if c == '-' then !s.head?.any isWhite
  else if c == '?' || c == ':' then !flow && !endsWord s
  else !isWhite c && !isBreak c && !isFlowMark c && !"#&*!|>'\"%@\x60".contains c

/-- The token that `c` begins, in front of `s`. -/
def token? (c : Char) (s : List Char) (l : Layout) : Option Layout :=
  let column := l.position.column
  if column = 0 && c == '%' then l.directiveLine? s
  else if column = 0 && isDocumentMark (c :: s) then
    (·.emit (if c = '-' then .documentStart else .documentEnd) (s.drop 2)) <$> l.endBlocks?
  else if c = '[' then (·.emit .flowSequence s) <$> l.openFlow?
  else if c = '\x7b' then (·.emit .flowMapping s) <$> l.openFlow?
  else if c = ']' then (·.emit .flowSequenceEnd s) <$> l.closeFlow?
  else if c = '\x7d' then (·.emit .flowMappingEnd s) <$> l.closeFlow?
  else if c = ',' then (fun l => (l.emit .flowEntry s).allowKey true) <$> l.dropKey?
  else if c = '-' && endsWord s then do
    let l ← (← l.openBlockHere? .blockSequence).dropKey?
    some ((l.emit .blockEntry s).allowKey true)
  else if c = '?' && (l.inFlow || endsWord s) then do
    let l ← (← l.openBlockHere? .blockMapping).dropKey?
    some ((l.emit .key s).allowKey !l.inFlow)
  else if c = ':' && (l.inFlow || endsWord s) then (·.emit .value s) <$> l.confirmKey?
  else if c = '*' then do
    let l ← l.beginContent?
    let (name, rest) ← anchorName? s
    some (l.emit (.alias name) rest)
  else if c = '&' then do
    let l ← l.beginContent?
    let (name, rest) ← anchorName? s
    some (l.emit (.anchor name) rest)
  else if c = '!' then do
    let l ← l.beginContent?
    let (t, rest) ← tag? l.inFlow s
    some (l.emit t rest)
  else if c = '|' && !l.inFlow then l.blockScalar? true s
  else if c = '>' && !l.inFlow then l.blockScalar? false s
  else if c = '\'' then l.quoted? false s
  else if c = '"' then l.quoted? true s
  else if beginsPlain l.inFlow c s then l.plain?
  else none

/-- All tokens, the latest first; every one but the last takes some of the text. -/
def run (fuel : Nat) (l : Layout) : Option (List Token) :=
  match fuel with
  | 0 => none
  | fuel + 1 => do
    let l ← l.skipGap.dropStaleKeys?
    let l := l.closeBlocks (l.position.column < ·)
    match l.cursor.rest with
    | [] =>
      let l ← l.endBlocks?
      some (.streamEnd :: l.tokens)
    | c :: s => (← l.token? c s).run fuel

end Layout

def tokens? (s : List Char) : Option (List Token) :=
  if s.all isAllowed then
    let s := unifyBreaks s
    List.reverse <$> Layout.run (s.length + 1) { cursor := { rest := s } }
  else none

end TaggedProse.Yaml
