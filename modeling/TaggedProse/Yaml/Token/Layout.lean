import TaggedProse.Yaml.Token.Basic
import TaggedProse.Yaml.Cursor
/-!
Layout: blocks that indentation opens and closes, and keys that are known as such only when a colon
follows them on their line.
-/
namespace TaggedProse.Yaml

/-- A place where a key may have begun. -/
structure PossibleKey where
  /-- Whether nothing but a key may stand there, as the innermost block has its keys in that
  column. -/
  required : Bool
  /-- How many tokens stand before it. -/
  before : Nat
  position : Position

/-- A key ends on its line, and after at most 1024 octets. -/
def PossibleKey.isStale (here : Position) (k : PossibleKey) : Bool :=
  k.position.line < here.line || k.position.octets + 1024 < here.octets

structure Layout where
  cursor : Cursor
  /-- The latest first. -/
  tokens : List Token := []
  /-- The columns of the blocks that are open, the innermost first. -/
  blocks : List Nat := []
  /-- Where a key may have begun in the innermost flow collection or, if none is open, block. -/
  possibleKey : Option PossibleKey := none
  /-- The same for what is around each of the flow collections that are open. -/
  outerKeys : List (Option PossibleKey) := []
  /-- Whether a key may begin here. -/
  keyAllowed : Bool := true

namespace Layout

def position (l : Layout) : Position := l.cursor.position

def inFlow (l : Layout) : Bool := !l.outerKeys.isEmpty

/-- The least column that a plain or block scalar may stand in, apart from its first line. -/
def contentColumn (l : Layout) : Nat :=
  match l.blocks with
  | [] => 0
  | column :: _ => column + 1

/-- Adds a token that the text up to `rest` spells. -/
def emit (t : Token) (rest : List Char) (l : Layout) : Layout :=
  { l with tokens := t :: l.tokens, cursor := l.cursor.moveTo rest }

def allowKey (allowed : Bool) (l : Layout) : Layout := { l with keyAllowed := allowed }

/-! ### Gaps between tokens -/

/-- Skips white space, line ends and comments. A tab may not stand where a key may begin, and a key
may begin on a new line unless a flow collection is open. A byte order mark that begins a line takes
a column like any other character, so what follows it stands deeper. -/
def gapFrom (flow keyAllowed comment : Bool) (p : Position) : List Char → Cursor × Bool
  | [] => (⟨[], p⟩, keyAllowed)
  | c :: s =>
    if isBreak c then gapFrom flow (keyAllowed || !flow) false (p.after c) s
    else if comment || c == ' ' || (c == '\t' && (flow || !keyAllowed)) ||
        (p.column == 0 && c == byteOrderMark) then
      gapFrom flow keyAllowed comment (p.after c) s
    else if c == '#' then gapFrom flow keyAllowed true (p.after c) s
    else (⟨c :: s, p⟩, keyAllowed)

def skipGap (l : Layout) : Layout :=
  let (cursor, keyAllowed) := gapFrom l.inFlow l.keyAllowed false l.position l.cursor.rest
  { l with cursor, keyAllowed }

/-! ### Blocks -/

/-- Closes the blocks that `deeper` holds of. Indentation has no meaning in a flow collection. -/
def closeBlocks (deeper : Nat → Bool) (l : Layout) : Layout :=
  if l.inFlow then l
  else
    { l with
      tokens := List.replicate (l.blocks.takeWhile deeper).length .blockEnd ++ l.tokens
      blocks := l.blocks.dropWhile deeper }

/-- Opens a block at a column that is deeper than the innermost one's; its token goes behind the
first `before` tokens. -/
def openBlock (t : Token) (before column : Nat) (l : Layout) : Layout :=
  if l.inFlow || l.blocks.any (column ≤ ·) then l
  else
    let after := l.tokens.length - before
    { l with
      tokens := l.tokens.take after ++ t :: l.tokens.drop after
      blocks := column :: l.blocks }

/-- Opens a block that begins here with an indicator of its own, where a key might begin too. -/
def openBlockHere? (t : Token) (l : Layout) : Option Layout :=
  if l.inFlow then some l
  else if l.keyAllowed then some (l.openBlock t l.tokens.length l.position.column)
  else none

/-! ### Keys -/

/-- Gives up the possible key, which must not be required. -/
def dropKey? (l : Layout) : Option Layout :=
  if l.possibleKey.any (·.required) then none else some { l with possibleKey := none }

/-- Gives up the keys that have not ended in time. -/
def dropStaleKeys? (l : Layout) : Option Layout :=
  let keys := l.possibleKey :: l.outerKeys
  if keys.any (·.any fun k => k.required && k.isStale l.position) then none
  else
    let keep := fun key : Option PossibleKey => key.filter (!·.isStale l.position)
    some { l with possibleKey := keep l.possibleKey, outerKeys := l.outerKeys.map keep }

/-- Remembers that a key may begin here, if one may. -/
def saveKey? (l : Layout) : Option Layout :=
  if l.keyAllowed then do
    let l ← l.dropKey?
    let required := !l.inFlow && l.blocks.head? == some l.position.column
    some { l with possibleKey := some ⟨required, l.tokens.length, l.position⟩ }
  else some l

/-- Before a token that may be all of a key or its beginning. -/
def beginContent? (l : Layout) : Option Layout := (·.allowKey false) <$> l.saveKey?

/-- Before a colon: what may have been a key is one. -/
def confirmKey? (l : Layout) : Option Layout :=
  match l.possibleKey with
  | some k =>
    let after := l.tokens.length - k.before
    let l := { l with tokens := l.tokens.take after ++ Token.key :: l.tokens.drop after }
    let l := l.openBlock .blockMapping k.before k.position.column
    some { l with possibleKey := none, keyAllowed := false }
  | none => (fun l => l.allowKey !l.inFlow) <$> l.openBlockHere? .blockMapping

/-! ### Flow collections -/

/-- Before the indicator that opens a flow collection. -/
def openFlow? (l : Layout) : Option Layout := do
  let l ← l.saveKey?
  some { l with possibleKey := none, outerKeys := l.possibleKey :: l.outerKeys, keyAllowed := true }

/-- Before the indicator that closes one. -/
def closeFlow? (l : Layout) : Option Layout := do
  let l ← l.dropKey?
  match l.outerKeys with
  | [] => some { l with keyAllowed := false }
  | key :: outer => some { l with possibleKey := key, outerKeys := outer, keyAllowed := false }

end Layout

end TaggedProse.Yaml
