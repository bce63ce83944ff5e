import TaggedProse.Yaml.Node.Basic
import TaggedProse.Yaml.Token.Lexer
/-!
The document that a text spells, read from its tokens. Where a token comes that may follow a node
but not begin one, the node is blank.
-/
namespace TaggedProse.Yaml

/-- What has been read so far decides how the other tokens are understood. -/
structure Pending where
  tokens : List Token
  /-- What the handles of tags stand for. -/
  handles : List (String × String)
  /-- The numbers of anchors by name. -/
  anchors : List (String × Nat) := []

abbrev Reading := StateT Pending Option

namespace Reading

def peek : Reading (Option Token) := return (← get).tokens.head?

def skip : Reading Unit := modify fun p => { p with tokens := p.tokens.tail }

/-- Whether `t` comes next, which is then skipped. -/
def accept (t : Token) : Reading Bool := do
  let found := (← peek) == some t
  if found then skip
  return found

def expect (t : Token) : Reading Unit := do
  unless ← accept t do failure

/-! ### Properties -/

/-- Gives an anchor's name its number. -/
def declareAnchor (name : String) : Reading Nat := do
  let anchors := (← get).anchors
  modify fun p => { p with anchors := (name, anchors.length) :: anchors.filter (·.1 != name) }
  return anchors.length

def numberOf (name : String) : Reading Nat := do ((← get).anchors.lookup name : Option Nat)

def resolve (handle suffix : String) : Reading String := do
  let start ← if handle = "" then pure "" else ((← get).handles.lookup handle : Option String)
  return start ++ suffix

def anchor? : Reading (Option String) := do
  match ← peek with
  | some (.anchor name) =>
    skip
    return some name
  | _ => return none

def tag? : Reading (Option (String × String)) := do
  match ← peek with
  | some (.tag handle suffix) =>
    skip
    return some (handle, suffix)
  | _ => return none

/-- An anchor and a tag in either order; `none` if neither is written. -/
def properties? : Reading (Option Properties) := do
  let first ← anchor?
  let tag ← tag?
  let name ← if first.isNone && tag.isSome then anchor? else pure first
  if name.isNone && tag.isNone then return none
  let tag ← tag.mapM fun (handle, suffix) => resolve handle suffix
  return some ⟨← name.mapM declareAnchor, tag⟩

/-! ### Content -/

/-- A blank node in front of one of the tokens `ends`, and elsewhere what `read` gives. -/
def orBlank (ends : List Token) (read : Reading Node) : Reading Node := do
  if (← peek).any ends.contains then return .blank {} else read

/-- A node that has nothing but properties, of which there must be some. -/
def bare : Option Properties → Reading Node
  | some p => return .blank p
  | none => failure

def entryEnds : List Token := [.key, .value, .blockEnd]

mutual

/-- A node. With `block` it may be a block collection, and with `indentless` a block sequence no
deeper than the mapping around it, which has no tokens for its beginning and end. -/
def node (fuel : Nat) (block indentless : Bool) : Reading Node :=
  match fuel with
  | 0 => failure
  | fuel + 1 => do
    if let some (.alias name) ← peek then
      skip
      return .alias (← numberOf name)
    let p ← properties?
    let q := p.getD {}
    match ← peek, block with
    | some (.scalar plain text), _ =>
      skip
      return .scalar q plain text
    | some .flowSequence, _ =>
      skip
      return .sequence q (← flowItems fuel true)
    | some .flowMapping, _ =>
      skip
      return .mapping q (← flowEntries fuel true)
    | some .blockSequence, true =>
      skip
      return .sequence q (← blockItems fuel)
    | some .blockMapping, true =>
      skip
      return .mapping q (← blockEntries fuel)
    | some .blockEntry, _ =>
      if indentless then return .sequence q (← indentlessItems fuel) else bare p
    | _, _ => bare p

def blockItems (fuel : Nat) : Reading (List Node) :=
  match fuel with
  | 0 => failure
  | fuel + 1 => do
    if ← accept .blockEntry then
      let item ← orBlank [.blockEntry, .blockEnd] (node fuel true false)
      return item :: (← blockItems fuel)
    else
      expect .blockEnd
      return []

def indentlessItems (fuel : Nat) : Reading (List Node) :=
  match fuel with
  | 0 => failure
  | fuel + 1 => do
    if ← accept .blockEntry then
      let item ← orBlank (.blockEntry :: entryEnds) (node fuel true false)
      return item :: (← indentlessItems fuel)
    else return []

def blockEntries (fuel : Nat) : Reading (List (Node × Node)) :=
  match fuel with
  | 0 => failure
  | fuel + 1 => do
    if ← accept .key then
      let key ← orBlank entryEnds (node fuel true true)
      let value ← if ← accept .value then orBlank entryEnds (node fuel true true)
        else pure (.blank {})
      return (key, value) :: (← blockEntries fuel)
    else
      expect .blockEnd
      return []

/-- The items of a flow sequence; `first` if none has been read. -/
def flowItems (fuel : Nat) (first : Bool) : Reading (List Node) :=
  match fuel with
  | 0 => failure
  | fuel + 1 => do
    if ← accept .flowSequenceEnd then return []
    unless first do expect .flowEntry
    if ← accept .flowSequenceEnd then return []
    let item ← if ← accept .key then flowPair fuel else node fuel false false
    return item :: (← flowItems fuel false)

/-- An item that is a mapping of one entry without braces. If its key is blank, the token after
that is skipped. -/
def flowPair (fuel : Nat) : Reading Node :=
  match fuel with
  | 0 => failure
  | fuel + 1 => do
    let blankKey := (← peek).any [.value, .flowEntry, .flowSequenceEnd].contains
    let key ← if blankKey then (do skip; return .blank {}) else node fuel false false
    let value ← if ← accept .value then
        orBlank [.flowEntry, .flowSequenceEnd] (node fuel false false)
      else pure (.blank {})
    return .mapping {} [(key, value)]

/-- The entries of a flow mapping; `first` if none has been read. -/
def flowEntries (fuel : Nat) (first : Bool) : Reading (List (Node × Node)) :=
  match fuel with
  | 0 => failure
  | fuel + 1 => do
    if ← accept .flowMappingEnd then return []
    unless first do expect .flowEntry
    if ← accept .flowMappingEnd then return []
    let entry ←
      if ← accept .key then do
        let key ← orBlank [.value, .flowEntry, .flowMappingEnd] (node fuel false false)
        let value ← if ← accept .value then
            orBlank [.flowEntry, .flowMappingEnd] (node fuel false false)
          else pure (.blank {})
        pure (key, value)
      else do pure (← node fuel false false, .blank {})
    return entry :: (← flowEntries fuel false)

end

/-! ### Documents -/

/-- The handles that need no directive. -/
def knownHandles : List (String × String) := [("!", "!"), ("!!", "tag:yaml.org,2002:")]

/-- Reads directives, of which there may be one for the version and one for each handle, and
the handles that they give. -/
def directives (version : Bool) (handles : List (String × String)) :
    List Token → Option (List (String × String) × List Token)
  | .version major minor :: ts =>
    if version || major != 1 || (minor != 1 && minor != 2) then none
    else directives true handles ts
  | .handleDirective handle start :: ts =>
    if (handles.lookup handle).isSome then none
    else directives version ((handle, start) :: handles) ts
  | ts => some (handles, ts)

/-- A document's node; the mark in front of it may be missing unless there are directives. -/
def content (fuel : Nat) (directed : Bool) : Reading Node := do
  if ← accept .documentStart then
    orBlank [.documentStart, .documentEnd, .streamEnd] (node fuel true false)
  else if directed then failure
  else node fuel true false

/-- The only document of a stream. Each token takes at most two steps. -/
def document? (tokens : List Token) : Option Node := do
  let (handles, rest) ← directives false [] tokens
  let (n, p) ← (content (2 * tokens.length + 2) (rest.length < tokens.length)).run
    ⟨rest, handles ++ knownHandles, []⟩
  if p.tokens.dropWhile (· == .documentEnd) == [.streamEnd] then some n else none

end Reading

def read? (s : List Char) : Option Node := do Reading.document? (← tokens? s)

end TaggedProse.Yaml
