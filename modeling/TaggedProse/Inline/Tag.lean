import TaggedProse.Text.Blank
import TaggedProse.Unicode.Word
/-!
Tags in prose: `<name a="1">`, `<name/>`, `</name>`. The recogniser is a machine that reads one
character at a time; at most one beginning of a text is a tag, since `>` ends a tag wherever the
machine takes it. Attribute values may stand without quotes here, so that a tag with a faulty
attribute is still a tag.
-/
namespace TaggedProse

structure TagSpan where
  closing : Bool
  name : List Char
  selfClosing : Bool
  /-- The tag as written. -/
  source : List Char
  rest : List Char
  deriving DecidableEq, Repr

namespace TagSpan

def isNameStart (c : Char) : Bool := c.isAlpha || c == '_'

def isNameChar (c : Char) : Bool := Unicode.isWord c || c == ':' || c == '.' || c == '-'

def isKeyChar (c : Char) : Bool :=
  !(isBlank c || c == '"' || c == '\'' || c == '<' || c == '>' || c == '/' || c == '=')

/-- Characters of a value without quotes. -/
def isBareChar (c : Char) : Bool :=
  !(isBlank c || c == '"' || c == '\'' || c == '<' || c == '>' || c == '=' || c == '\x60')

inductive State where
  /-- In the tag's name. -/
  | name
  /-- After blanks that an attribute may follow. -/
  | gap
  /-- In an attribute's name. -/
  | key
  /-- After blanks behind an attribute's name. -/
  | afterKey
  /-- After an equals sign. -/
  | value
  | doubleQuoted
  | singleQuoted
  | bare
  /-- After the closing quote of a value. -/
  | afterValue
  /-- After the slash that ends a self-closing tag. -/
  | slash
  deriving DecidableEq, Repr

/-- Between parts of a tag a blank, a slash or the end may follow, or else what `other` says. -/
def State.part (blank : State) (other : Option State) (c : Char) : Option State :=
  if isBlank c then some blank else if c = '/' then some .slash else other

/-- The state after one more character, which is not the `>` that ends the tag. -/
def State.step (c : Char) : State → Option State
  | .name => if isNameChar c then some .name else State.part .gap none c
  | .gap => State.part .gap (if isKeyChar c then some .key else none) c
  | .key =>
    if c = '=' then some .value
    else State.part .afterKey (if isKeyChar c then some .key else none) c
  | .afterKey =>
    if c = '=' then some .value
    else State.part .afterKey (if isKeyChar c then some .key else none) c
  | .value =>
    if c = '"' then some .doubleQuoted
    else if c = '\'' then some .singleQuoted
    else if isBlank c then some .value
    else if isBareChar c then some .bare
    else none
  | .doubleQuoted => some (if c = '"' then .afterValue else .doubleQuoted)
  | .singleQuoted => some (if c = '\'' then .afterValue else .singleQuoted)
  | .bare => if isBlank c then some .gap else if isBareChar c then some .bare else none
  | .afterValue => State.part .gap none c
  | .slash => none

def State.ends : State → Bool
  | .value | .doubleQuoted | .singleQuoted => false
  | _ => true

/-- Reads to the end of a tag: whether it is self-closing, what was read, and the rest. -/
def finish (q : State) : List Char → Option (Bool × List Char × List Char)
  | [] => none
  | c :: s =>
    if c = '>' ∧ q.ends then some (q == .slash, ['>'], s)
    else
      match q.step c with
      | none => none
      | some q' =>
        match finish q' s with
        | none => none
        | some (selfClosing, read, rest) => some (selfClosing, c :: read, rest)

/-- The tag after `<` or `</`, which is `opener`. -/
def named (closing : Bool) (opener : List Char) : List Char → Option TagSpan
  | [] => none
  | c :: s =>
    if isNameStart c then
      match finish .name s with
      | none => none
      | some (selfClosing, read, rest) =>
        some ⟨closing, c :: s.takeWhile isNameChar, selfClosing, opener ++ c :: read, rest⟩
    else none

def scan? : List Char → Option TagSpan
  | '<' :: '/' :: s => named true ['<', '/'] s
  | '<' :: s => named false ['<'] s
  | _ => none

theorem append_of_finish {q : State} {s read rest : List Char} {b : Bool}
    (h : finish q s = some (b, read, rest)) : read ++ rest = s := by
  induction s generalizing q read rest b with
  | nil => simp [finish] at h
  | cons c s ih =>
    rw [finish] at h
    split at h
    · next hc => cases h; simp [hc.1]
    · split at h
      · cases h
      · split at h
        · cases h
        · next hf => cases h; simp [ih hf]

theorem append_of_named {closing : Bool} {opener s : List Char} {t : TagSpan}
    (h : named closing opener s = some t) : t.source ++ t.rest = opener ++ s := by
  cases s with
  | nil => simp [named] at h
  | cons c s =>
    rw [named] at h
    split at h
    · split at h
      · cases h
      · next hf => cases h; simp [append_of_finish hf]
    · cases h

theorem append_of_scan? {s : List Char} {t : TagSpan} (h : scan? s = some t) :
    t.source ++ t.rest = s := by
  unfold scan? at h
  split at h
  · simpa using append_of_named h
  · simpa using append_of_named h
  · cases h

end TagSpan

end TaggedProse
