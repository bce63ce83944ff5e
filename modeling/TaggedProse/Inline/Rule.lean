import TaggedProse.Inline.Tag
import TaggedProse.Inline.Token
/-!
Inline rules. A rule looks at the beginning of a text and may recognise a token there: a tag, an
escaped punctuation character, an image, a hard line break, a stretch of prose, or a fixed word.
What it takes and what it leaves make up the text.
-/
namespace TaggedProse

/-- A token, the text it was recognised in, and the text after that. -/
structure Match where
  token : Token
  source : List Char
  rest : List Char
  deriving DecidableEq, Repr

def before (s rest : List Char) : List Char := s.take (s.length - rest.length)

theorem before_append {s rest : List Char} (h : rest <:+ s) : before s rest ++ rest = s := by
  obtain ⟨t, rfl⟩ := h
  simp [before]

def isPunctuation (c : Char) : Bool :=
  let n := c.toNat
  (0x21 ≤ n && n ≤ 0x2F) || (0x3A ≤ n && n ≤ 0x40) || (0x5B ≤ n && n ≤ 0x60) ||
    (0x7B ≤ n && n ≤ 0x7E)

/-! ### Tags and escapes -/

def scanTag (s : List Char) : Option Match :=
  (TagSpan.scan? s).map fun t => ⟨.markup t.source, t.source, t.rest⟩

/-- A backslash takes a punctuation character's meaning away. -/
def scanEscape : List Char → Option Match
  | '\\' :: c :: s => if isPunctuation c then some ⟨.text [c], ['\\', c], s⟩ else none
  | _ => none

/-! ### Hard line breaks -/

def afterNewline? : List Char → Option (List Char)
  | '\n' :: s => some s
  | '\r' :: '\n' :: s => some s
  | _ => none

/-- The text after a line end that two or more spaces stand before. -/
def afterSpacedNewline? : List Char → Option (List Char)
  | ' ' :: ' ' :: s => afterNewline? (s.dropWhile (· == ' '))
  | _ => none

def scanLineBreak (s : List Char) : Option Match :=
  let rest? :=
    match s with
    | '\\' :: t => afterNewline? t
    | _ => afterSpacedNewline? s
  rest?.map fun rest => ⟨.lineBreak, before s rest, rest⟩

/-! ### Images -/

def isPad (c : Char) : Bool := c == ' ' || c == '\t'

def isUrlChar (c : Char) : Bool := !(isBlank c || c == ')')

/-- An image's title, if it has one, and the text after the image; `s` is what follows the URL. -/
def imageTail? (s : List Char) : Option (Option (List Char) × List Char) :=
  match s.dropWhile isPad with
  | ')' :: rest => some (none, rest)
  | '"' :: t =>
    let inTitle (c : Char) : Bool := !(c == '"' || c == '\n')
    match t.dropWhile inTitle with
    | '"' :: u =>
      match u.dropWhile isPad with
      | ')' :: rest => some (some (t.takeWhile inTitle), rest)
      | _ => none
    | _ => none
  | _ => none

/-- The image after `![`, and the text after the image. -/
def imageBody? (s : List Char) : Option (Token × List Char) :=
  let inAlt (c : Char) : Bool := !(c == ']' || c == '\n')
  match s.dropWhile inAlt with
  | ']' :: '(' :: t =>
    let u := t.dropWhile isPad
    match u.takeWhile isUrlChar with
    | [] => none
    | url =>
      match imageTail? (u.dropWhile isUrlChar) with
      | none => none
      | some (title, rest) => some (.image url (s.takeWhile inAlt) title, rest)
  | _ => none

def scanImage (s : List Char) : Option Match :=
  match s with
  | '!' :: '[' :: t =>
    match imageBody? t with
    | none => none
    | some (token, rest) => some ⟨token, before s rest, rest⟩
  | _ => none

/-! ### Prose -/

/-- Whether prose ends in front of `s`: before a character that another rule may begin with, and
before spaces that belong to a hard line break. -/
def stopsProse : List Char → Bool
  | [] => true
  | c :: s =>
    c == '<' || c == '!' || c == '\\' || (c == ' ' && (afterSpacedNewline? (c :: s)).isSome)

/-- The prose at the beginning of a text, and the rest. -/
def splitProse : List Char → List Char × List Char
  | [] => ([], [])
  | c :: s =>
    if stopsProse (c :: s) then ([], c :: s)
    else
      let (more, rest) := splitProse s
      (c :: more, rest)

/-- Prose takes its first character whatever it is. -/
def scanText : List Char → Option Match
  | [] => none
  | c :: s =>
    let (more, rest) := splitProse s
    some ⟨.text (c :: more), c :: more, rest⟩

/-! ### Rules -/

inductive Rule where
  | tag
  | escape
  | image
  | lineBreak
  | text
  /-- Gives `token` wherever the text goes on with `word`. -/
  | literal (word : List Char) (token : Token)
  deriving DecidableEq, Repr

namespace Rule

def name : Rule → String
  | .tag => "tag"
  | .escape => "escape"
  | .image => "image"
  | .lineBreak => "line_break"
  | .text => "text"
  | .literal _ _ => "literal"

def scan : Rule → List Char → Option Match
  | .tag, s => scanTag s
  | .escape, s => scanEscape s
  | .image, s => scanImage s
  | .lineBreak, s => scanLineBreak s
  | .text, s => scanText s
  | .literal word token, s =>
    if word.isPrefixOf s then some ⟨token, word, s.drop word.length⟩ else none

/-- The rules that are always there, in the order in which they are tried. -/
def standard : List Rule := [.escape, .image, .lineBreak, .text]

/-! ### What a rule takes and leaves is the text -/

theorem append_of_scanEscape {s : List Char} {m : Match} (h : scanEscape s = some m) :
    m.source ++ m.rest = s := by
  unfold scanEscape at h
  split at h
  · split at h
    · cases h; rfl
    · cases h
  · cases h

theorem suffix_of_afterNewline? {s rest : List Char} (h : afterNewline? s = some rest) :
    rest <:+ s := by
  unfold afterNewline? at h
  split at h
  · cases h; exact List.suffix_cons _ _
  · cases h; exact (List.suffix_cons _ _).trans (List.suffix_cons _ _)
  · cases h

theorem suffix_of_afterSpacedNewline? {s rest : List Char}
    (h : afterSpacedNewline? s = some rest) : rest <:+ s := by
  unfold afterSpacedNewline? at h
  split at h
  · exact ((suffix_of_afterNewline? h).trans (List.dropWhile_suffix _)).trans
      ((List.suffix_cons _ _).trans (List.suffix_cons _ _))
  · cases h

theorem append_of_scanLineBreak {s : List Char} {m : Match} (h : scanLineBreak s = some m) :
    m.source ++ m.rest = s := by
  unfold scanLineBreak at h
  obtain ⟨rest, hrest, rfl⟩ := Option.map_eq_some_iff.1 h
  apply before_append
  split at hrest
  · exact (suffix_of_afterNewline? hrest).trans (List.suffix_cons _ _)
  · exact suffix_of_afterSpacedNewline? hrest

theorem suffix_of_dropWhile {p : Char → Bool} {s t : List Char} {c : Char}
    (h : s.dropWhile p = c :: t) : t <:+ s :=
  (List.suffix_cons c t).trans (h ▸ List.dropWhile_suffix p)

theorem suffix_of_imageTail? {s rest : List Char} {title : Option (List Char)}
    (h : imageTail? s = some (title, rest)) : rest <:+ s := by
  unfold imageTail? at h
  split at h
  · next hs => cases h; exact suffix_of_dropWhile hs
  · next t hs =>
    dsimp only at h
    split at h
    · next u hu =>
      split at h
      · next hr =>
        cases h
        exact ((suffix_of_dropWhile hr).trans (suffix_of_dropWhile hu)).trans
          (suffix_of_dropWhile hs)
      · cases h
    · cases h
  · cases h

theorem suffix_of_imageBody? {s rest : List Char} {token : Token}
    (h : imageBody? s = some (token, rest)) : rest <:+ s := by
  unfold imageBody? at h
  dsimp only at h
  split at h
  · next t hs =>
    split at h
    · cases h
    · split at h
      · cases h
      · next ht =>
        cases h
        exact (suffix_of_imageTail? ht).trans <| (List.dropWhile_suffix _).trans <|
          (List.dropWhile_suffix _).trans <| (List.suffix_cons _ _).trans (suffix_of_dropWhile hs)
  · cases h

theorem append_of_scanImage {s : List Char} {m : Match} (h : scanImage s = some m) :
    m.source ++ m.rest = s := by
  unfold scanImage at h
  split at h
  · split at h
    · cases h
    · next hb =>
      cases h
      exact before_append ((suffix_of_imageBody? hb).trans
        ((List.suffix_cons _ _).trans (List.suffix_cons _ _)))
  · cases h

theorem append_splitProse (s : List Char) : (splitProse s).1 ++ (splitProse s).2 = s := by
  induction s with
  | nil => rfl
  | cons c s ih =>
    rw [splitProse]
    split
    · rfl
    · simp [ih]

theorem append_of_scanText {s : List Char} {m : Match} (h : scanText s = some m) :
    m.source ++ m.rest = s := by
  cases s with
  | nil => simp [scanText] at h
  | cons c s =>
    cases h
    simp [append_splitProse]

theorem append_of_scan {r : Rule} {s : List Char} {m : Match} (h : r.scan s = some m) :
    m.source ++ m.rest = s := by
  cases r with
  | tag =>
    obtain ⟨t, ht, rfl⟩ := Option.map_eq_some_iff.1 h
    exact TagSpan.append_of_scan? ht
  | escape => exact append_of_scanEscape h
  | image => exact append_of_scanImage h
  | lineBreak => exact append_of_scanLineBreak h
  | text => exact append_of_scanText h
  | literal word token =>
    simp only [scan] at h
    split at h
    · next hw =>
      cases h
      obtain ⟨t, rfl⟩ := List.isPrefixOf_iff_prefix.1 hw
      simp
    · cases h

end Rule

end TaggedProse
