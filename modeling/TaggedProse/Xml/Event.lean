import TaggedProse.Xml.Attribute
/-!
What a text of elements consists of: tags, text between them, literal sections, and comments,
declarations and instructions, which mean nothing here. Markup runs from `<` to a `>`; `bounds?`
finds that `>` and `interpret` says what the markup is.
-/
namespace TaggedProse.Xml

inductive Event where
  /-- The tag that opens an element. -/
  | opening (content : List Char)
  /-- A tag for an element without content. -/
  | empty (content : List Char)
  | closing (name : List Char)
  | text (source : List Char)
  /-- A section whose text stands for itself. -/
  | literal (text : List Char)
  | ignored
  deriving DecidableEq, Repr

inductive MarkupError where
  | unclosedTag
  | unclosedComment
  | unclosedLiteral
  | unclosedDoctype
  | unclosedInstruction
  | unknownMarkup
  | unnamedDoctype
  | unmatchedClosing (name : List Char)
  | mismatchedClosing (expected found : List Char)
  deriving DecidableEq, Repr

def MarkupError.message : MarkupError → String
  | .unclosedTag => "Syntax error: syntax error: tag not closed: `>` not found before end of input"
  | .unclosedComment =>
    "Syntax error: syntax error: comment not closed: `-->` not found before end of input"
  | .unclosedLiteral =>
    "Syntax error: syntax error: CDATA not closed: `]]>` not found before end of input"
  | .unclosedDoctype =>
    "Syntax error: syntax error: DOCTYPE not closed: `>` not found before end of input"
  | .unclosedInstruction =>
    "Syntax error: syntax error: processing instruction or xml declaration not closed: " ++
      "`?>` not found before end of input"
  | .unknownMarkup => "Syntax error: syntax error: unknown or missed symbol in markup"
  | .unnamedDoctype =>
    "Syntax error: ill-formed document: `<!DOCTYPE>` declaration does not contain a name of a " ++
      "document type"
  | .unmatchedClosing name =>
    "Syntax error: ill-formed document: close tag `</" ++ String.ofList name ++
      ">` does not match any open tag"
  | .mismatchedClosing expected found =>
    "Mismatched closing tag: expected '</" ++ String.ofList expected ++ ">', found '</" ++
      String.ofList found ++ ">'"

/-! ### Where markup ends -/

/-- The quote that is open after `c`, when `quote?` is before it. -/
def quoteAfter (quote? : Option Char) (c : Char) : Option Char :=
  match quote? with
  | none => if c = '"' ∨ c = '\'' then some c else none
  | some q => if c = q then none else some q

/-- Splits at the first `>` outside quotes, when `quote?` is the quote that is open. -/
def splitTag (quote? : Option Char) : List Char → Option (List Char × List Char)
  | [] => none
  | c :: s =>
    if c = '>' ∧ quote? = none then some ([], s)
    else (splitTag (quoteAfter quote? c) s).map fun (content, rest) => (c :: content, rest)

/-- Splits at the first `>` before which the text, read backwards, passes `ends`. -/
def splitWhere (ends : List Char → Bool) (read : List Char) :
    List Char → Option (List Char × List Char)
  | [] => none
  | c :: s =>
    if c = '>' ∧ ends read then some ([], s)
    else (splitWhere ends (c :: read) s).map fun (content, rest) => (c :: content, rest)

/-- Splits at the first `>` that closes none of the `<` before it, of which `depth` are open. -/
def splitBalanced (depth : Nat) : List Char → Option (List Char × List Char)
  | [] => none
  | c :: s =>
    if c = '>' ∧ depth = 0 then some ([], s)
    else
      (splitBalanced (if c = '<' then depth + 1 else if c = '>' then depth - 1 else depth) s).map
        fun (content, rest) => (c :: content, rest)

/-- A comment ends with two hyphens, which are not those it begins with. -/
def endsComment : List Char → Bool
  | '-' :: '-' :: _ :: _ :: _ :: _ => true
  | _ => false

def endsLiteral : List Char → Bool
  | ']' :: ']' :: _ => true
  | _ => false

def endsInstruction : List Char → Bool
  | '?' :: _ => true
  | _ => false

/-- The content of the markup whose `<` stands before `s`, and the text after its `>`. -/
def bounds? (s : List Char) : Except MarkupError (List Char × List Char) :=
  match s with
  | '!' :: '[' :: _ => (splitWhere endsLiteral [] s).elim (.error .unclosedLiteral) .ok
  | '!' :: '-' :: _ => (splitWhere endsComment [] s).elim (.error .unclosedComment) .ok
  | '!' :: 'D' :: _ | '!' :: 'd' :: _ => (splitBalanced 0 s).elim (.error .unclosedDoctype) .ok
  | '!' :: _ => .error .unknownMarkup
  | '?' :: _ => (splitWhere endsInstruction [] s).elim (.error .unclosedInstruction) .ok
  | _ => (splitTag none s).elim (.error .unclosedTag) .ok

/-! ### What markup is -/

/-- The name in a closing tag; white space after it is left out. -/
def closingName (s : List Char) : List Char :=
  if s.all isSpace then s else (s.reverse.dropWhile isSpace).reverse

/-- What follows `<!` of a document type, if that is written in letters of any case. -/
def afterDoctype? (content : List Char) : Option (List Char) :=
  if (content.take 8).map Char.toUpper = "!DOCTYPE".toList then some (content.drop 8) else none

def afterLiteral? (content : List Char) : Option (List Char) :=
  if (content.take 8) = "![CDATA[".toList then some (content.drop 8) else none

/-- What markup with this content is. An error comes with its distance from the `<`. -/
def interpret (content : List Char) : Except (Nat × MarkupError) Event :=
  match content with
  | '!' :: '[' :: _ =>
    match afterLiteral? content with
    | some s => .ok (.literal (s.take (s.length - 2)))
    | none => .error (0, .unclosedLiteral)
  | '!' :: '-' :: '-' :: _ => .ok .ignored
  | '!' :: '-' :: _ => .error (0, .unclosedComment)
  | '!' :: _ =>
    match afterDoctype? content with
    | some s =>
      if s.all isSpace then .error (1 + byteLength content, .unnamedDoctype) else .ok .ignored
    | none => .error (0, .unclosedDoctype)
  | ['?'] => .error (0, .unclosedInstruction)
  | '?' :: _ => .ok .ignored
  | '/' :: name => .ok (.closing (closingName name))
  | _ =>
    if content.getLast? = some '/' then .ok (.empty content.dropLast) else .ok (.opening content)

/-! ### Nothing but the brackets is lost -/

theorem append_of_splitTag {q : Option Char} {s content rest : List Char}
    (h : splitTag q s = some (content, rest)) : content ++ '>' :: rest = s := by
  induction s generalizing q content rest with
  | nil => simp [splitTag] at h
  | cons c s ih =>
    rw [splitTag] at h
    split at h
    · next hc => cases h; simp [hc.1]
    · obtain ⟨⟨content', rest'⟩, hs, he⟩ := Option.map_eq_some_iff.1 h
      cases he
      simp [ih hs]

theorem append_of_splitWhere {ends : List Char → Bool} {read s content rest : List Char}
    (h : splitWhere ends read s = some (content, rest)) : content ++ '>' :: rest = s := by
  induction s generalizing read content rest with
  | nil => simp [splitWhere] at h
  | cons c s ih =>
    rw [splitWhere] at h
    split at h
    · next hc => cases h; simp [hc.1]
    · obtain ⟨⟨content', rest'⟩, hs, he⟩ := Option.map_eq_some_iff.1 h
      cases he
      simp [ih hs]

theorem append_of_splitBalanced {depth : Nat} {s content rest : List Char}
    (h : splitBalanced depth s = some (content, rest)) : content ++ '>' :: rest = s := by
  induction s generalizing depth content rest with
  | nil => simp [splitBalanced] at h
  | cons c s ih =>
    rw [splitBalanced] at h
    split at h
    · next hc => cases h; simp [hc.1]
    · obtain ⟨⟨content', rest'⟩, hs, he⟩ := Option.map_eq_some_iff.1 h
      cases he
      simp [ih hs]

theorem eq_some_of_elim_eq_ok {ε α : Type} {o : Option α} {e : ε} {a : α}
    (h : o.elim (.error e) Except.ok = Except.ok a) : o = some a := by
  cases o with
  | none => cases h
  | some b => cases h; rfl

theorem append_of_bounds? {s content rest : List Char} (h : bounds? s = .ok (content, rest)) :
    content ++ '>' :: rest = s := by
  unfold bounds? at h
  split at h
  · exact append_of_splitWhere (eq_some_of_elim_eq_ok h)
  · exact append_of_splitWhere (eq_some_of_elim_eq_ok h)
  · exact append_of_splitBalanced (eq_some_of_elim_eq_ok h)
  · exact append_of_splitBalanced (eq_some_of_elim_eq_ok h)
  · cases h
  · exact append_of_splitWhere (eq_some_of_elim_eq_ok h)
  · exact append_of_splitTag (eq_some_of_elim_eq_ok h)

end TaggedProse.Xml
