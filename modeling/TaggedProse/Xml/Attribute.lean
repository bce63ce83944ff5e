import TaggedProse.Xml.Reference
/-!
The attributes of an element's tag. A tag's content is its name and, after white space, attributes:
a name, `=` and a quoted value. White space is that of element markup: the space, tab and line end
characters of ASCII. Attribute names are whatever stands there.
-/
namespace TaggedProse.Xml

def isSpace (c : Char) : Bool := c == ' ' || c == '\t' || c == '\r' || c == '\n'

/-- What is wrong with a tag's attributes; positions are bytes of the tag's content. -/
inductive AttributeError where
  | duplicate
  | noEquals (position : Nat)
  | noValue (position : Nat)
  | unquoted
  | unclosed (position : Nat) (quote : Char)
  | badReference (error : ReferenceError)
  deriving DecidableEq, Repr

def AttributeError.message : AttributeError → String
  | .duplicate => "duplicate attribute"
  | .noEquals position =>
    s!"position {position}: attribute key must be directly followed by `=` or space"
  | .noValue position => s!"position {position}: `=` must be followed by an attribute value"
  | .unquoted => "unquoted attribute value"
  | .unclosed position quote =>
    s!"position {position}: missing closing quote `{quote}` in attribute value"
  | .badReference error => error.message

abbrev Attributes := List (String × String)

def isKeyEnd (c : Char) : Bool := c == '=' || isSpace c

/-- Reads the attributes at the end of a tag's content of `length` bytes; `seen` are the names of
those before. The first character of a name may be any, even an equals sign. -/
def readAttributes (length : Nat) (seen : List (List Char)) (s : List Char) :
    Except AttributeError Attributes :=
  match _hs : s.dropWhile isSpace with
  | [] => .ok []
  | c :: t =>
    let key := c :: t.takeWhile (!isKeyEnd ·)
    match _ht : (t.dropWhile (!isKeyEnd ·)).dropWhile isSpace with
    | '=' :: u =>
      if seen.contains key then .error .duplicate
      else
        match _hu : u.dropWhile isSpace with
        | [] => .error (.noValue length)
        | q :: v =>
          if q = '"' ∨ q = '\'' then
            match _hv : v.dropWhile (· != q) with
            | [] => .error (.unclosed length q)
            | _ :: rest =>
              match decode (v.takeWhile (· != q)) with
              | .error e => .error (.badReference e)
              | .ok value =>
                (readAttributes length (key :: seen) rest).map
                  ((String.ofList key, String.ofList value) :: ·)
          else .error .unquoted
    | u => .error (.noEquals (length - byteLength u))
termination_by s.length
decreasing_by
  have dropped (p : Char → Bool) (l : List Char) : (l.dropWhile p).length ≤ l.length :=
    (List.dropWhile_suffix p).length_le
  have h₁ := dropped isSpace s
  have h₂ := dropped (!isKeyEnd ·) t
  have h₃ := dropped isSpace (t.dropWhile (!isKeyEnd ·))
  have h₄ := dropped isSpace u
  have h₅ := dropped (· != q) v
  rw [_hs] at h₁
  rw [_ht] at h₃
  rw [_hu] at h₄
  rw [_hv] at h₅
  simp only [List.length_cons] at h₁ h₃ h₄ h₅
  omega

def tagName (content : List Char) : List Char := content.takeWhile (!isSpace ·)

def attributes (content : List Char) : Except AttributeError Attributes :=
  readAttributes (byteLength content) [] (content.dropWhile (!isSpace ·))

end TaggedProse.Xml
