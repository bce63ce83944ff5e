import TaggedProse.Xml.Event
/-!
Reading a text of elements: its events with their positions, up to the first mistake. Every closing
tag has to name the element that was opened last; elements may be left open at the end. Positions
are bytes of the text, in which a byte order mark at the very beginning does not count.
-/
namespace TaggedProse.Xml

structure Reading where
  events : List (Nat × Event)
  /-- What ended the reading before the end of the text, and where. -/
  fault : Option (Nat × MarkupError)
  deriving Repr

/-- The elements that are open after an event, innermost first; `position` is the event's. -/
def track (position : Nat) (opened : List (List Char)) :
    Event → Except (Nat × MarkupError) (List (List Char))
  | .opening content => .ok (tagName content :: opened)
  | .closing name =>
    match opened with
    | [] => .error (position, .unmatchedClosing name)
    | expected :: outer =>
      if name = expected then .ok outer else .error (position, .mismatchedClosing expected name)
  | _ => .ok opened

def isText (c : Char) : Bool := c != '<'

/-- Reads what stands at `position`, inside the elements `opened`. -/
def readFrom (opened : List (List Char)) (position : Nat) : List Char → Reading
  | [] => ⟨[], none⟩
  | c :: s =>
    if c = '<' then
      match _h : bounds? s with
      | .error e => ⟨[], some (position, e)⟩
      | .ok (content, rest) =>
        match interpret content with
        | .error (distance, e) => ⟨[], some (position + distance, e)⟩
        | .ok event =>
          match track position opened event with
          | .error fault => ⟨[], some fault⟩
          | .ok opened' =>
            let r := readFrom opened' (position + byteLength content + 2) rest
            { r with events := (position, event) :: r.events }
    else
      let source := c :: s.takeWhile isText
      let r := readFrom opened (position + byteLength source) (s.dropWhile isText)
      { r with events := (position, .text source) :: r.events }
termination_by s => s.length
decreasing_by
  · rw [← append_of_bounds? _h]
    simp only [List.length_append, List.length_cons]
    omega
  · have := (List.dropWhile_suffix (l := s) isText).length_le
    simp only [List.length_cons]
    omega

def read (s : List Char) : Reading :=
  match s with
  | '\uFEFF' :: t => readFrom [] 0 t
  | _ => readFrom [] 0 s

end TaggedProse.Xml
