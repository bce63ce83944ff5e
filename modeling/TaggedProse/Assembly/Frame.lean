import TaggedProse.Fault
import TaggedProse.Ledger
import TaggedProse.Value
import TaggedProse.Schema.Basic
import TaggedProse.Assembly.Prose
import TaggedProse.Paragraph.Rendering
/-!
Frames: the elements that are open while commands are assembled. What a frame gathers, its body,
depends on the schema. A body takes up text and the values of child elements, opens child elements,
and becomes a value when its element closes. Every value that comes about is noted in the ledger,
also when what led to it fails afterwards.
-/
namespace TaggedProse

inductive Body where
  /-- The paragraph: the stretch of prose under way, if there is one, and the commands before it. -/
  | paragraph (prose : Option Prose) (commands : List Command)
  /-- An element that holds text. -/
  | scalar (prose : Prose)
  /-- An element with fields. -/
  | object (table : Table) (fields : List (String × Value))
  /-- An element with attributes, whose own text is the field `field`. -/
  | content (table : Table) (field : String) (fields : List (String × Value)) (prose : Prose)
  /-- An image, which was complete when it opened. -/
  | image
  /-- A line break. What is written inside it counts as written in the frame around it. -/
  | lineBreak

def Body.isLineBreak : Body → Bool
  | .lineBreak => true
  | _ => false

structure Frame where
  tag : String
  /-- The line of the tag that opened the element. -/
  line : Nat
  /-- Whether the element's value is one item of a list. -/
  item : Bool
  body : Body

/-! ### Opening elements -/

/-- Values for the attributes of an element with the fields of `table`, added to `fields`. -/
def attributeFields (table : Table) (line : Nat) (l : Ledger) (fields : Record Value) :
    List (String × String) → Except Failure (Record Value) × Ledger
  | [] => (.ok fields, l)
  | (name, value) :: rest =>
    match table.get? name with
    | none => (.error ⟨.unknownField name, line⟩, l)
    | some f =>
      if f.role = .attribute then
        attributeFields table line (l.note line) (Record.insert name (.text l.next value) fields) rest
      else (.error ⟨.notAttribute name, line⟩, l)

def imageFields (line : Nat) (l : Ledger) (fields : Record Value) :
    List (String × String) → Record Value × Ledger
  | [] => (fields, l)
  | (name, value) :: rest =>
    imageFields line (l.note line) (Record.insert name (.text l.next value) fields) rest

/-- The table of the object that the element `tag` is to hold; `command` tells whether the element
is a command. -/
def Field.table (schema : Schema) (tag : String) (command : Bool) (f : Field) :
    Except Fault Table :=
  match f.nested? with
  | none =>
    match f.type with
    | .list item => .error (.unexpectedSchema item.head tag)
    | t => .error (.unexpectedSchema t.head tag)
  | some name =>
    match schema.table? name with
    | some table => .ok table
    | none => .error (if command then .commandNotFound tag else .unexpectedSchema name tag)

def openObject (table : Table) (tag : String) (attributes : List (String × String)) (line : Nat)
    (l : Ledger) : Except Failure Body × Ledger :=
  match table.content? with
  | none =>
    match attributeFields table line l [] attributes with
    | (.error e, l) => (.error e, l)
    | (.ok fields, l) => (.ok (.object table fields), l)
  | some field =>
    match table.elements with
    | [] =>
      match attributeFields table line l [] attributes with
      | (.error e, l) => (.error e, l)
      | (.ok fields, l) => (.ok (.content table field fields {}), l)
    | children => (.error ⟨.contentBesideChildren tag field children, line⟩, l)

def openNested (schema : Schema) (tag : String) (f : Field) (command : Bool)
    (attributes : List (String × String)) (line : Nat) (l : Ledger) :
    Except Failure Body × Ledger :=
  match f.table schema tag command with
  | .error fault => (.error ⟨fault, line⟩, l)
  | .ok table => openObject table tag attributes line l

/-- Elements that hold text have no attributes. -/
def openScalar (tag : String) (attributes : List (String × String)) (line : Nat) :
    Except Failure Body :=
  match attributes with
  | [] => .ok (.scalar {})
  | _ => .error ⟨.undescribedAttributes tag attributes, line⟩

def openCommand (schema : Schema) (tag : String) (f : Field) (attributes : List (String × String))
    (line : Nat) (l : Ledger) : Except Failure Body × Ledger :=
  match f.role with
  | .attribute => (.error ⟨.attributeCommand tag, line⟩, l)
  | .list => (.error ⟨.listCommand tag, line⟩, l)
  | .content | .scalar => (openScalar tag attributes line, l)
  | .object => openNested schema tag f true attributes line l

def openField (schema : Schema) (tag : String) (f : Field) (attributes : List (String × String))
    (line : Nat) (l : Ledger) : Except Failure Body × Ledger :=
  match f.role with
  | .attribute | .content => (.error ⟨.notElement tag, line⟩, l)
  | .scalar => (openScalar tag attributes line, l)
  | .object | .list => openNested schema tag f false attributes line l

/-- The command for a finished stretch of prose, if it holds any words. -/
def proseCommand (schema : Schema) (prose : Option Prose) (l : Ledger) :
    Except Failure (List Command) × Ledger :=
  match prose with
  | none => (.ok [], l)
  | some p =>
    if p.isBlank then (.ok [], l)
    else
      let line := p.firstLine.getD 0
      match schema.root.prose? with
      | none => (.error ⟨.undescribedText paragraphTag, line⟩, l)
      | some field => (.ok [⟨field, .text l.next p.text⟩], l.note line)

/-- What comes of opening a child element. -/
structure Opening where
  /-- The body around the child, which may have changed even if the child is refused. -/
  parent : Body
  child : Except Failure Body
  /-- Whether the child is one item of a list. -/
  item : Bool
  ledger : Ledger

/-- Breaks and images are part of the prose of every paragraph; other tags are commands, and end
the stretch of prose. -/
def openInParagraph (schema : Schema) (prose : Option Prose) (commands : List Command)
    (tag : String) (attributes : List (String × String)) (line : Nat) (l : Ledger) : Opening :=
  if tag = breakTag then
    ⟨.paragraph (some (prose.getD {}).lineBreak) commands, .ok .lineBreak, false, l⟩
  else if tag = imageTag then
    match proseCommand schema prose l with
    | (.error e, l) => ⟨.paragraph none commands, .error e, false, l⟩
    | (.ok before, l) =>
      let (fields, l) := imageFields line l [] attributes
      let image := ⟨imageTag, .object l.next fields⟩
      ⟨.paragraph none (commands ++ before ++ [image]), .ok .image, false, l.note line⟩
  else
    match schema.command? tag with
    | none =>
      let fault := .undescribedChild (schema.root.prose?.getD paragraphTag) tag
      ⟨.paragraph prose commands, .error ⟨fault, line⟩, false, l⟩
    | some f =>
      match proseCommand schema prose l with
      | (.error e, l) => ⟨.paragraph none commands, .error e, false, l⟩
      | (.ok before, l) =>
        let (child, l) := openCommand schema tag f attributes line l
        ⟨.paragraph none (commands ++ before), child, false, l⟩

/-- Only lists may have more than one element of a name. -/
def openInObject (schema : Schema) (table : Table) (fields : Record Value) (tag : String)
    (attributes : List (String × String)) (line : Nat) (l : Ledger) : Opening :=
  let parent := Body.object table fields
  match table.get? tag with
  | none => ⟨parent, .error ⟨.unknownField tag, line⟩, false, l⟩
  | some f =>
    if f.role.isElement && f.role != .list && Record.contains tag fields then
      ⟨parent, .error ⟨.alreadyDefined tag, line⟩, false, l⟩
    else
      let (child, l) := openField schema tag f attributes line l
      ⟨parent, child, f.role == .list, l⟩

def Body.openChild (schema : Schema) (around : String) (b : Body) (tag : String)
    (attributes : List (String × String)) (line : Nat) (l : Ledger) : Opening :=
  match b with
  | .paragraph prose commands => openInParagraph schema prose commands tag attributes line l
  | .scalar prose =>
    if tag = breakTag then ⟨.scalar prose.lineBreak, .ok .lineBreak, false, l⟩
    else ⟨b, .error ⟨.undescribedChild around tag, line⟩, false, l⟩
  | .object table fields => openInObject schema table fields tag attributes line l
  | .content table field fields prose =>
    if tag = breakTag then ⟨.content table field fields prose.lineBreak, .ok .lineBreak, false, l⟩
    else
      match table.get? tag with
      | none => ⟨b, .error ⟨.unknownField tag, line⟩, false, l⟩
      | some _ => ⟨b, .error ⟨.notElement tag, line⟩, false, l⟩
  | .image | .lineBreak => ⟨b, .error ⟨.undescribedChild around tag, line⟩, false, l⟩

/-! ### Text -/

/-- Where text is not allowed, white space still is. -/
def refuseText (tag : String) (s : List Char) (line : Nat) : Except Failure Unit :=
  match visibleLine? line s with
  | none => .ok ()
  | some visible => .error ⟨.undescribedText tag, visible⟩

def Body.write (tag : String) (b : Body) (s : List Char) (line : Nat) : Except Failure Body :=
  match b with
  | .paragraph prose commands => .ok (.paragraph (some ((prose.getD {}).write s line)) commands)
  | .scalar prose => .ok (.scalar (prose.write s line))
  | .content table field fields prose => .ok (.content table field fields (prose.write s line))
  | .object _ _ | .image | .lineBreak => (refuseText tag s line).map fun _ => b

/-! ### Closing elements -/

inductive Closed where
  | value (v : Value)
  | commands (l : List Command)
  | nothing

/-- Closes an element that was opened on line `line`. Its text is noted before the element. -/
def Body.close (schema : Schema) (line : Nat) (b : Body) (l : Ledger) :
    Except Failure Closed × Ledger :=
  match b with
  | .paragraph prose commands =>
    match proseCommand schema prose l with
    | (.error e, l) => (.error e, l)
    | (.ok last, l) => (.ok (.commands (commands ++ last)), l)
  | .scalar prose => (.ok (.value (.text l.next prose.text)), l.note line)
  | .object _ fields => (.ok (.value (.object l.next fields)), l.note line)
  | .content _ field fields prose =>
    let fields := Record.insert field (.text l.next prose.text) fields
    let l := l.note (prose.firstLine.getD line)
    (.ok (.value (.content l.next fields field)), l.note line)
  | .image | .lineBreak => (.ok .nothing, l)

/-- Adds an item to the list under `name`, which begins with it if there is none yet. -/
def addItem (name : String) (v : Value) (line : Nat) (fields : Record Value) (l : Ledger) :
    Record Value × Ledger :=
  match Record.get? name fields with
  | some (.list id items) => (Record.insert name (.list id (items ++ [v])) fields, l)
  | some _ => (fields, l)
  | none => (Record.insert name (.list l.next [v]) fields, l.note line)

/-- Takes up the value of a closed child element, which was opened on line `line`. -/
def Body.accept (around : String) (b : Body) (child : Frame) (v : Value) (l : Ledger) :
    Except Failure Body × Ledger :=
  match b with
  | .paragraph prose commands => (.ok (.paragraph prose (commands ++ [⟨child.tag, v⟩])), l)
  | .object table fields =>
    if child.item then
      let (fields, l) := addItem child.tag v child.line fields l
      (.ok (.object table fields), l)
    else (.ok (.object table (Record.insert child.tag v fields)), l)
  | .scalar _ | .content _ _ _ _ | .image | .lineBreak =>
    (.error ⟨.undescribedChild around child.tag, child.line⟩, l)

end TaggedProse
