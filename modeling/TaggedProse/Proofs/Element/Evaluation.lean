import TaggedProse.Proofs.Element.Tree

/-! The meaning of element trees, by recursion on the tree: each element has a value by its field, its
attributes, its line and its children. There is no stack, and every value carries its line. -/
namespace TaggedProse

/-! ### Text and line breaks -/

namespace Tree

mutual

/-- Prose with what a child adds to it. Only line breaks may stand in it; `refuse` tells what is
wrong with another element. -/
def gather (refuse : String → Fault) (p : Prose) : Tree → Except Failure Prose
  | .text s line => .ok (p.write s line)
  | .element tag _ line children _ =>
    if tag = breakTag then gatherAll refuse p.lineBreak children else .error ⟨refuse tag, line⟩

def gatherAll (refuse : String → Fault) (p : Prose) : List Tree → Except Failure Prose
  | [] => .ok p
  | n :: ns => (n.gather refuse p).bind fun q => gatherAll refuse q ns

end

end Tree

/-- Elements that hold text have no attributes and no children but line breaks. -/
def scalarValue (tag : String) (attributes : List (String × String)) (line : Nat)
    (children : List Tree) : Except Failure LinedValue :=
  match attributes with
  | [] => (Tree.gatherAll (.undescribedChild tag) {} children).map (.text line ·.text)
  | _ => .error ⟨.undescribedAttributes tag attributes, line⟩

/-! ### Images -/

def imageValues (line : Nat) (fields : Record LinedValue) :
    List (String × String) → Record LinedValue
  | [] => fields
  | (name, value) :: rest => imageValues line (Record.insert name (.text line value) fields) rest

def refuseChildren (tag : String) : List Tree → Except Failure Unit
  | [] => .ok ()
  | .text s line :: rest => (refuseText tag s line).bind fun _ => refuseChildren tag rest
  | .element child _ line _ _ :: _ => .error ⟨.undescribedChild tag child, line⟩

/-! ### Objects -/

def attributeValues (table : Table) (line : Nat) (fields : Record LinedValue) :
    List (String × String) → Except Failure (Record LinedValue)
  | [] => .ok fields
  | (name, value) :: rest =>
    match table.get? name with
    | none => .error ⟨.unknownField name, line⟩
    | some f =>
      if f.role = .attribute then
        attributeValues table line (Record.insert name (.text line value) fields) rest
      else .error ⟨.notAttribute name, line⟩

def Table.refuse (table : Table) (tag : String) : Fault :=
  match table.get? tag with
  | none => .unknownField tag
  | some _ => .notElement tag

/-- An object takes its attributes, and then its own text or the fields its children are. -/
def objectValue (table : Table) (tag : String) (attributes : List (String × String)) (line : Nat)
    (children : List Tree) (childFields : Record LinedValue → Except Failure (Record LinedValue)) :
    Except Failure LinedValue :=
  match table.content? with
  | none =>
    (attributeValues table line [] attributes).bind fun own =>
      (childFields own).map (.object line)
  | some field =>
    match table.elements with
    | [] =>
      (attributeValues table line [] attributes).bind fun own =>
        (Tree.gatherAll table.refuse {} children).map fun p =>
          .content line (Record.insert field (.text (p.firstLine.getD line) p.text) own) field
    | names => .error ⟨.contentBesideChildren tag field names, line⟩

def nestedValue (schema : Schema) (tag : String) (f : Field) (command : Bool)
    (attributes : List (String × String)) (line : Nat) (children : List Tree)
    (childFields : Table → Record LinedValue → Except Failure (Record LinedValue)) :
    Except Failure LinedValue :=
  match f.table schema tag command with
  | .error fault => .error ⟨fault, line⟩
  | .ok table => objectValue table tag attributes line children (childFields table)

def fieldValue (schema : Schema) (tag : String) (f : Field) (attributes : List (String × String))
    (line : Nat) (children : List Tree)
    (childFields : Table → Record LinedValue → Except Failure (Record LinedValue)) :
    Except Failure LinedValue :=
  match f.role with
  | .attribute | .content => .error ⟨.notElement tag, line⟩
  | .scalar => scalarValue tag attributes line children
  | .object | .list => nestedValue schema tag f false attributes line children childFields

/-- A list begins on the line of its first item. -/
def takeUpItem (name : String) (v : LinedValue) (line : Nat) (fields : Record LinedValue) :
    Record LinedValue :=
  match Record.get? name fields with
  | some (.list first items) => Record.insert name (.list first (items ++ [v])) fields
  | some _ => fields
  | none => Record.insert name (.list line [v]) fields

namespace Tree

mutual

def takeUp (schema : Schema) (around : String) (table : Table) (fields : Record LinedValue) :
    Tree → Except Failure (Record LinedValue)
  | .text s line => (refuseText around s line).map fun _ => fields
  | .element tag attributes line children _ =>
    match table.get? tag with
    | none => .error ⟨.unknownField tag, line⟩
    | some f =>
      if f.role.isElement && f.role != .list && Record.contains tag fields then
        .error ⟨.alreadyDefined tag, line⟩
      else
        (fieldValue schema tag f attributes line children fun t fs =>
          takeUpAll schema tag t fs children).map fun v =>
            if f.role == .list then takeUpItem tag v line fields else Record.insert tag v fields

def takeUpAll (schema : Schema) (around : String) (table : Table) (fields : Record LinedValue) :
    List Tree → Except Failure (Record LinedValue)
  | [] => .ok fields
  | n :: ns => (n.takeUp schema around table fields).bind fun fs => takeUpAll schema around table fs ns

end

end Tree

/-! ### The paragraph -/

def commandValue (schema : Schema) (tag : String) (f : Field) (attributes : List (String × String))
    (line : Nat) (children : List Tree) : Except Failure LinedValue :=
  match f.role with
  | .attribute => .error ⟨.attributeCommand tag, line⟩
  | .list => .error ⟨.listCommand tag, line⟩
  | .content | .scalar => scalarValue tag attributes line children
  | .object => nestedValue schema tag f true attributes line children fun table fields =>
      Tree.takeUpAll schema tag table fields children

/-- A stretch of prose is a command unless it is blank. -/
def proseValue (schema : Schema) (p : Prose) : Except Failure (List LinedCommand) :=
  if p.isBlank then .ok []
  else
    let line := p.firstLine.getD 0
    match schema.root.prose? with
    | none => .error ⟨.undescribedText paragraphTag, line⟩
    | some field => .ok [⟨field, .text line p.text⟩]

structure Draft where
  commands : List LinedCommand := []
  prose : Prose := {}

namespace Tree

mutual

/-- Line breaks and text go on with the prose; images and commands end it. -/
def draft (schema : Schema) (d : Draft) : Tree → Except Failure Draft
  | .text s line => .ok { d with prose := d.prose.write s line }
  | .element tag attributes line children _ =>
    if tag = breakTag then draftAll schema { d with prose := d.prose.lineBreak } children
    else if tag = imageTag then
      (proseValue schema d.prose).bind fun before =>
        (refuseChildren imageTag children).map fun _ =>
          ⟨d.commands ++ before ++ [⟨imageTag, .object line (imageValues line [] attributes)⟩], {}⟩
    else
      match schema.command? tag with
      | none => .error ⟨.undescribedChild (schema.root.prose?.getD paragraphTag) tag, line⟩
      | some f =>
        (proseValue schema d.prose).bind fun before =>
          (commandValue schema tag f attributes line children).map fun v =>
            ⟨d.commands ++ before ++ [⟨tag, v⟩], {}⟩

def draftAll (schema : Schema) (d : Draft) : List Tree → Except Failure Draft
  | [] => .ok d
  | n :: ns => (n.draft schema d).bind fun d => draftAll schema d ns

end

def evaluate (schema : Schema) (children : List Tree) : Except Failure (List LinedCommand) :=
  (draftAll schema {} children).bind fun d => (proseValue schema d.prose).map (d.commands ++ ·)

end Tree

end TaggedProse
