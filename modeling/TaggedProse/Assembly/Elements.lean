import TaggedProse.Assembly.Basic
import TaggedProse.Xml.Reader
/-!
Assembling commands from a text of elements: its events are read one after the other and handed to
the assembly, until one of them or the text itself is found faulty. Comments, declarations and
instructions are passed over, and their lines are kept.
-/
namespace TaggedProse

namespace Xml.Event

def parts (line : Nat) : Xml.Event → Except Failure (List Part)
  | .opening content =>
    let tag := String.ofList (Xml.tagName content)
    match Xml.attributes content with
    | .error e => .error ⟨.malformedTag tag e, line⟩
    | .ok attributes => .ok [.opening tag attributes line]
  | .empty content =>
    let tag := String.ofList (Xml.tagName content)
    match Xml.attributes content with
    | .error e => .error ⟨.malformedTag tag e, line⟩
    | .ok attributes => .ok [.opening tag attributes line, .closing tag line]
  | .closing name => .ok [.closing (String.ofList name) line]
  | .text source =>
    match Xml.decode source with
    | .error e => .error ⟨.badReference e, line⟩
    | .ok s => .ok [.text s line]
  | .literal s => .ok [.text s line]
  | .ignored => .ok []

end Xml.Event

namespace Assembly

def feed (schema : Schema) (line : Nat) (event : Xml.Event) (a : Assembly) :
    Except Failure Unit × Assembly :=
  match event.parts line with
  | .error e => (.error e, a)
  | .ok parts => run schema parts a

end Assembly

structure Fed where
  result : Except Failure Unit
  assembly : Assembly
  /-- The lines of the comments, declarations and instructions that were passed over. -/
  ignored : List Nat

namespace Assembly

/-- Feeds events with their lines, up to the first that fails. -/
def feedAll (schema : Schema) : List (Nat × Xml.Event) → Assembly → Fed
  | [], a => ⟨.ok (), a, []⟩
  | (line, event) :: events, a =>
    match feed schema line event a with
    | (.error e, a) => ⟨.error e, a, []⟩
    | (.ok (), a) =>
      let fed := feedAll schema events a
      if event = .ignored then { fed with ignored := line :: fed.ignored } else fed

end Assembly

structure Assembled where
  result : Except Failure (List Command)
  ledger : Ledger
  ignored : List Nat

/-- The commands in a text whose elements are those of `schema`. -/
def assemble (schema : Schema) (ledger : Ledger) (s : List Char) : Assembled :=
  let index := LineIndex.of s
  let reading := Xml.read s
  let events := reading.events.map fun (position, event) => (index.lineAt position, event)
  let fed := Assembly.feedAll schema events { ledger }
  let result :=
    match fed.result, reading.fault with
    | .error e, _ => .error e
    | .ok (), some (position, e) => .error ⟨.badMarkup e, index.lineAt position⟩
    | .ok (), none => fed.assembly.finish index.lastLine
  ⟨result, fed.assembly.ledger, fed.ignored⟩

end TaggedProse
