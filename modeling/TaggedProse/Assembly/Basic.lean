import TaggedProse.Assembly.Frame
/-!
Assembling the commands of one paragraph from its tags and texts. The open elements form a stack of
frames. A tag or text concerns the innermost frame that is no line break; a closing tag closes the
innermost frame. Each step may fail, and the assembly can go on from where it stands then.
-/
namespace TaggedProse

structure Assembly where
  /-- The open elements, the innermost first. -/
  frames : List Frame := []
  commands : List Command := []
  /-- Whether the paragraph's own element has closed. -/
  closed : Bool := false
  ledger : Ledger := {}

/-- A tag or a text of a paragraph, with its line. -/
inductive Part where
  | opening (tag : String) (attributes : List (String × String)) (line : Nat)
  | text (s : List Char) (line : Nat)
  | closing (tag : String) (line : Nat)

namespace Assembly

/-- The line breaks on top of the stack, and the frames below them. -/
def splitBreaks (frames : List Frame) : List Frame × List Frame :=
  frames.span (·.body.isLineBreak)

def openElement (schema : Schema) (tag : String) (attributes : List (String × String)) (line : Nat)
    (a : Assembly) : Except Failure Unit × Assembly :=
  match splitBreaks a.frames with
  | (_, []) =>
    if a.closed || tag != paragraphTag then (.error ⟨.unexpectedRoot tag, line⟩, a)
    else (.ok (), { a with frames := ⟨tag, line, false, .paragraph none []⟩ :: a.frames })
  | (breaks, around :: below) =>
    let o := around.body.openChild schema around.tag tag attributes line a.ledger
    let frames := breaks ++ { around with body := o.parent } :: below
    match o.child with
    | .error e => (.error e, { a with frames, ledger := o.ledger })
    | .ok body =>
      (.ok (), { a with frames := ⟨tag, line, o.item, body⟩ :: frames, ledger := o.ledger })

def write (s : List Char) (line : Nat) (a : Assembly) : Except Failure Unit × Assembly :=
  match splitBreaks a.frames with
  | (_, []) => (refuseText paragraphTag s line, a)
  | (breaks, around :: below) =>
    match around.body.write around.tag s line with
    | .error e => (.error e, a)
    | .ok body => (.ok (), { a with frames := breaks ++ { around with body } :: below })

/-- Hands the value of the element `child`, which has closed, to the element around it. -/
def deliver (tag : String) (line : Nat) (child : Frame) (v : Value) (a : Assembly) :
    Except Failure Unit × Assembly :=
  match splitBreaks a.frames with
  | (_, []) => (.error ⟨.unexpectedClosing tag, line⟩, a)
  | (breaks, around :: below) =>
    match around.body.accept around.tag child v a.ledger with
    | (.error e, ledger) => (.error e, { a with ledger })
    | (.ok body, ledger) =>
      (.ok (), { a with frames := breaks ++ { around with body } :: below, ledger })

def closeElement (schema : Schema) (tag : String) (line : Nat) (a : Assembly) :
    Except Failure Unit × Assembly :=
  match a.frames with
  | [] => (.error ⟨.unexpectedClosing tag, line⟩, a)
  | f :: frames =>
    match f.body.close schema f.line a.ledger with
    | (.error e, ledger) => (.error e, { a with frames, ledger })
    | (.ok .nothing, ledger) => (.ok (), { a with frames, ledger })
    | (.ok (.commands l), ledger) =>
      (.ok (), { a with frames, ledger, commands := a.commands ++ l, closed := true })
    | (.ok (.value v), ledger) => deliver tag line f v { a with frames, ledger }

def step (schema : Schema) (part : Part) (a : Assembly) : Except Failure Unit × Assembly :=
  match part with
  | .opening tag attributes line => openElement schema tag attributes line a
  | .text s line => write s line a
  | .closing tag line => closeElement schema tag line a

/-- Goes on to the first part that fails. -/
def run (schema : Schema) : List Part → Assembly → Except Failure Unit × Assembly
  | [], a => (.ok (), a)
  | part :: parts, a =>
    match step schema part a with
    | (.ok (), a) => run schema parts a
    | (.error e, a) => (.error e, a)

/-- The commands, once the paragraph's own element has closed; `line` is the last line. -/
def finish (line : Nat) (a : Assembly) : Except Failure (List Command) :=
  if a.closed then .ok a.commands
  else
    match a.frames with
    | [] => .error ⟨.unclosed paragraphTag, line⟩
    | f :: _ => .error ⟨.unclosed f.tag, line⟩

end Assembly

end TaggedProse
