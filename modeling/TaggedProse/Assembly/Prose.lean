import TaggedProse.Text.Passage
/-!
Text that an element collects: a passage, and the line of its first visible character.
-/
namespace TaggedProse

/-- The line of the first character that is no white space, when `s` begins on line `line`. -/
def visibleLine? (line : Nat) : List Char → Option Nat
  | [] => none
  | c :: s => if isBlank c then visibleLine? (if c = '\n' then line + 1 else line) s else some line

structure Prose where
  passage : Passage := {}
  firstLine : Option Nat := none

namespace Prose

def write (p : Prose) (s : List Char) (line : Nat) : Prose :=
  ⟨p.passage.write s, p.firstLine.or (visibleLine? line s)⟩

def lineBreak (p : Prose) : Prose := { p with passage := p.passage.lineBreak }

def isBlank (p : Prose) : Bool := p.passage.isBlank

def text (p : Prose) : String := p.passage.text

end Prose

end TaggedProse
