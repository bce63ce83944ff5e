import TaggedProse.Text.Words
/-!
A passage is text under way: what was written between one hard break and the next. Its text has one
line for each of these pieces, squeezed, so that every break is one newline and no other newline is
left.
-/
namespace TaggedProse

/-- The pieces before the last break, and the piece being written. -/
structure Passage where
  before : List (List Char) := []
  current : List Char := []

namespace Passage

def pieces (p : Passage) : List (List Char) := p.before ++ [p.current]

def write (p : Passage) (s : List Char) : Passage := { p with current := p.current ++ s }

def lineBreak (p : Passage) : Passage := ⟨p.before ++ [p.current], []⟩

def isBlank (p : Passage) : Bool := p.pieces.all allBlank

def chars (p : Passage) : List Char := joinWith '\n' (p.pieces.map squeeze)

def text (p : Passage) : String := String.ofList p.chars

@[simp] theorem pieces_empty : ({} : Passage).pieces = [[]] := rfl

@[simp] theorem pieces_write (p : Passage) (s : List Char) :
    (p.write s).pieces = p.before ++ [p.current ++ s] := rfl

@[simp] theorem pieces_lineBreak (p : Passage) : p.lineBreak.pieces = p.pieces ++ [[]] := rfl

end Passage

end TaggedProse
