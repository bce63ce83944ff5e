import TaggedProse.Rank
import TaggedProse.Text.Cut
/-!
Lines. A text's lines are what its newlines separate; a line may end in a carriage return, which is
part of the line's end. Positions in a text are counted in bytes of its UTF-8 form, and `LineIndex`
finds the line of a position.
-/
namespace TaggedProse

def newlines (s : List Char) : Nat := s.count '\n'

def byteLength (s : List Char) : Nat := s.foldr (fun c n => c.utf8Size + n) 0

def splitLines (s : List Char) : List (List Char) := cut (· == '\n') s

/-- A line without the carriage return it may end in. -/
def lineContent (l : List Char) : List Char :=
  if l.getLast? = some '\r' then l.dropLast else l

/-- The positions of the newlines of `s`, when `s` stands at position `start`. -/
def newlinePositions (start : Nat) : List Char → List Nat
  | [] => []
  | c :: s =>
    if c = '\n' then start :: newlinePositions (start + c.utf8Size) s
    else newlinePositions (start + c.utf8Size) s

/-- The positions of a text's newlines, in ascending order. -/
structure LineIndex where
  breaks : Array Nat

namespace LineIndex

def of (s : List Char) : LineIndex := ⟨(newlinePositions 0 s).toArray⟩

/-- The line that holds the position: as many as there are newlines before it. -/
def lineAt (ix : LineIndex) (position : Nat) : Nat := rank ix.breaks position

def lineCount (ix : LineIndex) : Nat := ix.breaks.size + 1

def lastLine (ix : LineIndex) : Nat := ix.breaks.size

end LineIndex

end TaggedProse
