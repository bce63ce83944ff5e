/-!
Something that belongs to a line, lines being counted from zero.
-/
namespace TaggedProse
variable {α β : Type}

@[ext]
structure Located (α : Type) where
  item : α
  line : Nat
  deriving DecidableEq, Repr

namespace Located

/-- The same, seen from a text that begins `offset` lines earlier. -/
def shift (l : Located α) (offset : Nat) : Located α := { l with line := l.line + offset }

def map (f : α → β) (l : Located α) : Located β := ⟨f l.item, l.line⟩

def describe (l : Located String) : String := s!"{l.item} at line {l.line}"

end Located

end TaggedProse
