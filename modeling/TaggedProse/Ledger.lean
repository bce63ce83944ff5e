/-!
The ledger gives every value that is made an identity of its own and notes the line it belongs to.
Notes wait there until a paragraph is done: they are then taken out together, or thrown away.
Identities are never given twice, also after that.
-/
namespace TaggedProse

structure Ledger where
  /-- The identity that the next value gets. -/
  next : Nat := 0
  /-- Identities and their lines, the latest first. -/
  pending : List (Nat × Nat) := []
  deriving Repr

namespace Ledger

/-- The ledger after one more value, which gets the identity `l.next`, has been noted at `line`. -/
def note (l : Ledger) (line : Nat) : Ledger := ⟨l.next + 1, (l.next, line) :: l.pending⟩

/-- The notes in the order they were made, their lines shifted. -/
def notes (l : Ledger) (offset : Nat) : List (Nat × Nat) :=
  l.pending.reverse.map fun (id, line) => (id, line + offset)

def clear (l : Ledger) : Ledger := { l with pending := [] }

def size (l : Ledger) : Nat := l.pending.length

end Ledger

end TaggedProse
