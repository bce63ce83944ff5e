import TaggedProse.Document.Basic
/-!
A registry remembers the lines of the values that were reported to it, over any number of documents.
It holds the ledger too, so that no two values of its documents are given one identity.
-/
namespace TaggedProse

structure Registry where
  /-- Identities and their lines, each identity once. -/
  lines : List (Nat × Nat) := []
  ledger : Ledger := {}

namespace Registry

def lineOf? (r : Registry) (v : Value) : Option Nat := r.lines.lookup v.id

def size (r : Registry) : Nat := r.lines.length

/-- Remembers a report, in place of an earlier one of the same value. -/
def insert (r : Registry) (report : Report) : Registry :=
  let others := r.lines.filter (·.1 != report.value.id)
  { r with lines := (report.value.id, report.line) :: others }

def parse (r : Registry) (rules : List Rule) (schema : Schema) (document : List Char) :
    DocumentResult × Registry :=
  let (d, ledger) := parseDocument rules schema document r.ledger
  (d, { d.reports.foldl insert r with ledger })

end Registry

end TaggedProse
