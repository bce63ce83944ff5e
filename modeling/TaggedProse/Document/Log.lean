/-!
The log of a document: markup that was passed over, and what became of every paragraph.
-/
namespace TaggedProse

inductive LogEntry where
  /-- A comment, declaration or instruction on this line of its paragraph. -/
  | ignoredMarkup (line : Nat)
  | parsed (startLine commands : Nat)
  | failed (startLine : Nat) (failure : String)
  deriving DecidableEq, Repr

def LogEntry.text : LogEntry → String
  | .ignoredMarkup line => s!"WARN ignoring comment or declaration at line {line}"
  | .parsed startLine commands => s!"DEBUG paragraph at line {startLine}: {commands} command(s)"
  | .failed startLine failure => s!"DEBUG paragraph at line {startLine} failed: {failure}"

end TaggedProse
