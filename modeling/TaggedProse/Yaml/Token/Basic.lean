/-!
Tokens of YAML text. Blocks that indentation opens and closes have tokens of their own.
-/
namespace TaggedProse.Yaml

inductive Token where
  | version (major minor : Nat)
  | handleDirective (handle start : String)
  | documentStart
  | documentEnd
  | streamEnd
  | blockSequence
  | blockMapping
  | blockEnd
  | flowSequence
  | flowSequenceEnd
  | flowMapping
  | flowMappingEnd
  | blockEntry
  | flowEntry
  | key
  | value
  | alias (name : String)
  | anchor (name : String)
  | tag (handle suffix : String)
  /-- A scalar; `plain` if it stands without quotes and is no block. -/
  | scalar (plain : Bool) (text : String)
  deriving DecidableEq, Repr

end TaggedProse.Yaml
