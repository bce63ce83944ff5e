import TaggedProse.Json.Reader
import TaggedProse.Schema.OfJson
import TaggedProse.Schema.OfYaml
import TaggedProse.Yaml.Node.Reader
/-!
Schema descriptions as text.
-/
namespace TaggedProse

inductive SourceFormat where
  | json
  | yaml
  deriving DecidableEq, Repr

def Description.read? (source : String) : SourceFormat → Option Description
  | .json => do ofJson? (← Json.read? source.toList)
  | .yaml => do ofYaml? (← Yaml.read? source.toList)

end TaggedProse
