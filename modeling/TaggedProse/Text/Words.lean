import TaggedProse.Text.Blank
import TaggedProse.Text.Cut
/-!
Words and squeezed text: in squeezed text the words stand one space apart and nothing else is left.
-/
namespace TaggedProse

/-- The maximal runs of characters that are no white space. -/
def words (s : List Char) : List (List Char) := (cut isBlank s).filter (!·.isEmpty)

def squeeze (s : List Char) : List Char := joinWith ' ' (words s)

end TaggedProse
