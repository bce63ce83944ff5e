/-!
Inline tokens: what a paragraph's text consists of.
-/
namespace TaggedProse

inductive Token where
  /-- Prose. -/
  | text (chars : List Char)
  /-- Markup that is taken over as written. -/
  | markup (source : List Char)
  | image (url alt : List Char) (title : Option (List Char))
  /-- A hard line break, which stands for the newline after it too. -/
  | lineBreak
  deriving DecidableEq, Repr

def joinText : List Token → List Token
  | [] => []
  | .text s :: ts =>
    match joinText ts with
    | .text s' :: ts' => .text (s ++ s') :: ts'
    | ts' => .text s :: ts'
  | t :: ts => t :: joinText ts

end TaggedProse
