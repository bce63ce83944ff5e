import TaggedProse.Text.Reference
import TaggedProse.Inline.Token
/-!
Rendering. The tokens of a paragraph are written as one element `p`: prose with its markup
characters escaped, markup as it stands, images and hard breaks as empty elements. Every newline of
the paragraph's text stays where it was.
-/
namespace TaggedProse

/-- The names of the elements that stand for a paragraph, an image and a hard line break. -/
def paragraphTag : String := "p"

def imageTag : String := "image"

def breakTag : String := "br"

def renderAttribute (name : String) (value : List Char) : List Char :=
  ' ' :: name.toList ++ ['=', '"'] ++ escape .attribute value ++ ['"']

/-- An attribute that is left out when its value is empty. -/
def renderOptional (name : String) (value : List Char) : List Char :=
  if value.isEmpty then [] else renderAttribute name value

def Token.render : Token → List Char
  | .text s => escape .content s
  | .markup source => source
  | .image url alt title =>
    '<' :: imageTag.toList ++ renderAttribute "url" url ++ renderOptional "alt" alt ++
      renderOptional "title" (title.getD []) ++ ['/', '>']
  | .lineBreak => '<' :: breakTag.toList ++ ['/', '>', '\n']

def render (tokens : List Token) : List Char :=
  ('<' :: paragraphTag.toList ++ ['>']) ++ tokens.flatMap Token.render ++
    (['<', '/'] ++ paragraphTag.toList ++ ['>'])

end TaggedProse
