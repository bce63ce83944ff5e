import TaggedProse.Text.Quoted
import TaggedProse.Located
import TaggedProse.Xml.Event
/-!
What can be wrong with a paragraph: an element that its schema does not allow where it stands, or
markup that cannot be read.
-/
namespace TaggedProse

inductive Fault where
  | unexpectedRoot (tag : String)
  | undescribedChild (tag child : String)
  | undescribedText (tag : String)
  | undescribedAttributes (tag : String) (attributes : List (String × String))
  /-- The command is no element. -/
  | attributeCommand (name : String)
  /-- The command is a list. -/
  | listCommand (name : String)
  | unknownField (name : String)
  | notElement (name : String)
  | notAttribute (name : String)
  | alreadyDefined (name : String)
  /-- The element is to hold an object, but its type or schema is `found`. -/
  | unexpectedSchema (found tag : String)
  | commandNotFound (tag : String)
  /-- The element's schema has both a text of its own and child elements. -/
  | contentBesideChildren (tag content : String) (children : List String)
  | unexpectedClosing (tag : String)
  | unclosed (tag : String)
  | malformedTag (tag : String) (error : Xml.AttributeError)
  | badReference (error : Xml.ReferenceError)
  | badMarkup (error : Xml.MarkupError)
  deriving DecidableEq, Repr

def quoteAttributes (attributes : List (String × String)) : String :=
  "\x7b" ++ ", ".intercalate (attributes.map fun (name, value) => quote name ++ ": " ++ quote value) ++
    "\x7d"

def Fault.message : Fault → String
  | .unexpectedRoot tag => s!"Unexpected root element: '{tag}'"
  | .undescribedChild tag child => s!"Element '{tag}' has undescribed child element '{child}'"
  | .undescribedText tag => s!"Element '{tag}' has undescribed text"
  | .undescribedAttributes tag attributes =>
    s!"Element '{tag}' has undescribed attributes " ++ quoteAttributes attributes
  | .attributeCommand name => s!"Command '{name}' is not described as an element"
  | .listCommand name => s!"The list ('{name}') should be a dictionary field"
  | .unknownField name => s!"Field '{name}' is not described in the schema"
  | .notElement name => s!"Field '{name}' is not described as an element"
  | .notAttribute name => s!"Field '{name}' is not described as an attribute"
  | .alreadyDefined name => s!"Value '{name}' already defined"
  | .unexpectedSchema found tag => s!"Unexpected schema ({found}) for element '{tag}'"
  | .commandNotFound tag => s!"'{tag}' command not found"
  | .contentBesideChildren tag content children =>
    s!"An '{tag}' element with a '{content}' content field cannot contain child elements: " ++
      ", ".intercalate children
  | .unexpectedClosing tag => s!"Unexpected closing tag '</{tag}>'"
  | .unclosed tag => s!"Element '{tag}' is not closed"
  | .malformedTag tag error => s!"Malformed tag '{tag}': {error.message}"
  | .badReference error => s!"Syntax error: {error.message}"
  | .badMarkup error => error.message

abbrev Failure := Located Fault

def Failure.describe (f : Failure) : String := (f.map Fault.message).describe

end TaggedProse
