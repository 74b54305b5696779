import StyledText.Attribute.Key
import StyledText.Chars.Blank

/-!
# Attributes in raw markup

Inline markup such as `<key name/>` sets an attribute. Angle brackets and slashes do not count;
what is left must be exactly two words, the name of a key and its value. The names `value` and
`key` stand for the value and the name of a template variable, any other for a custom key.
-/

namespace StyledText.Markdown.RawMarkup

open Attribute

/-- The characters that do not count. -/
def isBracket (c : Char) : Bool := c = '<' || c = '/' || c = '>'

/-- The key a word names. -/
def keyOf (name : String) : Key :=
  if name = "value" then .variableValue else if name = "key" then .variableName else .custom name

/-- The attribute that a literal sets, if it has the form. -/
def assignment? (literal : String) : Option (Key × String) :=
  match Chars.words (literal.toList.filter (!isBracket ·)) with
  | [name, value] => some (keyOf (.ofList name), .ofList value)
  | _ => none

end StyledText.Markdown.RawMarkup
