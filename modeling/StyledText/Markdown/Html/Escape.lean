import StyledText.Chars.Replace

/-!
# Character entities

* `escape` writes a text so that it holds no markup.
* `decode` reads the entities `escape` writes, and two for the apostrophe. The ampersand is read
  last, so no entity arises from reading another.
-/

namespace StyledText.Markdown.Html

/-- The entity of a character, if it needs one. -/
def escapeChar : Char → List Char
  | '&' => "&amp;".toList
  | '<' => "&lt;".toList
  | '>' => "&gt;".toList
  | '"' => "&quot;".toList
  | c => [c]

/-- A text with entities for what would be markup. -/
def escapeChars (cs : List Char) : List Char := cs.flatMap escapeChar

def escape (s : String) : String := .ofList (escapeChars s.toList)

/-- The entities that are read, in the order in which they are looked for. -/
def entities : List (List Char × Char) :=
  [("&lt;".toList, '<'), ("&gt;".toList, '>'), ("&quot;".toList, '"'), ("&apos;".toList, '\x27'),
    ("&#39;".toList, '\x27'), ("&amp;".toList, '&')]

/-- A text with its entities replaced by what they stand for. -/
def decode (cs : List Char) : List Char :=
  entities.foldl (fun cs entity => Chars.replaceAll entity.1 [entity.2] cs) cs

end StyledText.Markdown.Html
