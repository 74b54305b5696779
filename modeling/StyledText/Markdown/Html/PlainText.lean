import StyledText.Chars.Blank
import StyledText.Chars.Offset
import StyledText.Markdown.Html.Escape
import StyledText.Text.Basic

/-!
# The plain text of HTML

* A `<` opens a tag only before a slash, an exclamation mark or an ASCII letter, and the tag goes
  on to the next `>`. A tag that never ends is the one error.
* `br` ends a line. `hr`, and the end of a block element, ends a block. Other tags show nothing.
* In each line entities are read and white space is squeezed. Blocks without any text vanish.
-/

namespace StyledText.Markdown.Html

/-- A character between tags, or what stands between the brackets of a tag. -/
inductive Token where
  | char (c : Char)
  | tag (body : List Char)
deriving DecidableEq, Repr, Inhabited

/-- Whether a `<` before these characters opens a tag. -/
def opensTag : List Char → Bool
  | c :: _ => c = '/' || c = '!' || c.isAlpha
  | [] => false

/-- Reads tokens from byte `offset` on. In `inside`, an open tag is kept: the byte it starts at and
what was read of it, last character first. Yields the start of a tag that does not end. -/
def tokensFrom (offset : Nat) (inside : Option (Nat × List Char)) :
    List Char → Except Nat (List Token)
  | [] =>
    match inside with
    | some (start, _) => .error start
    | none => .ok []
  | c :: rest =>
    match inside with
    | some (start, body) =>
      if c = '>' then (.tag body.reverse :: ·) <$> tokensFrom (offset + 1) none rest
      else tokensFrom (offset + c.utf8Size) (some (start, c :: body)) rest
    | none =>
      if c = '<' && opensTag rest then tokensFrom (offset + 1) (some (offset, [])) rest
      else (.char c :: ·) <$> tokensFrom (offset + c.utf8Size) none rest

def tokens (cs : List Char) : Except Nat (List Token) := tokensFrom 0 none cs

/-! ## Blocks -/

/-- The elements that are blocks. -/
def blockElements : List String :=
  ["p", "div", "h1", "h2", "h3", "h4", "h5", "h6", "li", "ul", "ol", "blockquote", "pre", "hr",
    "table", "tr"]

/-- The name of a tag, in lower case. -/
def tagName (body : List Char) : String :=
  .ofList (((body.dropWhile (· = '/')).takeWhile Char.isAlphanum).map Char.toLower)

def isEndTag (body : List Char) : Bool := body.head? = some '/'

/-- What a token shows. -/
inductive Token.Effect where
  | shows (c : Char)
  | blockEnd
  | nothing
deriving DecidableEq, Repr, Inhabited

/-- What a token shows: itself, the end of a line or block, or nothing. -/
def Token.effect : Token → Token.Effect
  | char c => .shows c
  | tag body =>
    let name := tagName body
    if name = "br" then .shows lineSeparator
    else if name ∈ blockElements && (isEndTag body || name = "hr") then .blockEnd
    else .nothing

def Token.Effect.char? : Token.Effect → Option Char
  | shows c => some c
  | _ => none

/-- The raw text of each block. -/
def rawBlocks (ts : List Token) : List (List Char) :=
  ((ts.map Token.effect).splitOn .blockEnd).map (·.filterMap Token.Effect.char?)

/-- A block with its entities read and its white space squeezed, line by line. -/
def tidyBlock (cs : List Char) : List Char :=
  List.intercalate [lineSeparator] <|
    (cs.splitOn lineSeparator).map fun line => Chars.squeeze (decode line)

/-- The blocks that tokens show, without the empty ones. -/
def blocks (ts : List Token) : List (List Char) :=
  ((rawBlocks ts).map tidyBlock).filter (·.any (!Chars.isBlank ·))

/-- The plain text of HTML, or the byte where a tag starts that does not end. -/
def plainText (html : String) : Except Nat String :=
  (tokens html.toList).map fun ts =>
    .ofList (List.intercalate [paragraphSeparator] (blocks ts))

end StyledText.Markdown.Html
