import StyledText.Chars.Blank
import StyledText.Markdown.Html.Escape
import StyledText.Markdown.Tree.Outline

/-!
# Markdown as HTML

`Outline.write` adds the HTML of a node to the end of what is written already.

* Texts, destinations and titles are escaped; raw markup is copied.
* `tight` says that a paragraph stands in an item of a tight list. It then has no tags.
* A child of an item starts on a line of its own, unless it is a tight paragraph and comes first.
-/

namespace StyledText.Markdown.Outline

open Html

/-- Whether what is written ends a line. -/
def endsLine (out : String) : Bool := out.toList.getLast? = some '\n'

def titleAttribute (title : String) : String :=
  if title = "" then "" else " title=\"" ++ escape title ++ "\""

/-- The tag a list opens with. Only ordered lists show their start, and only one other than 1. -/
def listTag : ListKind → Nat → String
  | .bullet, _ => "<ul>\n"
  | .ordered, 1 => "<ol>\n"
  | .ordered, start => "<ol start=\"" ++ toString start ++ "\">\n"

def listEndTag : ListKind → String
  | .bullet => "</ul>\n"
  | .ordered => "</ol>\n"

/-- The tags a code block opens with. The first word of the info names the language. -/
def codeTag (info : String) : String :=
  match Chars.words info.toList with
  | language :: _ => "<pre><code class=\"language-" ++ escape (.ofList language) ++ "\">"
  | [] => "<pre><code>"

mutual

/-- Writes a node after `out`. -/
def write (tight : Bool) : Outline → String → String
  | node kind children, out =>
    match kind with
    | .document | .unsupported _ => writeAll tight children out
    | .blockQuote => writeAll false children (out ++ "<blockquote>\n") ++ "</blockquote>\n"
    | .paragraph =>
      if tight then writeAll false children out
      else writeAll false children (out ++ "<p>") ++ "</p>\n"
    | .heading level =>
      writeAll false children (out ++ "<h" ++ toString level ++ ">") ++
        "</h" ++ toString level ++ ">\n"
    | .codeBlock info literal => out ++ codeTag info ++ escape literal ++ "</code></pre>\n"
    | .htmlBlock literal => out ++ literal
    | .list kind start tight =>
      writeAll tight children (out ++ listTag kind start) ++ listEndTag kind
    | .item => writeItem tight true children (out ++ "<li>") ++ "</li>\n"
    | .thematicBreak => out ++ "<hr />\n"
    | .text literal => out ++ escape literal
    | .code literal => out ++ "<code>" ++ escape literal ++ "</code>"
    | .inlineHtml literal => out ++ literal
    | .emphasis => writeAll false children (out ++ "<em>") ++ "</em>"
    | .strong => writeAll false children (out ++ "<strong>") ++ "</strong>"
    | .link destination title =>
      writeAll false children
        (out ++ "<a href=\"" ++ escape destination ++ "\"" ++ titleAttribute title ++ ">") ++
        "</a>"
    | .image destination title alt =>
      out ++ "<img src=\"" ++ escape destination ++ "\" alt=\"" ++ escape alt ++ "\"" ++
        titleAttribute title ++ " />"
    | .softBreak => out ++ "\n"
    | .hardBreak => out ++ "<br />\n"

def writeAll (tight : Bool) : List Outline → String → String
  | [], out => out
  | o :: rest, out => writeAll tight rest (write tight o out)

/-- Writes the children of an item; `first` says that none is written yet. -/
def writeItem (tight first : Bool) : List Outline → String → String
  | [], out => out
  | o :: rest, out =>
    let joins := first && tight && o.kind = .paragraph
    let out := if joins || endsLine out then out else out ++ "\n"
    writeItem tight false rest (write tight o out)

end

/-- The HTML of a node and all below it. -/
def toHtml (o : Outline) : String := write false o ""

end StyledText.Markdown.Outline
