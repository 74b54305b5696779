import StyledText.Markdown.Html.PlainText

/-!
# HTML renderers

A renderer turns HTML into a styled text. It is a service of the host; two are given here.
-/

namespace StyledText.Markdown

/-- Why HTML could not be rendered. -/
inductive HtmlError where
  /-- A tag starts at a byte of the source and does not end. -/
  | unterminatedTag (start : Nat)
  /-- The host has failed, for a reason of its own. -/
  | host (detail : String)
deriving DecidableEq, Repr, Inhabited

namespace HtmlError

/-- The reason, in words. -/
def detail : HtmlError → String
  | unterminatedTag start => "unterminated tag at byte " ++ toString start
  | host detail => detail

def message (e : HtmlError) : String := "could not render HTML: " ++ e.detail

end HtmlError

/-- Turns HTML into a text that carries the given attributes. -/
structure HtmlRenderer where
  render : String → Attributes → Except HtmlError Text

namespace HtmlRenderer

/-- Shows the source as it is. -/
def literal : HtmlRenderer := ⟨fun html base => .ok (.styled html base)⟩

/-- Shows the text without its tags. -/
def plainText : HtmlRenderer where
  render html base :=
    match Html.plainText html with
    | .ok text => .ok (.styled text base)
    | .error start => .error (.unterminatedTag start)

/-- Fails with the same reason every time. -/
def failing (detail : String) : HtmlRenderer := ⟨fun _ _ => .error (.host detail)⟩

end HtmlRenderer

end StyledText.Markdown
