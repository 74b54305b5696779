import StyledText.Attribute.Set
import StyledText.Font.Provider
import StyledText.Markdown.Kind
import StyledText.Markdown.RawMarkup

/-!
# Inherited attributes

A node takes over the attributes of the node that holds it, and some kinds change them for
themselves and all below. `Inheritance.resolve` says how.
-/

namespace StyledText.Markdown

/-- The factor by which a heading is larger than the text around it. -/
def headingScale : Nat → Font.Size
  | 1 => 2.0
  | 2 => 1.5
  | 3 => 1.17
  | 4 => 1.0
  | 5 => 0.83
  | 6 => 0.67
  | _ => 1.0

/-- What is asked of the host to resolve attributes. -/
structure Inheritance where
  fonts : Font.Provider
  urls : UrlReader
  /-- What relative link destinations are joined to. -/
  base : Option Url := none

namespace Inheritance

/-- The font in force, which is the host's if none is set. -/
def font (h : Inheritance) (inherited : Attributes) : Font :=
  inherited.font?.getD h.fonts.defaultFont

/-- The attributes of a node, from those it inherits. -/
def resolve (h : Inheritance) (kind : Kind) (inherited : Attributes) : Attributes :=
  let font := h.font inherited
  let withFont := fun f : Font => inherited.insert .font (.font f)
  match kind with
  | .blockQuote | .emphasis => withFont (h.fonts.addingTraits font { italic := true })
  | .strong => withFont (h.fonts.addingTraits font { bold := true })
  | .heading level =>
    let larger := h.fonts.resized font (font.size * headingScale level)
    withFont (h.fonts.addingTraits larger { bold := true })
  | .codeBlock .. | .code _ => withFont (h.fonts.monospaced font)
  | .link destination title =>
    let linked := match h.urls.target? h.base destination with
      | some target => inherited.insert .link (.link target)
      | none => inherited
    if title = "" then linked else linked.insert .toolTip (.text title)
  | .inlineHtml literal =>
    match RawMarkup.assignment? literal with
    | some (key, value) => inherited.insert key (.text value)
    | none => inherited
  | _ => inherited

end Inheritance

end StyledText.Markdown
