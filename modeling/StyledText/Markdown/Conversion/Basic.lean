import StyledText.Markdown.Conversion.Options
import StyledText.Markdown.Html.Writer
import StyledText.Markdown.Inheritance
import StyledText.Markdown.Tree.OfEvents

/-!
# From trees to styled texts

`Tree.toText` turns what is below a node into a text, in document order.

* Blocks are set apart by paragraph separators, lines inside a block by line separators. Separators
  carry no attributes.
* Every item of a list starts with a run of its own: indentation, marker and a space.
* A block that holds raw markup is not looked into. Its HTML goes to the renderer as a whole.
* An image becomes an empty run with its attachment.
* The first failure ends the conversion.
-/

namespace StyledText.Markdown

/-- What stays the same throughout a conversion. -/
structure Conversion where
  options : ConversionOptions
  attachments : Attachments

namespace Conversion

/-- How attributes are inherited. -/
def inheritance (c : Conversion) : Inheritance :=
  { fonts := c.options.fonts
    urls := c.options.urls
    base := c.options.baseUrl.bind c.options.urls.base? }

/-- What stands between neighbouring blocks. -/
def blockSeparator : Option String := some paragraphSeparator.toString

def maxNumber : Nat := UInt64.size - 1

/-- The number of the item at a position, in a list that starts with `start`. -/
def itemNumber (c : Conversion) (start position : Nat) : Nat :=
  if c.options.respectsListStart then min (start + position) maxNumber else position + 1

/-- What an item starts with. Of the lists that hold it, `enclosing` gives the kinds. -/
def itemLead (c : Conversion) (enclosing : List ListKind) (kind : ListKind) (number : Nat) :
    String :=
  String.join (List.replicate enclosing.length c.options.indent) ++
    kind.marker (enclosing.count kind) number c.options.markers ++ " "

/-- The text of an image. An image without a destination shows nothing. -/
def image (c : Conversion) (destination : String) (attributes : Attributes) :
    Except ConversionError Text :=
  if destination = "" then .ok {}
  else match c.attachments.get? destination with
    | some attachment => .ok (.ofRun (.ofAttachment attachment attributes))
    | none => .error (.attachmentMissing destination)

/-- The text the renderer makes of a block. -/
def renderHtml (c : Conversion) (block : Outline) (attributes : Attributes) :
    Except ConversionError Text :=
  (c.options.html.render block.toHtml attributes).mapError .html

/-- The kinds of the lists that hold what is inside a node, from those that hold the node. -/
def listsInside (kind : Kind) (enclosing : List ListKind) : List ListKind :=
  kind.list?.toList ++ enclosing

/-- Whether raw markup stands right inside a block. -/
def holdsHtml (children : List Outline) : Bool := children.any (·.kind.isHtmlBlock)

mutual

/-- The text of a node that inherits `attributes`. Of the lists that hold it, `enclosing` gives the
kinds. -/
def convert (c : Conversion) (enclosing : List ListKind) (attributes : Attributes) :
    Outline → Except ConversionError Text
  | .node kind children =>
    let own := c.inheritance.resolve kind attributes
    match kind with
    | .softBreak => .ok (.styled " " own)
    | .hardBreak | .thematicBreak => .ok (.styled lineSeparator.toString own)
    | .text s | .code s | .inlineHtml s | .codeBlock _ s | .htmlBlock s => .ok (.styled s own)
    | .document | .blockQuote | .item =>
      if holdsHtml children then c.renderHtml (.node kind children) own
      else (Text.joined blockSeparator) <$> convertAll c enclosing own children
    | .paragraph | .heading _ | .emphasis | .strong | .link .. =>
      (Text.joined none) <$> convertAll c enclosing own children
    | .list listKind start _ =>
      (Text.joined blockSeparator) <$>
        convertItems c (listsInside kind enclosing) own listKind start 0 children
    | .image destination _ _ => c.image destination own
    | .unsupported _ => .ok {}

def convertAll (c : Conversion) (enclosing : List ListKind) (attributes : Attributes) :
    List Outline → Except ConversionError (List Text)
  | [] => .ok []
  | o :: rest => do
    let first ← convert c enclosing attributes o
    let more ← convertAll c enclosing attributes rest
    return first :: more

/-- The texts of the items of a list, the first one at `position`. Whatever kind of node an item is,
only what it holds counts. -/
def convertItems (c : Conversion) (enclosing : List ListKind) (attributes : Attributes)
    (kind : ListKind) (start position : Nat) : List Outline → Except ConversionError (List Text)
  | [] => .ok []
  | .node itemKind children :: rest => do
    let content ← convertAll c (listsInside itemKind enclosing) attributes children
    let more ← convertItems c enclosing attributes kind start (position + 1) rest
    let lead := c.itemLead enclosing kind (c.itemNumber start position)
    return (.styled lead attributes ++ Text.joined blockSeparator content) :: more

end

end Conversion

/-- The text of what is below a node, with the attributes that it inherits. -/
def Tree.toText (t : Tree) (id : NodeId) (inherited : Attributes) (attachments : Attachments)
    (options : ConversionOptions) : Except ConversionError Text :=
  Conversion.convert { options, attachments } (t.enclosingLists id) inherited (t.outline id)

end StyledText.Markdown

namespace StyledText

open Markdown

def Text.ofMarkdown (reader : Reader) (source : String) (inherited : Attributes)
    (attachments : Attachments) (options : ConversionOptions) : Except ConversionError Text :=
  (Tree.read reader {} source).toText Tree.root inherited attachments options

end StyledText
